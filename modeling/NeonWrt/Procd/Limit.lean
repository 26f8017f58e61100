import NeonWrt.Lib.Blanks
import NeonWrt.Procd.Instance

/-!
# Resource limits in systemd's spelling

procd accepts a limit as one value or as a pair of a soft and a hard value, set
apart by blanks or a colon. systemd wants the pair with a colon, and spells an
unlimited value `infinity`. The scanner of `normalize_limit_value` is compared
with the texts it is meant for.
-/

namespace NeonWrt.Procd

open Lib

/-- A blank or a tab. -/
def IsBlank (c : UInt8) : Prop := c = 32 ∨ c = 9

instance : DecidablePred IsBlank := fun _ => inferInstanceAs (Decidable (_ ∨ _))

/-- The colon. -/
def colon : UInt8 := 58

/-- A value that fits the token buffer, without whitespace and colons. -/
structure IsToken (t : Bytes) : Prop where
  ne_nil : t ≠ []
  length_lt : t.length < 128
  chars : ∀ c ∈ t, isspace c = false ∧ c ≠ colon

/-- The spelling of a value. -/
def normToken (t : Bytes) : Bytes :=
  if caseEq t (ascii "unlimited") || caseEq t (ascii "infinity") then ascii "infinity" else t

/-- What stands between two values. -/
structure IsSeparator (s : Bytes) : Prop where
  ne_nil : s ≠ []
  chars : ∀ c ∈ s, IsBlank c ∨ c = colon

/-- A text with one or two values between blanks, and its meaning. -/
inductive LimitText : Bytes → Bytes → Prop
  | one {lead a trail : Bytes} : (∀ c ∈ lead, IsBlank c) → IsToken a → (∀ c ∈ trail, IsBlank c) →
      LimitText (lead ++ a ++ trail) (normToken a)
  | two {lead a sep b trail : Bytes} : (∀ c ∈ lead, IsBlank c) → IsToken a → IsSeparator sep →
      IsToken b → (∀ c ∈ trail, IsBlank c) →
      LimitText (lead ++ (a ++ sep ++ b) ++ trail) (normToken a ++ [colon] ++ normToken b)

theorem IsBlank.isspace {c : UInt8} (h : IsBlank c) : isspace c = true := by
  rcases h with rfl | rfl <;> decide

theorem IsBlank.limitSeparator {c : UInt8} (h : IsBlank c) : limitSeparator c = true := by
  rcases h with rfl | rfl <;> decide

namespace IsToken

variable {t : Bytes}

theorem not_limitSeparator (h : IsToken t) {c : UInt8} (hc : c ∈ t) : limitSeparator c = false := by
  obtain ⟨hspace, hcolon⟩ := h.chars c hc
  have hblank : c ≠ 32 ∧ c ≠ 9 := by
    constructor <;> (rintro rfl; exact absurd hspace (by decide))
  simp [Procd.limitSeparator, hblank, show c ≠ 58 from hcolon]

theorem normalizeLimitToken_eq (h : IsToken t) {outsz : ℕ} (hsz : 128 ≤ outsz) :
    normalizeLimitToken t outsz = normToken t := by
  have hfits : t.length < outsz := lt_of_lt_of_le h.length_lt hsz
  have hinf : (ascii "infinity").length < outsz := lt_of_lt_of_le (by decide) hsz
  unfold normalizeLimitToken normToken
  rw [if_neg h.ne_nil, snprintf_of_length_lt hfits, snprintf_of_length_lt hinf]

theorem norm (h : IsToken t) : IsToken (normToken t) := by
  unfold normToken
  split
  · exact ⟨by decide, by decide, by decide +kernel⟩
  · exact h

end IsToken

theorem normToken_normToken (t : Bytes) : normToken (normToken t) = normToken t := by
  unfold normToken
  by_cases h : (caseEq t (ascii "unlimited") || caseEq t (ascii "infinity")) = true
  · rw [if_pos h]
    decide
  · rw [if_neg h, if_neg h]

/-- Blanks around a text that starts and ends in a character of a value are trimmed. -/
theorem trim_blanks {lead text trail : Bytes} (hlead : ∀ c ∈ lead, IsBlank c)
    (htrail : ∀ c ∈ trail, IsBlank c) (hhead : ∀ c ∈ text.head?, isspace c = false)
    (hlast : ∀ c ∈ text.getLast?, isspace c = false) : trim (lead ++ text ++ trail) = text :=
  trimBy_eq_of_append (fun c hc => (hlead c hc).isspace) (fun c hc => (htrail c hc).isspace)
    hhead hlast

namespace IsToken

variable {a b sep : Bytes}

theorem head (h : IsToken a) (rest : Bytes) : ∀ c ∈ (a ++ rest).head?, isspace c = false := by
  intro c hc
  cases a with
  | nil => exact absurd rfl h.ne_nil
  | cons d a =>
    obtain rfl : d = c := by simpa using hc
    exact (h.chars d List.mem_cons_self).1

theorem last (h : IsToken b) (before : Bytes) :
    ∀ c ∈ (before ++ b).getLast?, isspace c = false := by
  intro c hc
  have hmem : c ∈ b := by
    rw [List.getLast?_append_of_ne_nil _ h.ne_nil] at hc
    exact List.mem_of_mem_getLast? hc
  exact (h.chars c hmem).1

/-- The first value ends at the first separator. -/
theorem dropWhile_append (h : IsToken a) (rest : Bytes) :
    (a ++ rest).dropWhile (fun c => !limitSeparator c) =
      rest.dropWhile fun c => !limitSeparator c :=
  List.dropWhile_append_of_pos fun c hc => by simp [h.not_limitSeparator hc]

theorem takeWhile_append (h : IsToken a) (rest : Bytes) :
    (a ++ rest).takeWhile (fun c => !limitSeparator c) =
      a ++ rest.takeWhile fun c => !limitSeparator c :=
  List.takeWhile_append_of_pos fun c hc => by simp [h.not_limitSeparator hc]

end IsToken

/-- A separator is skipped as a whole, up to the second value. -/
theorem IsSeparator.cases {sep : Bytes} (h : IsSeparator sep) :
    ∃ c rest, sep = c :: rest ∧ limitSeparator c = true ∧
      ∀ d ∈ rest, (isspace d || d == 58) = true := by
  obtain ⟨c, rest, rfl⟩ := List.exists_cons_of_ne_nil h.ne_nil
  refine ⟨c, rest, rfl, ?_, fun d hd => ?_⟩
  · rcases h.chars c List.mem_cons_self with hblank | rfl
    · exact hblank.limitSeparator
    · decide
  · rcases h.chars d (List.mem_cons_of_mem _ hd) with hblank | rfl
    · simp [hblank.isspace]
    · decide

theorem normalizeLimitValue_one {v : CStr} {a : Bytes} (hlen : v.bytes.length < 256)
    (ha : IsToken a) (htrim : trim v.bytes = a) :
    normalizeLimitValue (some v) 256 = normToken a := by
  -- no separator is found
  have hdrop : a.dropWhile (fun c => !limitSeparator c) = [] := by
    simpa using ha.dropWhile_append []
  simp only [normalizeLimitValue, Option.map_some, Option.getD_some,
    snprintf_of_length_lt hlen, htrim, hdrop]
  exact ha.normalizeLimitToken_eq (by decide)

theorem normalizeLimitValue_two {v : CStr} {a sep b : Bytes} (hlen : v.bytes.length < 256)
    (ha : IsToken a) (hsep : IsSeparator sep) (hb : IsToken b)
    (htrim : trim v.bytes = a ++ sep ++ b) :
    normalizeLimitValue (some v) 256 = normToken a ++ [colon] ++ normToken b := by
  obtain ⟨c, rest, rfl, hc, hrest⟩ := hsep.cases
  have hdrop : (a ++ c :: rest ++ b).dropWhile (fun c => !limitSeparator c) = c :: (rest ++ b) := by
    rw [List.append_assoc, ha.dropWhile_append, List.cons_append,
      List.dropWhile_cons_of_neg (by simp [hc])]
  have htake : (a ++ c :: rest ++ b).takeWhile (fun c => !limitSeparator c) = a := by
    rw [List.append_assoc, ha.takeWhile_append, List.cons_append,
      List.takeWhile_cons_of_neg (by simp [hc]), List.append_nil]
  -- blanks and colons in front of the second value are skipped, and none are behind it
  have hsecond : ((rest ++ b).dropWhile fun c => isspace c || c == 58).rdropWhile isspace = b := by
    have hstop : b.dropWhile (fun c => isspace c || c == 58) = b := by
      refine List.dropWhile_eq_self_iff.mpr fun hpos => ?_
      obtain ⟨hspace, hcolon⟩ := hb.chars _ (List.getElem_mem hpos)
      simp [hspace, show b[0] ≠ 58 from hcolon]
    rw [List.dropWhile_append_of_pos hrest, hstop]
    exact List.rdropWhile_eq_self_iff.mpr fun hne => by
      simp [(hb.chars _ (List.getLast_mem hne)).1]
  -- two values of fewer than 128 characters and a colon
  have hfits : (normToken a ++ ascii ":" ++ normToken b).length < 256 := by
    have hcolon : (ascii ":").length = 1 := by decide
    have := ha.norm.length_lt
    have := hb.norm.length_lt
    simp only [List.length_append, hcolon]
    omega
  simp only [normalizeLimitValue, Option.map_some, Option.getD_some,
    snprintf_of_length_lt hlen, htrim, hdrop, htake, hsecond, if_neg hb.ne_nil,
    ha.normalizeLimitToken_eq (le_refl 128), hb.normalizeLimitToken_eq (le_refl 128),
    snprintf_of_length_lt hfits]
  rfl

theorem normalizeLimitValue_eq {v : CStr} {text meaning : Bytes} (h : LimitText text meaning)
    (hv : v.bytes = text) (hlen : v.bytes.length < 256) :
    normalizeLimitValue (some v) 256 = meaning := by
  cases h with
  | one hlead ha htrail =>
    refine normalizeLimitValue_one hlen ha ?_
    rw [hv]
    exact trim_blanks hlead htrail (by simpa using ha.head []) (by simpa using ha.last [])
  | two hlead ha hsep hb htrail =>
    refine normalizeLimitValue_two hlen ha hsep hb ?_
    rw [hv]
    exact trim_blanks hlead htrail (by rw [List.append_assoc]; exact ha.head _) (hb.last _)

/-- What a text means is a text that means itself, and fits the buffer. -/
theorem LimitText.meaning {text meaning : Bytes} (h : LimitText text meaning) :
    LimitText meaning meaning ∧ meaning.length < 256 := by
  cases h with
  | @one _ a _ _ ha _ =>
    have hone := @LimitText.one [] (normToken a) [] (by simp) ha.norm (by simp)
    rw [normToken_normToken] at hone
    exact ⟨by simpa using hone, lt_of_lt_of_le ha.norm.length_lt (by decide)⟩
  -- the two spellings with a colon between them
  | @two _ a _ b _ _ ha _ hb _ =>
    have htwo := @LimitText.two [] (normToken a) [colon] (normToken b) [] (by simp) ha.norm
      ⟨by simp, by simp⟩ hb.norm (by simp)
    rw [normToken_normToken, normToken_normToken] at htwo
    refine ⟨by simpa using htwo, ?_⟩
    have := ha.norm.length_lt
    have := hb.norm.length_lt
    simp only [List.length_append, List.length_singleton]
    omega

theorem notMem_normToken {t : Bytes} (h : 0 ∉ t) : 0 ∉ normToken t := by
  unfold normToken
  split
  · decide
  · exact h

theorem LimitText.notMem {text meaning : Bytes} (h : LimitText text meaning) (hnul : 0 ∉ text) :
    0 ∉ meaning := by
  cases h with
  | one hlead ha htrail =>
    exact notMem_normToken fun hmem => hnul (by simp [hmem])
  | two hlead ha hsep hb htrail =>
    simp only [List.mem_append, not_or] at hnul ⊢
    exact ⟨⟨notMem_normToken hnul.1.2.1.1, by decide⟩, notMem_normToken hnul.1.2.2⟩

/-- A text made of values that fit is given its meaning, which is then left as it is. -/
theorem normalizeLimitValue_correct {v : CStr} {meaning : Bytes} (h : LimitText v.bytes meaning)
    (hlen : v.bytes.length < 256) :
    normalizeLimitValue (some v) 256 = meaning ∧
      ∃ w : CStr, w.bytes = meaning ∧ normalizeLimitValue (some w) 256 = meaning := by
  obtain ⟨hself, hfits⟩ := h.meaning
  exact ⟨normalizeLimitValue_eq h rfl hlen, ⟨meaning, h.notMem v.noNul⟩, rfl,
    normalizeLimitValue_eq hself rfl hfits⟩

/-- A pair with blanks around the colon. -/
theorem normalizeLimitValue_pair :
    normalizeLimitValue (some (CStr.lit " 1024 : UNLIMITED\t")) 256 = ascii "1024:infinity" := by
  have htext : LimitText (CStr.lit " 1024 : UNLIMITED\t").bytes
      (normToken (ascii "1024") ++ [colon] ++ normToken (ascii "UNLIMITED")) :=
    @LimitText.two (ascii " ") (ascii "1024") (ascii " : ") (ascii "UNLIMITED") (ascii "\t")
      (by decide +kernel) ⟨by decide, by decide, by decide +kernel⟩ ⟨by decide, by decide +kernel⟩
      ⟨by decide, by decide, by decide +kernel⟩ (by decide +kernel)
  exact (normalizeLimitValue_correct htext (by decide)).1

end NeonWrt.Procd
