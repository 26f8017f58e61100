import Mathlib.Data.List.DropRight
import NeonWrt.Luci.Datatypes

/-!
# The text of IPv6 addresses

The notation of RFC 4291 section 2.2 as a relation between texts and words: eight
groups of one to four hexadecimal digits, `::` for one or more groups of zeros,
and a dotted quad in the place of the last two groups. `parseIPv6` splits a text
at `::` and takes an empty side for a group `0`, which leaves too little room
where `::` stands for a single group at the start or the end.
-/

namespace NeonWrt.Luci.Validation

open Lib

/-- Groups with colons between them. -/
def joinGroups (gs : List JsString) : JsString := [58].intercalate gs

/-- One to four hexadecimal digits. -/
def HexGroup (g : JsString) : Prop := g ≠ [] ∧ g.length ≤ 4 ∧ ∀ c ∈ g, isHexDigit c = true

instance (g : JsString) : Decidable (HexGroup g) :=
  have : Decidable (∀ c ∈ g, isHexDigit c = true) := List.decidableBAll _ g
  inferInstanceAs (Decidable (_ ∧ _ ∧ _))

/-- Four numbers below 256, of one to three digits each, with dots between them. -/
def Quad (q : JsString) (octets : List ℕ) : Prop :=
  ∃ parts : List JsString, parts.length = 4 ∧
    (∀ p ∈ parts, p ≠ [] ∧ p.length ≤ 3 ∧ (∀ c ∈ p, isDigit c = true) ∧ digitsValue 10 p ≤ 255) ∧
    q = [46].intercalate parts ∧ octets = parts.map (digitsValue 10)

/-- The words of groups. -/
def GroupWords (gs : List JsString) (ws : List ℕ) : Prop :=
  (∀ g ∈ gs, HexGroup g) ∧ ws = gs.map (digitsValue 16)

/-- The words of groups that may end in a dotted quad. -/
def TailWords (gs : List JsString) (ws : List ℕ) : Prop :=
  GroupWords gs ws ∨ ∃ hs vs q a b c d, gs = hs ++ [q] ∧ GroupWords hs vs ∧ Quad q [a, b, c, d] ∧
    ws = vs ++ [256 * a + b, 256 * c + d]

/-- The text ends in groups after `front`. -/
def EndsIn (tailWords : List JsString → List ℕ → Prop) (front x : JsString) (ws : List ℕ) : Prop :=
  ∃ gs, tailWords gs ws ∧ x = front ++ joinGroups gs

/-- The forms of an address: eight words, or fewer around a `::` that stands for the rest. -/
def AddressForm (tailWords : List JsString → List ℕ → Prop) (x : JsString) (ws : List ℕ) : Prop :=
  (EndsIn tailWords [] x ws ∧ ws.length = 8) ∨
    ∃ fs fws bws, GroupWords fs fws ∧ EndsIn tailWords (joinGroups fs ++ [58, 58]) x bws ∧
      fws.length + bws.length ≤ 7 ∧
      ws = fws ++ List.replicate (8 - fws.length - bws.length) 0 ++ bws

/-- `::` stands for one group, the first or the last one. -/
def ShortForm (tailWords : List JsString → List ℕ → Prop) (x : JsString) : Prop :=
  (∃ ws, EndsIn tailWords [58, 58] x ws ∧ ws.length = 7) ∨
    ∃ gs ws, GroupWords gs ws ∧ ws.length = 7 ∧ x = joinGroups gs ++ [58, 58]

/-- The text is an IPv6 address with these words. -/
def Ipv6Address : JsString → List ℕ → Prop := AddressForm TailWords

/-- `::` stands for one group at an end of the text. -/
def OneGroupAtEnd : JsString → Prop := ShortForm TailWords

section Groups

variable {g x y q : JsString} {gs fs bs : List JsString} {ws fws bws : List ℕ} {c : UInt16}

theorem hexDigit_ne (h : isHexDigit c = true) : c ≠ 58 ∧ c ≠ 46 := by
  constructor <;> rintro rfl <;> exact absurd h (by decide)

theorem joinGroups_cons (g : JsString) (h : gs ≠ []) :
    joinGroups (g :: gs) = g ++ 58 :: joinGroups gs := by
  rw [joinGroups, List.intercalate_cons_of_ne_nil h, List.append_assoc]
  rfl

theorem joinGroups_singleton (g : JsString) : joinGroups [g] = g := by simp [joinGroups]

/-- What is in front of the last group. -/
def groupsBefore (gs : List JsString) : JsString := if gs = [] then [] else joinGroups gs ++ [58]

theorem joinGroups_append (gs : List JsString) (h : bs ≠ []) :
    joinGroups (gs ++ bs) = groupsBefore gs ++ joinGroups bs := by
  induction gs with
  | nil => rfl
  | cons g gs ih =>
    have hne : gs ++ bs ≠ [] := by simp [h]
    rw [List.cons_append, joinGroups_cons g hne, ih, groupsBefore, groupsBefore,
      if_neg (List.cons_ne_nil g gs)]
    by_cases hgs : gs = []
    · simp [hgs, joinGroups_singleton]
    · simp [hgs, joinGroups_cons g hgs]

theorem splitOn_joinGroups (h : ∀ g ∈ gs, HexGroup g) (hne : gs ≠ []) :
    (joinGroups gs).splitOn 58 = gs :=
  List.splitOn_intercalate 58 (fun g hg hc => (hexDigit_ne ((h g hg).2.2 58 hc)).1 rfl) hne

theorem mem_intercalate {sep : UInt16} (h : c ∈ [sep].intercalate gs) : c = sep ∨ ∃ g ∈ gs, c ∈ g := by
  induction gs with
  | nil => cases h
  | cons g gs ih =>
    by_cases hgs : gs = []
    · rw [hgs, List.intercalate_singleton] at h
      exact Or.inr ⟨g, by simp, h⟩
    · rw [List.intercalate_cons_of_ne_nil hgs, List.append_assoc, List.mem_append,
        List.mem_append] at h
      rcases h with h | h | h
      · exact Or.inr ⟨g, by simp, h⟩
      · exact Or.inl (List.mem_singleton.mp h)
      · rcases ih h with h | ⟨g', hg', h⟩
        · exact Or.inl h
        · exact Or.inr ⟨g', by simp [hg'], h⟩

theorem hexOrColon_joinGroups (h : ∀ g ∈ gs, HexGroup g) (hc : c ∈ joinGroups gs) :
    isHexOrColon c = true := by
  rcases mem_intercalate hc with rfl | ⟨g, hg, hc⟩
  · decide
  · simp [isHexOrColon, (h g hg).2.2 c hc]

theorem joinGroups_ne_nil (h : ∀ g ∈ gs, HexGroup g) (hne : gs ≠ []) : joinGroups gs ≠ [] := by
  intro hnil
  have hsplit := splitOn_joinGroups h hne
  rw [hnil] at hsplit
  obtain rfl : [[]] = gs := hsplit
  exact (h [] (by simp)).1 rfl

theorem head_joinGroups (h : ∀ g ∈ gs, HexGroup g) : ∀ c ∈ (joinGroups gs).head?, c ≠ 58 := by
  intro c hc
  cases gs with
  | nil => cases hc
  | cons g gs =>
    obtain ⟨hne, -, hhex⟩ := h g (by simp)
    obtain ⟨d, g, rfl⟩ := List.exists_cons_of_ne_nil hne
    obtain rfl : d = c := by
      by_cases hgs : gs = []
      · simpa [hgs, joinGroups_singleton] using hc
      · simpa [joinGroups_cons _ hgs] using hc
    exact (hexDigit_ne (hhex d (by simp))).1

end Groups

section Split

variable {x y g : JsString} {gs : List JsString}

theorem splitDouble_ne_nil (x : JsString) : splitDouble x ≠ [] := by
  fun_cases splitDouble x <;> simp

theorem splitDouble_cons {c : UInt16} (h : c ≠ 58 ∨ ∀ d ∈ x.head?, d ≠ 58) :
    splitDouble (c :: x) = (splitDouble x).modifyHead (c :: ·) := by
  have hne := splitDouble_ne_nil x
  rw [splitDouble.eq_3 c x (by
    rintro rest rfl rfl
    simp at h)]
  cases hx : splitDouble x with
  | nil => exact absurd hx hne
  | cons p ps => rfl

theorem splitDouble_append (h : ∀ c ∈ g, c ≠ 58) (x : JsString) :
    splitDouble (g ++ x) = (splitDouble x).modifyHead (g ++ ·) := by
  induction g with
  | nil =>
    rw [List.nil_append]
    cases splitDouble x <;> rfl
  | cons c g ih =>
    rw [List.cons_append, splitDouble_cons (Or.inl (h c (by simp))),
      ih fun d hd => h d (by simp [hd])]
    cases splitDouble x <;> rfl

/-- Groups have no `::` between them, and one that follows ends the first part. -/
theorem splitDouble_joinGroups (h : ∀ g ∈ gs, HexGroup g) (x : JsString) :
    splitDouble (joinGroups gs ++ x) = (splitDouble x).modifyHead (joinGroups gs ++ ·) := by
  induction gs with
  | nil =>
    rw [joinGroups, List.intercalate_nil, List.nil_append]
    cases splitDouble x <;> rfl
  | cons g gs ih =>
    have hg : ∀ c ∈ g, c ≠ 58 := fun c hc => (hexDigit_ne ((h g (by simp)).2.2 c hc)).1
    have hrest : ∀ g ∈ gs, HexGroup g := fun g' hg' => h g' (by simp [hg'])
    by_cases hgs : gs = []
    · rw [hgs, joinGroups_singleton]
      exact splitDouble_append hg x
    · have hhead : ∀ d ∈ (joinGroups gs ++ x).head?, d ≠ 58 := by
        intro d hd
        rw [List.head?_append_of_ne_nil _ (joinGroups_ne_nil hrest hgs)] at hd
        exact head_joinGroups hrest d hd
      rw [joinGroups_cons g hgs, List.append_assoc, List.cons_append, splitDouble_append hg,
        splitDouble_cons (Or.inr hhead), ih hrest]
      cases splitDouble x <;> simp

theorem intercalate_splitDouble (x : JsString) : [58, 58].intercalate (splitDouble x) = x := by
  fun_induction splitDouble x with
  | case1 => rfl
  | case2 rest ih =>
    rw [List.intercalate_cons_of_ne_nil (splitDouble_ne_nil rest), ih]
    rfl
  | case3 c rest hnil hx => exact absurd hx (splitDouble_ne_nil rest)
  | case4 c rest hnil p ps hx ih =>
    rw [hx] at ih
    cases ps with
    | nil =>
      rw [← ih]
      simp
    | cons p' ps =>
      rw [← ih, List.intercalate_cons_of_ne_nil (List.cons_ne_nil p' ps),
        List.intercalate_cons_of_ne_nil (List.cons_ne_nil p' ps)]
      rfl

end Split

section Plain

variable {x y : JsString} {gs fs bs : List JsString} {ws fws bws : List ℕ}

theorem groupWords_of (h : GroupWords gs ws) : groupWords gs = some ws := by
  rw [groupWords, if_pos, h.2]
  rw [List.all_eq_true]
  intro g hg
  obtain ⟨hne, hlen, -⟩ := h.1 g hg
  simp [hne, hlen]

theorem length_groupWords (h : GroupWords gs ws) : gs.length = ws.length := by
  rw [h.2, List.length_map]

/-- One side of a `::`. An empty one is taken for a group of zero. -/
theorem splitOn_orZero (h : GroupWords gs ws) :
    ∃ gs' ws', (orZero (joinGroups gs)).splitOn 58 = gs' ∧ gs' ≠ [] ∧ GroupWords gs' ws' ∧
      ws'.length = max 1 ws.length ∧ ws' = ws ++ List.replicate (max 1 ws.length - ws.length) 0 ∧
      ws' = List.replicate (max 1 ws.length - ws.length) 0 ++ ws := by
  by_cases hgs : gs = []
  · obtain rfl : ws = [] := by rw [h.2, hgs]; rfl
    subst hgs
    exact ⟨[[48]], [0], by decide, by simp, ⟨by decide +kernel, rfl⟩, rfl, rfl, rfl⟩
  · have hpos := List.length_pos_iff.mpr hgs
    rw [length_groupWords h] at hpos
    refine ⟨gs, ws, ?_, hgs, h, by omega, ?_⟩
    · rw [orZero, if_neg (joinGroups_ne_nil h.1 hgs), splitOn_joinGroups h.1 hgs]
    rw [Nat.max_eq_right hpos, Nat.sub_self]
    simp

theorem hexOrColon_all (h : GroupWords gs ws) : (joinGroups gs).all isHexOrColon = true :=
  List.all_eq_true.mpr fun _ => hexOrColon_joinGroups h.1

theorem parseGroups_single (h : GroupWords gs ws) (hgs : gs ≠ []) :
    parseGroups (joinGroups gs) = if ws.length = 8 then some ws else none := by
  have hne := joinGroups_ne_nil h.1 hgs
  have hsplit : splitDouble (joinGroups gs) = [joinGroups gs] := by
    have := splitDouble_joinGroups h.1 []
    rwa [List.append_nil, splitDouble, List.modifyHead_cons, List.append_nil] at this
  have hpass : ¬(joinGroups gs = [] ∨ (!(joinGroups gs).all isHexOrColon) = true) := by
    simp [hne, hexOrColon_all h]
  have hfront : (orZero (joinGroups gs)).splitOn 58 = gs := by
    rw [orZero, if_neg hne, splitOn_joinGroups h.1 hgs]
  rw [parseGroups, if_neg hpass]
  simp only [hsplit, List.length_singleton, List.headD_cons, hfront, length_groupWords h,
    groupWords_of h]
  by_cases hlen : ws.length = 8
  · simp [hlen, groupWords]
  · have : ws.length < 8 ∨ 8 < ws.length := by omega
    simp [hlen, this]

theorem parseGroups_double (hf : GroupWords fs fws) (hb : GroupWords bs bws) :
    parseGroups (joinGroups fs ++ 58 :: 58 :: joinGroups bs) =
      if 7 < max 1 fws.length + max 1 bws.length then none
      else some (fws ++ List.replicate (8 - fws.length - bws.length) 0 ++ bws) := by
  have hsplit : splitDouble (joinGroups fs ++ 58 :: 58 :: joinGroups bs) =
      [joinGroups fs, joinGroups bs] := by
    have hback := splitDouble_joinGroups hb.1 []
    rw [List.append_nil, splitDouble, List.modifyHead_cons, List.append_nil] at hback
    rw [splitDouble_joinGroups hf.1, splitDouble, hback, List.modifyHead_cons, List.append_nil]
  have hpass : ¬(joinGroups fs ++ 58 :: 58 :: joinGroups bs = [] ∨
      (!(joinGroups fs ++ 58 :: 58 :: joinGroups bs).all isHexOrColon) = true) := by
    simp [List.all_append, hexOrColon_all hf, hexOrColon_all hb]
    decide
  obtain ⟨fs', fws', hfs, -, hfw, hflen, hfeq, -⟩ := splitOn_orZero hf
  obtain ⟨bs', bws', hbs, hbne, hbw, hblen, -, hbeq⟩ := splitOn_orZero hb
  rw [parseGroups, if_neg hpass]
  simp only [hsplit, List.length_cons, List.length_nil, List.headD_cons, hfs, hbs,
    length_groupWords hfw, length_groupWords hbw, groupWords_of hfw, groupWords_of hbw,
    Option.bind_some, Option.map_some, hflen, hblen]
  rw [if_neg (by decide)]
  by_cases hfit : 7 < max 1 fws.length + max 1 bws.length
  · simp [hbne, hfit]
  · simp only [ne_eq, hbne, not_false_eq_true, if_true, hfit, if_false]
    have hzeros : (max 1 fws.length - fws.length) + (8 - max 1 fws.length - max 1 bws.length) +
        (max 1 bws.length - bws.length) = 8 - fws.length - bws.length := by omega
    rw [hfeq, hbeq, ← hzeros, List.replicate_add, List.replicate_add]
    simp only [List.append_assoc]

/-- What the parser makes of a text, read backwards. -/
theorem groupWords_eq_some (h : groupWords gs = some ws) (hhex : ∀ g ∈ gs, ∀ c ∈ g, isHexDigit c = true) :
    GroupWords gs ws := by
  obtain ⟨hall, hws⟩ := Option.ite_none_right_eq_some.mp h
  refine ⟨fun g hg => ?_, (Option.some.inj hws).symm⟩
  have hg' := List.all_eq_true.mp hall g hg
  simp only [ne_eq, decide_not, Bool.and_eq_true, Bool.not_eq_eq_eq_not, Bool.not_true,
    decide_eq_false_iff_not, decide_eq_true_eq] at hg'
  exact ⟨hg'.1, hg'.2, hhex g hg⟩

theorem mem_splitOn {g : JsString} {c : UInt16} (hg : g ∈ x.splitOn 58) (hc : c ∈ g) :
    c ∈ x ∧ c ≠ 58 := by
  induction x generalizing g with
  | nil =>
    obtain rfl : g = [] := by simpa using hg
    cases hc
  | cons d x ih =>
    rw [List.splitOn_cons_eq_if_modifyHead] at hg
    split_ifs at hg with hd
    · rcases List.mem_cons.mp hg with rfl | hg
      · cases hc
      · exact ⟨List.mem_cons_of_mem _ (ih hg hc).1, (ih hg hc).2⟩
    · obtain ⟨p, ps, hx⟩ := List.exists_cons_of_ne_nil (List.splitOn_ne_nil 58 x)
      rw [hx, List.modifyHead_cons] at hg
      rcases List.mem_cons.mp hg with rfl | hg
      · rcases List.mem_cons.mp hc with rfl | hc
        · exact ⟨List.mem_cons_self .., by simpa using hd⟩
        · have := ih (g := p) (by rw [hx]; exact List.mem_cons_self ..) hc
          exact ⟨List.mem_cons_of_mem _ this.1, this.2⟩
      · have := ih (by rw [hx]; exact List.mem_cons_of_mem _ hg) hc
        exact ⟨List.mem_cons_of_mem _ this.1, this.2⟩

/-- A part of the text that is read as groups. -/
theorem groups_of_words (hchars : ∀ c ∈ x, isHexOrColon c = true)
    (h : groupWords ((orZero x).splitOn 58) = some ws) :
    ∃ gs ws', GroupWords gs ws' ∧ x = joinGroups gs := by
  by_cases hx : x = []
  · exact ⟨[], [], ⟨by simp, rfl⟩, hx⟩
  · rw [orZero, if_neg hx] at h
    refine ⟨x.splitOn 58, ws, groupWords_eq_some h fun g hg c hc => ?_,
      (List.intercalate_splitOn 58).symm⟩
    obtain ⟨hcx, hne⟩ := mem_splitOn hg hc
    simpa [isHexOrColon, hne] using hchars c hcx

theorem parseGroups_short (h : ShortForm GroupWords x) : parseGroups x = none := by
  have hnil : GroupWords [] [] := ⟨by simp, rfl⟩
  rcases h with ⟨ws, ⟨gs, hgs, rfl⟩, hlen⟩ | ⟨gs, ws, hgs, hlen, rfl⟩
  · have hread := parseGroups_double hnil hgs
    rw [hlen, if_pos (by decide)] at hread
    exact hread
  · have hread := parseGroups_double hgs hnil
    rw [hlen, if_pos (by decide)] at hread
    exact hread

/-- The text of what is read, with one `::` or without. -/
theorem groups_of_parseGroups (h : parseGroups x = some ws) :
    (∃ gs ws', GroupWords gs ws' ∧ gs ≠ [] ∧ x = joinGroups gs) ∨
      ∃ fs fws bs bws, GroupWords fs fws ∧ GroupWords bs bws ∧
        x = joinGroups fs ++ 58 :: 58 :: joinGroups bs := by
  have hparts := intercalate_splitDouble x
  have hne := splitDouble_ne_nil x
  rw [parseGroups] at h
  obtain ⟨hpass, h⟩ := Option.ite_none_left_eq_some.mp h
  rw [not_or, Bool.not_eq_true, Bool.not_eq_false'] at hpass
  obtain ⟨hxne, hall⟩ := hpass
  have hchars : ∀ c ∈ x, isHexOrColon c = true := List.all_eq_true.mp hall
  obtain ⟨hlen, h⟩ := Option.ite_none_left_eq_some.mp h
  obtain ⟨-, h⟩ := Option.ite_none_left_eq_some.mp h
  obtain ⟨front, hfront, h⟩ := Option.bind_eq_some_iff.mp h
  obtain ⟨back, hback, -⟩ := Option.map_eq_some_iff.mp h
  match hsplit : splitDouble x with
  | [] => exact absurd hsplit hne
  | [p] =>
    rw [hsplit] at hparts hfront
    obtain rfl : p = x := by simpa using hparts
    obtain ⟨gs, ws', hgs, hp⟩ := groups_of_words hchars hfront
    refine Or.inl ⟨gs, ws', hgs, ?_, hp⟩
    rintro rfl
    exact hxne hp
  | [p, s] =>
    rw [hsplit] at hparts hfront hback
    obtain rfl : p ++ 58 :: 58 :: s = x := by simpa using hparts
    have hleft : ∀ c ∈ p, isHexOrColon c = true := fun c hc => hchars c (by simp [hc])
    have hright : ∀ c ∈ s, isHexOrColon c = true := fun c hc => hchars c (by simp [hc])
    obtain ⟨fs, fws, hfs, rfl⟩ := groups_of_words hleft hfront
    obtain ⟨bs, bws, hbs, rfl⟩ := groups_of_words hright hback
    exact Or.inr ⟨fs, fws, bs, bws, hfs, hbs, rfl⟩
  | p :: q :: r :: rest =>
    rw [hsplit] at hlen
    simp at hlen

/-- Without dots the parser accepts the notation, but for `::` in the place of one group at an
end. -/
theorem parseGroups_iff : parseGroups x = some ws ↔
    AddressForm GroupWords x ws ∧ ¬ShortForm GroupWords x := by
  constructor
  · intro h
    refine ⟨?_, fun hshort => by rw [parseGroups_short hshort] at h; cases h⟩
    rcases groups_of_parseGroups h with ⟨gs, ws', hgs, hne, rfl⟩ |
      ⟨fs, fws, bs, bws, hfs, hbs, rfl⟩
    · rw [parseGroups_single hgs hne] at h
      obtain ⟨hlen, hws⟩ := Option.ite_none_right_eq_some.mp h
      obtain rfl := Option.some.inj hws
      exact Or.inl ⟨⟨gs, hgs, rfl⟩, hlen⟩
    · rw [parseGroups_double hfs hbs] at h
      obtain ⟨hfit, hws⟩ := Option.ite_none_left_eq_some.mp h
      obtain rfl := Option.some.inj hws
      exact Or.inr ⟨fs, fws, bws, hfs, ⟨bs, hbs, by simp⟩, by omega, rfl⟩
  · rintro ⟨⟨⟨gs, hgs, rfl⟩, hlen⟩ | ⟨fs, fws, bws, hfs, ⟨bs, hbs, rfl⟩, hfit, rfl⟩, hshort⟩
    · have hne : gs ≠ [] := by
        rintro rfl
        rw [hgs.2] at hlen
        cases hlen
      rw [List.nil_append, parseGroups_single hgs hne, if_pos hlen]
    · have hroom : ¬7 < max 1 fws.length + max 1 bws.length := by
        intro hover
        have hends : fws.length = 0 ∧ bws.length = 7 ∨ fws.length = 7 ∧ bws.length = 0 := by omega
        rcases hends with ⟨hf, hb⟩ | ⟨hf, hb⟩
        · obtain rfl : fs = [] := List.length_eq_zero_iff.mp ((length_groupWords hfs).trans hf)
          exact hshort (Or.inl ⟨bws, ⟨bs, hbs, rfl⟩, hb⟩)
        · obtain rfl : bs = [] := List.length_eq_zero_iff.mp ((length_groupWords hbs).trans hb)
          exact hshort (Or.inr ⟨fs, fws, hfs, hf, by simp [joinGroups]⟩)
      have hread := parseGroups_double hfs hbs
      rw [if_neg hroom] at hread
      rw [List.append_assoc]
      exact hread

end Plain

section Quads

variable {q u v6 x y front : JsString} {gs hs : List JsString} {ws vs octets : List ℕ}
  {a b c d n : ℕ}

theorem parseIPv4_iff : parseIPv4 q = some octets ↔ Quad q octets := by
  constructor
  · intro h
    obtain ⟨hquad, h⟩ := Option.ite_none_right_eq_some.mp h
    obtain ⟨hbytes, hoctets⟩ := Option.ite_none_right_eq_some.mp h
    obtain ⟨parts, hdotted, hlen⟩ := (Option.any_eq_true _ _).mp hquad
    obtain ⟨⟨hfour, hdigits⟩, hparts⟩ := Option.ite_none_right_eq_some.mp hdotted
    obtain rfl := Option.some.inj hparts
    refine ⟨q.splitOn 46, hfour, fun p hp => ?_, (List.intercalate_splitOn 46).symm,
      (Option.some.inj hoctets).symm⟩
    have hdig := List.all_eq_true.mp hdigits p hp
    have hle := List.all_eq_true.mp hlen p hp
    have hbyte := List.all_eq_true.mp hbytes _ (List.mem_map_of_mem hp)
    simp only [isDigits, Bool.and_eq_true, decide_eq_true_eq, List.all_eq_true] at hdig hle hbyte
    exact ⟨hdig.1, hle, hdig.2, hbyte⟩
  · rintro ⟨parts, hfour, hparts, rfl, rfl⟩
    have hsplit : ([46].intercalate parts).splitOn 46 = parts := by
      refine List.splitOn_intercalate 46 (fun p hp hc => ?_) ?_
      · exact absurd ((hparts p hp).2.2.1 46 hc) (by decide)
      · rintro rfl
        cases hfour
    have hdotted : dotted ([46].intercalate parts) = some parts := by
      rw [dotted]
      simp only [hsplit]
      refine if_pos ⟨hfour, List.all_eq_true.mpr fun p hp => ?_⟩
      obtain ⟨hne, -, hdigit, -⟩ := hparts p hp
      simpa [isDigits, hne] using hdigit
    have hquad : isQuad ([46].intercalate parts) = true := by
      rw [isQuad, hdotted]
      exact List.all_eq_true.mpr fun p hp => decide_eq_true (hparts p hp).2.1
    rw [parseIPv4, if_pos hquad, hsplit, if_pos]
    rw [List.all_map]
    exact List.all_eq_true.mpr fun p hp => decide_eq_true (hparts p hp).2.2.2

theorem isQuad_of_quad (h : Quad q octets) : isQuad q = true := by
  by_contra hno
  have := parseIPv4_iff.mpr h
  rw [parseIPv4, if_neg hno] at this
  cases this

theorem isQuad_chars (h : isQuad q = true) : 46 ∈ q ∧ 58 ∉ q := by
  obtain ⟨parts, hdotted, -⟩ := (Option.any_eq_true _ _).mp h
  obtain ⟨⟨hfour, hdigits⟩, hparts⟩ := Option.ite_none_right_eq_some.mp hdotted
  obtain rfl := Option.some.inj hparts
  have hq : [46].intercalate (q.splitOn 46) = q := List.intercalate_splitOn 46
  obtain ⟨p, p', ps, hps⟩ : ∃ p p' ps, q.splitOn 46 = p :: p' :: ps := by
    match hsplit : q.splitOn 46, hfour with
    | p :: p' :: ps, _ => exact ⟨p, p', ps, rfl⟩
  constructor
  · rw [← hq, hps, List.intercalate_cons_of_ne_nil (by simp)]
    simp
  · intro hcolon
    rw [← hq] at hcolon
    rcases mem_intercalate hcolon with h | ⟨g, hg, hc⟩
    · exact absurd h (by decide)
    · have hdig := List.all_eq_true.mp hdigits g hg
      simp only [isDigits, Bool.and_eq_true, List.all_eq_true] at hdig
      exact absurd (hdig.2 58 hc) (by decide)

theorem numberToString_spec (k : ℕ) (h : n < 16 ^ (k + 1)) :
    numberToString 16 n ≠ [] ∧ (numberToString 16 n).length ≤ k + 1 ∧
      (∀ c ∈ numberToString 16 n, isHexDigit c = true) ∧
      digitsValue 16 (numberToString 16 n) = n := by
  have hchar : ∀ d < 16, isHexDigit (UInt16.ofNat (Nat.digitChar d).toNat) = true := by decide
  have hsmall : ∀ d < 16, numberToString 16 d = [UInt16.ofNat (Nat.digitChar d).toNat] := fun d hd => by
    rw [numberToString, Nat.toDigits_of_lt_base hd, List.map_singleton]
  have hone : ∀ d < 16, digitsValue 16 [UInt16.ofNat (Nat.digitChar d).toNat] = d := fun d hd => by
    have := digitsValue_concat 16 [] (UInt16.ofNat (Nat.digitChar d).toNat)
    rw [List.nil_append, (digitValue_digitChar d hd).2] at this
    simpa [digitsValue] using this
  induction k generalizing n with
  | zero =>
    rw [hsmall n (by omega)]
    refine ⟨by simp, by simp, ?_, hone n (by omega)⟩
    simpa using hchar n (by omega)
  | succ k ih =>
    by_cases hlt : n < 16
    · rw [hsmall n hlt]
      refine ⟨by simp, by simp, ?_, hone n hlt⟩
      simpa using hchar n hlt
    · have hdiv : n / 16 < 16 ^ (k + 1) := by
        rw [Nat.div_lt_iff_lt_mul (by decide), ← pow_succ]
        exact h
      obtain ⟨-, hlen, hhex, hvalue⟩ := ih hdiv
      have hmod : n % 16 < 16 := Nat.mod_lt n (by decide)
      have hlast : numberToString 16 n = numberToString 16 (n / 16) ++
          [UInt16.ofNat (Nat.digitChar (n % 16)).toNat] := by
        rw [numberToString, Nat.toDigits_of_base_le (by decide) (by omega), List.map_append]
        rfl
      rw [hlast]
      refine ⟨by simp, by simpa using hlen, fun c hc => ?_, ?_⟩
      · rcases List.mem_append.mp hc with hc | hc
        · exact hhex c hc
        · rw [List.mem_singleton.mp hc]
          exact hchar _ hmod
      · rw [digitsValue_concat, hvalue, (digitValue_digitChar _ hmod).2]
        omega

/-- The two words of a quad in hexadecimal digits. -/
def quadGroups (octets : List ℕ) : List JsString :=
  match octets with
  | [a, b, c, d] => [numberToString 16 (256 * a + b), numberToString 16 (256 * c + d)]
  | _ => []

theorem groupWords_quadGroups (h : Quad q [a, b, c, d]) :
    GroupWords (quadGroups [a, b, c, d]) [256 * a + b, 256 * c + d] := by
  obtain ⟨parts, -, hparts, -, hoctets⟩ := h
  have hbyte : ∀ o ∈ [a, b, c, d], o ≤ 255 := by
    intro o ho
    rw [hoctets] at ho
    obtain ⟨p, hp, rfl⟩ := List.mem_map.mp ho
    exact (hparts p hp).2.2.2
  have hone := hbyte a (by simp)
  have htwo := hbyte b (by simp)
  have hthree := hbyte c (by simp)
  have hfour := hbyte d (by simp)
  have hhigh := numberToString_spec (n := 256 * a + b) 3 (by omega)
  have hlow := numberToString_spec (n := 256 * c + d) 3 (by omega)
  refine ⟨?_, by rw [quadGroups, List.map_cons, List.map_singleton, hhigh.2.2.2, hlow.2.2.2]⟩
  intro g hg
  rw [quadGroups, List.mem_cons, List.mem_singleton] at hg
  rcases hg with rfl | rfl
  · exact ⟨hhigh.1, hhigh.2.1, hhigh.2.2.1⟩
  · exact ⟨hlow.1, hlow.2.1, hlow.2.2.1⟩

theorem getLast?_append_concat (l t : JsString) (c : UInt16) :
    (l ++ t.concat c).getLast? = some c := by
  rw [List.concat_eq_append, ← List.append_assoc]
  exact List.getLast?_concat

/-- An empty text, or one that ends in a colon. -/
def Front (u : JsString) : Prop := ∀ c ∈ u.getLast?, c = 58

theorem Front.cases (h : Front u) : u = [] ∨ ∃ v, u = v ++ [58] := by
  rcases List.eq_nil_or_concat u with rfl | ⟨v, c, rfl⟩
  · exact Or.inl rfl
  · obtain rfl : c = 58 := h c (by simp)
    exact Or.inr ⟨v, by simp⟩

theorem front_append (v : JsString) (h : Front u) (hne : u ≠ []) : Front (v ++ u) := by
  intro c hc
  rw [List.getLast?_append_of_ne_nil _ hne] at hc
  exact h c hc

theorem front_groupsBefore (gs : List JsString) : Front (groupsBefore gs) := by
  unfold groupsBefore Front
  split_ifs <;> simp

/-- The last group is what follows the last colon. -/
theorem Front.cancel {u' q' : JsString} (hu : Front u) (hu' : Front u') (hq : 58 ∉ q) (hq' : 58 ∉ q')
    (h : u ++ q = u' ++ q') : u = u' ∧ q = q' := by
  have hlast : ∀ {t v w : JsString}, Front (v ++ t) → 58 ∉ t ++ w → t = [] := by
    intro t v w hfront hno
    rcases List.eq_nil_or_concat t with rfl | ⟨t, c, rfl⟩
    · rfl
    · obtain rfl : c = 58 := hfront c (by simp)
      exact absurd (by simp) hno
  rcases List.append_eq_append_iff.mp h with ⟨t, rfl, rfl⟩ | ⟨t, rfl, rfl⟩
  · obtain rfl := hlast hu' hq
    exact ⟨by simp, rfl⟩
  · obtain rfl := hlast hu hq'
    exact ⟨by simp, rfl⟩

theorem groupWords_append {gs' : List JsString} {ws' : List ℕ} (h : GroupWords gs ws)
    (h' : GroupWords gs' ws') : GroupWords (gs ++ gs') (ws ++ ws') := by
  refine ⟨fun g hg => ?_, by rw [h.2, h'.2, List.map_append]⟩
  rcases List.mem_append.mp hg with hg | hg
  · exact h.1 g hg
  · exact h'.1 g hg

/-- A quad is read like the two groups with the same words. -/
theorem tailWords_quad_iff (hu : Front u) (hq : Quad q [a, b, c, d]) :
    (∃ gs, TailWords gs ws ∧ u ++ q = joinGroups gs) ↔
      ∃ gs, GroupWords gs ws ∧ u ++ joinGroups (quadGroups [a, b, c, d]) = joinGroups gs := by
  obtain ⟨hdot, hcolon⟩ := isQuad_chars (isQuad_of_quad hq)
  have hgroups := groupWords_quadGroups hq
  have hne : quadGroups [a, b, c, d] ≠ [] := by simp [quadGroups]
  constructor
  · rintro ⟨gs, hplain | ⟨hs, vs, q', a', b', c', d', rfl, hhs, hq', rfl⟩, heq⟩
    · have hmem : 46 ∈ joinGroups gs := by
        rw [← heq]
        exact List.mem_append_right _ hdot
      exact absurd (hexOrColon_joinGroups hplain.1 hmem) (by decide)
    · have hcolon' := (isQuad_chars (isQuad_of_quad hq')).2
      rw [joinGroups_append hs (by simp), joinGroups_singleton] at heq
      obtain ⟨rfl, rfl⟩ := hu.cancel (front_groupsBefore hs) hcolon hcolon' heq
      have hsame := (parseIPv4_iff.mpr hq).symm.trans (parseIPv4_iff.mpr hq')
      obtain ⟨rfl, rfl, rfl, rfl⟩ : a = a' ∧ b = b' ∧ c = c' ∧ d = d' := by simpa using hsame
      exact ⟨hs ++ quadGroups [a, b, c, d], groupWords_append hhs hgroups,
        (joinGroups_append hs hne).symm⟩
  · rintro ⟨gs, hgs, heq⟩
    have hgsne : gs ≠ [] := by
      rintro rfl
      have hnil : joinGroups (quadGroups [a, b, c, d]) = [] :=
        (List.append_eq_nil_iff.mp heq).2
      exact joinGroups_ne_nil hgroups.1 hne hnil
    have hsplit := splitOn_joinGroups hgs.1 hgsne
    rw [← heq] at hsplit
    -- the groups before the last two
    obtain ⟨hs, hbefore, rfl⟩ : ∃ hs, u = groupsBefore hs ∧ gs = hs ++ quadGroups [a, b, c, d] := by
      rcases hu.cases with rfl | ⟨v, rfl⟩
      · rw [List.nil_append, splitOn_joinGroups hgroups.1 hne] at hsplit
        exact ⟨[], rfl, hsplit.symm⟩
      · rw [List.append_assoc, List.singleton_append, List.splitOn_append_cons_self,
          splitOn_joinGroups hgroups.1 hne] at hsplit
        refine ⟨v.splitOn 58, ?_, hsplit.symm⟩
        rw [groupsBefore, if_neg (List.splitOn_ne_nil 58 v), joinGroups, List.intercalate_splitOn]
    have hhs : GroupWords hs (hs.map (digitsValue 16)) :=
      ⟨fun g hg => hgs.1 g (List.mem_append_left _ hg), rfl⟩
    refine ⟨hs ++ [q], Or.inr ⟨hs, _, q, a, b, c, d, rfl, hhs, hq, ?_⟩, ?_⟩
    · rw [hgs.2, List.map_append, hgroups.2]
    · rw [joinGroups_append hs (by simp), joinGroups_singleton, hbefore]

/-- What may stand before the last run of groups: nothing, or groups and `::`. -/
def Before (front : JsString) (ws : List ℕ) : Prop :=
  (front = [] ∧ ws.length = 8) ∨ ∃ gs vs, GroupWords gs vs ∧ front = joinGroups gs ++ [58, 58]

theorem Before.chars (h : Before front ws) : ∀ c ∈ front, isHexOrColon c = true := by
  rintro c hc
  rcases h with ⟨rfl, -⟩ | ⟨gs, vs, hgs, rfl⟩
  · cases hc
  · rcases List.mem_append.mp hc with hc | hc
    · exact hexOrColon_joinGroups hgs.1 hc
    · obtain rfl : c = 58 := by simpa using hc
      decide

theorem Before.isFront (h : Before front ws) : Front front := by
  rcases h with ⟨rfl, -⟩ | ⟨gs, vs, -, rfl⟩
  · intro c hc
    cases hc
  · exact front_append _ (by intro c hc; simpa using hc.symm) (by simp)

/-- A text of this shape is what the first match of the parser takes apart. -/
theorem matchMixed_iff {q : JsString} : matchMixed x = some (v6, q) ↔
    x = v6 ++ 58 :: q ∧ v6 ≠ [] ∧ (∀ c ∈ v6, isHexOrColon c = true) ∧ isQuad q = true := by
  have hlast : ∀ v q : JsString, 58 ∉ q → splitLastColon (v ++ 58 :: q) = some (v, q) := by
    intro v q hq
    have htail : (v ++ 58 :: q).rtakeWhile (· ≠ 58) = q := by
      rw [List.rtakeWhile, List.reverse_append, List.reverse_cons, List.append_assoc,
        List.takeWhile_append_of_pos (by intro c hc; simpa using ne_of_mem_of_not_mem (List.mem_reverse.mp hc) hq)]
      simp
    have hfront : (v ++ 58 :: q).rdropWhile (· ≠ 58) = v ++ [58] := by
      rw [List.rdropWhile, List.reverse_append, List.reverse_cons, List.append_assoc,
        List.dropWhile_append_of_pos (by intro c hc; simpa using ne_of_mem_of_not_mem (List.mem_reverse.mp hc) hq)]
      simp
    simp only [splitLastColon, htail, hfront]
    simp
  constructor
  · intro h
    obtain ⟨hsplit, hok⟩ := Option.filter_eq_some_iff.mp h
    simp only [ne_eq, decide_not, Bool.and_eq_true, Bool.not_eq_eq_eq_not, Bool.not_true,
      decide_eq_false_iff_not, List.all_eq_true] at hok
    obtain ⟨⟨hne, hchars⟩, hquad⟩ := hok
    refine ⟨?_, hne, hchars, hquad⟩
    simp only [splitLastColon] at hsplit
    obtain ⟨hfront, heq⟩ := Option.ite_none_left_eq_some.mp hsplit
    obtain ⟨rfl, rfl⟩ := Prod.mk.inj (Option.some.inj heq)
    have hcolon := List.rdropWhile_last_not (p := fun c : UInt16 => decide (c ≠ 58)) x hfront
    have hback := List.rdropWhile_append_rtakeWhile (p := fun c : UInt16 => decide (c ≠ 58)) (l := x)
    have hlast' : (x.rdropWhile (· ≠ 58)).dropLast ++ [58] = x.rdropWhile (· ≠ 58) := by
      have hget := List.dropLast_concat_getLast hfront
      rwa [show (x.rdropWhile (· ≠ 58)).getLast hfront = 58 by simpa using hcolon] at hget
    rw [← List.singleton_append, ← List.append_assoc, hlast']
    exact hback.symm
  · rintro ⟨rfl, hne, hchars, hquad⟩
    rw [matchMixed, hlast v6 q (isQuad_chars hquad).2]
    exact Option.filter_eq_some_iff.mpr ⟨rfl, by simpa [hne, hquad] using hchars⟩

/-- A last run of groups has no quad, or the first match of the parser finds it. -/
theorem plain_or_quad (hbefore : Before front ws) (h : EndsIn TailWords front x ws) :
    EndsIn GroupWords front x ws ∨
      ∃ v6 q a b c d, matchMixed x = some (v6, q) ∧ Quad q [a, b, c, d] := by
  obtain ⟨gs, hplain | ⟨hs, vs, q, a, b, c, d, rfl, hhs, hq, rfl⟩, rfl⟩ := h
  · exact Or.inl ⟨gs, hplain, rfl⟩
  right
  have hfront : Front (front ++ groupsBefore hs) := by
    by_cases hnil : groupsBefore hs = []
    · rw [hnil, List.append_nil]
      exact hbefore.isFront
    · exact front_append _ (front_groupsBefore hs) hnil
  have hlong : 2 ≤ (front ++ groupsBefore hs).length := by
    rcases hbefore with ⟨rfl, hlen⟩ | ⟨gs, vs', -, rfl⟩
    · have hsix : hs.length = 6 := by
        rw [length_groupWords hhs]
        simpa using hlen
      have hne : hs ≠ [] := by
        rintro rfl
        cases hsix
      rw [groupsBefore, if_neg hne]
      have := List.length_pos_iff.mpr (joinGroups_ne_nil hhs.1 hne)
      simp
      omega
    · simp
      omega
  obtain ⟨v6, hv6⟩ : ∃ v, front ++ groupsBefore hs = v ++ [58] := by
    rcases hfront.cases with hnil | hv
    · rw [hnil] at hlong
      simp at hlong
    · exact hv
  have hchars : ∀ c ∈ v6, isHexOrColon c = true := by
    intro c hc
    have hmem : c ∈ front ++ groupsBefore hs := by
      rw [hv6]
      exact List.mem_append_left _ hc
    rcases List.mem_append.mp hmem with hmem | hmem
    · exact hbefore.chars c hmem
    · unfold groupsBefore at hmem
      split_ifs at hmem
      · cases hmem
      · rcases List.mem_append.mp hmem with hmem | hmem
        · exact hexOrColon_joinGroups hhs.1 hmem
        · rw [List.mem_singleton.mp hmem]
          decide
  refine ⟨v6, q, a, b, c, d, matchMixed_iff.mpr ⟨?_, ?_, hchars, isQuad_of_quad hq⟩, hq⟩
  · rw [joinGroups_append hs (by simp), joinGroups_singleton, ← List.append_assoc, hv6]
    simp
  · rintro rfl
    rw [hv6] at hlong
    simp at hlong

variable (v6) in
/-- A quad at the end of a text may be written as two groups. -/
theorem endsIn_quad_iff (hbefore : Before front ws) (hq : Quad q [a, b, c, d]) :
    EndsIn TailWords front (v6 ++ 58 :: q) ws ↔
      EndsIn GroupWords front (v6 ++ 58 :: joinGroups (quadGroups [a, b, c, d])) ws := by
  have hcolon := (isQuad_chars (isQuad_of_quad hq)).2
  have hgroups := groupWords_quadGroups hq
  have hsplit := splitOn_joinGroups hgroups.1 (by simp [quadGroups])
  have hu : ∀ {u}, v6 ++ [58] = front ++ u → Front u := by
    intro u heq c hc
    have hne : u ≠ [] := by
      rintro rfl
      cases hc
    have hlast : (front ++ u).getLast? = some 58 := by rw [← heq]; simp
    rw [List.getLast?_append_of_ne_nil _ hne] at hlast
    rw [hlast] at hc
    exact (Option.some.inj hc).symm
  constructor
  · rintro ⟨gs, hgs, heq⟩
    rw [← List.singleton_append, ← List.append_assoc] at heq
    obtain ⟨u, hv6, hend⟩ : ∃ u, v6 ++ [58] = front ++ u ∧ joinGroups gs = u ++ q := by
      rcases List.append_eq_append_iff.mp heq with ⟨t, ht, hqt⟩ | ⟨t, ht, hgt⟩
      · -- no colon is left in the quad
        have hnil : t = [] := by
          rcases List.eq_nil_or_concat t with rfl | ⟨t, c, rfl⟩
          · rfl
          · obtain rfl : c = 58 := hbefore.isFront c (by rw [ht, getLast?_append_concat]; rfl)
            exact absurd (by rw [hqt]; simp) hcolon
        subst hnil
        exact ⟨[], by rw [ht]; simp, by simpa using hqt.symm⟩
      · exact ⟨t, ht, hgt⟩
    obtain ⟨gs', hgs', htext⟩ := (tailWords_quad_iff (hu hv6) hq).mp ⟨gs, hgs, hend.symm⟩
    refine ⟨gs', hgs', ?_⟩
    rw [← htext, ← List.append_assoc, ← hv6]
    simp
  · rintro ⟨gs, hgs, heq⟩
    rw [← List.singleton_append, ← List.append_assoc] at heq
    obtain ⟨u, hv6, hend⟩ : ∃ u, v6 ++ [58] = front ++ u ∧
        joinGroups gs = u ++ joinGroups (quadGroups [a, b, c, d]) := by
      rcases List.append_eq_append_iff.mp heq with ⟨t, ht, hqt⟩ | ⟨t, ht, hgt⟩
      · rcases List.eq_nil_or_concat t with rfl | ⟨t, e, rfl⟩
        · exact ⟨[], by rw [ht]; simp, by simpa using hqt.symm⟩
        · -- the text before would end in a digit and one colon
          exfalso
          obtain rfl : e = 58 := hbefore.isFront e (by rw [ht, getLast?_append_concat]; rfl)
          rw [List.concat_eq_append, List.append_assoc, List.singleton_append] at hqt
          rw [hqt, List.splitOn_append_cons_self] at hsplit
          have hlen := congrArg List.length hsplit
          rw [List.length_append, show (quadGroups [a, b, c, d]).length = 2 from rfl] at hlen
          have hone := List.length_pos_iff.mpr (List.splitOn_ne_nil 58 t)
          have htwo := List.length_pos_iff.mpr (List.splitOn_ne_nil 58 (joinGroups gs))
          obtain ⟨g, hg⟩ := List.length_eq_one_iff.mp (show (t.splitOn 58).length = 1 by omega)
          have hgt : t = g := by
            have : [58].intercalate (t.splitOn 58) = t := List.intercalate_splitOn 58
            rw [hg] at this
            simpa using this.symm
          have hhex : HexGroup t := by
            refine hgroups.1 t ?_
            rw [← hsplit, hg, hgt]
            simp
          rcases hbefore with ⟨rfl, -⟩ | ⟨gs', vs', -, rfl⟩
          · simp at ht
          · obtain ⟨t, e, rfl⟩ := (List.eq_nil_or_concat t).resolve_left hhex.1
            have hdouble : joinGroups gs' ++ [58, 58] = (joinGroups gs' ++ [58]) ++ [58] := by simp
            rw [hdouble, List.concat_eq_append, ← List.append_assoc] at ht
            have hstem := (List.append_inj' ht rfl).1
            have he : e = 58 := by
              have hlast := congrArg List.getLast? hstem
              rw [getLast?_append_concat, List.getLast?_concat] at hlast
              exact (Option.some.inj hlast).symm
            exact (hexDigit_ne (hhex.2.2 e (by simp))).1 he
      · exact ⟨t, ht, hgt⟩
    obtain ⟨gs', hgs', htext⟩ := (tailWords_quad_iff (hu hv6) hq).mpr ⟨gs, hgs, hend.symm⟩
    refine ⟨gs', hgs', ?_⟩
    rw [← htext, ← List.append_assoc, ← hv6]
    simp

end Quads

section Parser

variable {x v6 q : JsString} {ws : List ℕ} {a b c d : ℕ}

/-- The forms look at the last run of groups only. -/
theorem address_congr (T T' : List JsString → List ℕ → Prop) (x x' : JsString)
    (h : ∀ front ws, Before front ws → (EndsIn T front x ws ↔ EndsIn T' front x' ws))
    (hend : ∀ front, x = front ++ [58, 58] ↔ x' = front ++ [58, 58]) :
    (∀ ws, AddressForm T x ws ↔ AddressForm T' x' ws) ∧ (ShortForm T x ↔ ShortForm T' x') := by
  have hnil : GroupWords [] [] := ⟨by simp, rfl⟩
  constructor
  · intro ws
    refine or_congr ?_ ?_
    · refine and_congr_left fun hlen => h [] ws (Or.inl ⟨rfl, hlen⟩)
    · refine exists_congr fun fs => exists_congr fun fws => exists_congr fun bws =>
        and_congr_right fun hfs => and_congr_left fun _ => ?_
      exact h _ bws (Or.inr ⟨fs, fws, hfs, rfl⟩)
  · refine or_congr (exists_congr fun ws => and_congr_left fun _ => ?_) ?_
    · exact h _ ws (Or.inr ⟨[], [], hnil, rfl⟩)
    · refine exists_congr fun gs => exists_congr fun ws => and_congr_right fun _ =>
        and_congr_right fun _ => hend _

theorem endsIn_plain {front : JsString} (h : EndsIn GroupWords front x ws) :
    EndsIn TailWords front x ws := by
  obtain ⟨gs, hgs, hx⟩ := h
  exact ⟨gs, Or.inl hgs, hx⟩

/-- A text that the first match takes apart has no plain run of groups at its end. -/
theorem not_plain_of_mixed {front : JsString} (hm : matchMixed x = some (v6, q))
    (hbefore : Before front ws) : ¬EndsIn GroupWords front x ws := by
  rintro ⟨gs, hgs, hx⟩
  obtain ⟨rfl, -, -, hquad⟩ := matchMixed_iff.mp hm
  have hmem : 46 ∈ front ++ joinGroups gs := by
    rw [← hx]
    exact List.mem_append_right _ (List.mem_cons_of_mem _ (isQuad_chars hquad).1)
  rcases List.mem_append.mp hmem with hmem | hmem
  · exact absurd (hbefore.chars 46 hmem) (by decide)
  · exact absurd (hexOrColon_joinGroups hgs.1 hmem) (by decide)

theorem not_double_at_end {t : JsString} (hlast : ∀ c ∈ (v6 ++ 58 :: t).getLast?, c ≠ 58)
    (front : JsString) : v6 ++ 58 :: t ≠ front ++ [58, 58] := by
  intro heq
  have : (58 : UInt16) ∈ (v6 ++ 58 :: t).getLast? := by rw [heq]; simp
  exact hlast 58 this rfl

/-- The parser reads the notation, but for `::` in the place of one group at an end. -/
theorem parseIPv6_spec : parseIPv6 x = some ws ↔ Ipv6Address x ws ∧ ¬OneGroupAtEnd x := by
  cases hm : matchMixed x with
  | none =>
    have hplain : ∀ {front ws}, Before front ws → EndsIn TailWords front x ws →
        EndsIn GroupWords front x ws := by
      intro front ws hbefore h
      refine (plain_or_quad hbefore h).resolve_right ?_
      rintro ⟨v6, q, a, b, c, d, hmixed, -⟩
      rw [hm] at hmixed
      cases hmixed
    have hsame := address_congr TailWords GroupWords x x
      (fun front ws hbefore => ⟨hplain hbefore, endsIn_plain⟩) fun _ => Iff.rfl
    rw [parseIPv6, hm, Ipv6Address, OneGroupAtEnd, hsame.1, hsame.2]
    exact parseGroups_iff
  | some mixed =>
    obtain ⟨v6, q⟩ := mixed
    obtain ⟨rfl, hne, hchars, hquad⟩ := matchMixed_iff.mp hm
    cases hv4 : parseIPv4 q with
    | none =>
      have hread : parseIPv6 (v6 ++ 58 :: q) = none := by
        rw [parseIPv6, hm]
        simp only [hv4]
      rw [hread]
      refine ⟨fun h => absurd h (by simp), fun h => ?_⟩
      -- the quad would be one that the parser reads
      have hno : ∀ front ws, Before front ws → ¬EndsIn TailWords front (v6 ++ 58 :: q) ws := by
        intro front ws hbefore hends
        rcases plain_or_quad hbefore hends with hplain | ⟨v6', q', a, b, c, d, hm', hq⟩
        · exact not_plain_of_mixed hm hbefore hplain
        · obtain ⟨rfl, rfl⟩ : v6 = v6' ∧ q = q' := by simpa [hm] using hm'
          rw [parseIPv4_iff.mpr hq] at hv4
          cases hv4
      rcases h.1 with ⟨hends, hlen⟩ | ⟨fs, fws, bws, hfs, hends, -⟩
      · exact absurd hends (hno _ _ (Or.inl ⟨rfl, hlen⟩))
      · exact absurd hends (hno _ _ (Or.inr ⟨fs, fws, hfs, rfl⟩))
    | some octets =>
      have hq := parseIPv4_iff.mp hv4
      obtain ⟨a, b, c, d, rfl⟩ : ∃ a b c d, octets = [a, b, c, d] := by
        obtain ⟨parts, hlen, -, -, rfl⟩ := hq
        obtain ⟨p, r, s, t, rfl⟩ := List.length_eq_four.mp hlen
        exact ⟨_, _, _, _, rfl⟩
      have hgroups := groupWords_quadGroups hq
      have htext : joinGroups (quadGroups [a, b, c, d]) =
          numberToString 16 (256 * a + b) ++ 58 :: numberToString 16 (256 * c + d) := by
        rw [quadGroups, joinGroups_cons _ (by simp), joinGroups_singleton]
      have hlow : HexGroup (numberToString 16 (256 * c + d)) := hgroups.1 _ (by simp [quadGroups])
      obtain ⟨l, e, hlow_eq⟩ := (List.eq_nil_or_concat _).resolve_left hlow.1
      have he : e ≠ 58 := (hexDigit_ne (hlow.2.2 e (by rw [hlow_eq]; simp))).1
      have hqne : q ≠ [] := by
        rintro rfl
        exact absurd (isQuad_chars hquad).1 (by simp)
      have hsame := address_congr _ _ _ _
        (fun front ws hbefore => endsIn_quad_iff v6 hbefore hq) fun front =>
          iff_of_false
            (not_double_at_end (fun c hc => by
              rw [List.getLast?_append_of_ne_nil _ (by simp), List.getLast?_cons_of_ne_nil hqne] at hc
              exact ne_of_mem_of_not_mem (List.mem_of_mem_getLast? hc) (isQuad_chars hquad).2) front)
            (not_double_at_end (fun c hc => by
              rw [htext, hlow_eq, ← List.singleton_append (l := l.concat e), ← List.append_assoc,
                List.getLast?_append_of_ne_nil _ (by simp), List.getLast?_cons_of_ne_nil (by simp),
                getLast?_append_concat] at hc
              obtain rfl : e = c := Option.some.inj hc
              exact he) front)
      rw [parseIPv6, hm, Ipv6Address, OneGroupAtEnd, hsame.1, hsame.2]
      simp only [hv4]
      rw [List.append_assoc, List.cons_append, ← htext]
      exact parseGroups_iff

/-- The texts that are refused are addresses. -/
theorem address_of_oneGroupAtEnd (h : OneGroupAtEnd x) : ∃ ws, Ipv6Address x ws := by
  have hnil : GroupWords [] [] := ⟨by simp, rfl⟩
  rcases h with ⟨ws, hends, hlen⟩ | ⟨gs, ws, hgs, hlen, rfl⟩
  · exact ⟨_, Or.inr ⟨[], [], ws, hnil, hends, by simp [hlen], rfl⟩⟩
  · exact ⟨_, Or.inr ⟨gs, ws, [], hgs, ⟨[], Or.inl hnil, by simp [joinGroups]⟩, by simp [hlen], rfl⟩⟩

/-- `parseIPv6` accepts a text exactly if it is an IPv6 address, with the words of the address,
unless `::` stands for one group at the start or the end. -/
theorem parseIPv6_iff (x : JsString) :
    (∀ ws, parseIPv6 x = some ws ↔ Ipv6Address x ws) ↔ ¬OneGroupAtEnd x := by
  constructor
  · intro h hone
    obtain ⟨ws, hws⟩ := address_of_oneGroupAtEnd hone
    exact (parseIPv6_spec.mp ((h ws).mpr hws)).2 hone
  · intro h ws
    rw [parseIPv6_spec]
    exact ⟨fun hand => hand.1, fun hws => ⟨hws, h⟩⟩

/-- `::2:3:4:5:6:7:8` is an address and not accepted. -/
theorem not_parseIPv6 : parseIPv6 (units "::2:3:4:5:6:7:8") = none ∧
    Ipv6Address (units "::2:3:4:5:6:7:8") [0, 2, 3, 4, 5, 6, 7, 8] := by
  refine ⟨by decide +kernel, Or.inr ⟨[], [], [2, 3, 4, 5, 6, 7, 8], ⟨by simp, rfl⟩, ?_, by decide, rfl⟩⟩
  refine ⟨[[50], [51], [52], [53], [54], [55], [56]], Or.inl ⟨by decide, by decide +kernel⟩, by decide⟩

end Parser

end NeonWrt.Luci.Validation
