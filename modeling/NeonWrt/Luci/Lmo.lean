import NeonWrt.Lib.Blanks
import NeonWrt.Lib.Number

/-!
# Keys of translation catalogues

`lmo.c` finds a translation by a 32-bit hash of the message in canonical form:
blanks at the ends are dropped, runs of blanks are one space, and the context and
the index of a plural form are set off by control characters. The form is built in
a buffer on the stack; a message that overruns it has the hash zero.
-/

namespace NeonWrt.Luci

open Lib

/-- `sfh_get16` -/
def sfhGet16 (d : Bytes) : BitVec 32 :=
  (BitVec.ofNat 32 (d.getD 1 0).toNat <<< 8) + BitVec.ofNat 32 (d.getD 0 0).toNat

/-- `(signed char)c`, promoted. -/
def signedChar (c : UInt8) : BitVec 32 := c.toBitVec.signExtend 32

/-- The main loop of `sfh_hash` over `len` groups of four bytes. -/
def sfhLoop : (len : ℕ) → Bytes → BitVec 32 → BitVec 32
  | 0, _, hash => hash
  | len + 1, data, hash =>
    let hash := hash + sfhGet16 data
    let tmp := (sfhGet16 (data.drop 2) <<< 11) ^^^ hash
    let hash := (hash <<< 16) ^^^ tmp
    sfhLoop len (data.drop 4) (hash + (hash >>> 11))

/-- The end cases of `sfh_hash`. -/
def sfhEnd (data : Bytes) (hash : BitVec 32) : BitVec 32 :=
  match data.length with
  | 3 =>
    let hash := hash + sfhGet16 data
    let hash := hash ^^^ (hash <<< 16)
    let hash := hash ^^^ (signedChar (data.getD 2 0) <<< 18)
    hash + (hash >>> 11)
  | 2 =>
    let hash := hash + sfhGet16 data
    let hash := hash ^^^ (hash <<< 11)
    hash + (hash >>> 17)
  | 1 =>
    let hash := hash + signedChar (data.getD 0 0)
    let hash := hash ^^^ (hash <<< 10)
    hash + (hash >>> 1)
  | _ => hash

/-- The last lines of `sfh_hash`. -/
def sfhAvalanche (hash : BitVec 32) : BitVec 32 :=
  let hash := hash ^^^ (hash <<< 3)
  let hash := hash + (hash >>> 5)
  let hash := hash ^^^ (hash <<< 4)
  let hash := hash + (hash >>> 17)
  let hash := hash ^^^ (hash <<< 25)
  hash + (hash >>> 6)

/-- `sfh_hash(data, len, init)` -/
def sfhHash (data : Bytes) (init : BitVec 32) : BitVec 32 :=
  if data = [] then 0
  else
    let groups := data.length / 4
    sfhAvalanche (sfhEnd (data.drop (4 * groups)) (sfhLoop groups data init))

/-- The copying loops of `lmo_canon_hash` into a buffer of `size` bytes that holds `res`.
The buffer is checked before the byte is looked at, also for a blank that is dropped. -/
def canonLoop (size : ℕ) : (prev : UInt8) → (res : Bytes) → Bytes → Option Bytes
  | _, res, [] => some res
  | prev, res, c :: s =>
    if size ≤ res.length then none
    else if isspace c then canonLoop size c (if isspace prev then res else res ++ [32]) s
    else canonLoop size c (res ++ [c]) s

/-- `if ((ptr > res) && isspace(*(ptr-1))) ptr--;` -/
def dropBlank (res : Bytes) : Bytes :=
  if res.getLast?.any isspace then res.dropLast else res

/-- What `ptr += snprintf(ptr, 3, "\2%d", plural)` adds: the pointer moves by the length
of the whole text, the buffer gets two bytes of it and a NUL. -/
def pluralSuffix (plural : ℤ) : Bytes :=
  let text := 2 :: fmtInt plural
  (text.take 2 ++ [0]).take text.length

/-- The bytes that `lmo_canon_hash` hashes, if they fit its buffer. -/
def lmoCanon (str : Bytes) (ctx : Option Bytes) (plural : ℤ) : Option Bytes :=
  let front := match ctx with
    | none => some []
    | some ctx =>
      (canonLoop 4096 32 [] ctx).bind fun res =>
        if 4096 ≤ (dropBlank res).length then none else some (dropBlank res ++ [1])
  front.bind fun res =>
    (canonLoop 4096 32 res str).bind fun res =>
      let res := dropBlank res
      if -1 < plural then
        if 100 ≤ plural ∨ 4096 ≤ res.length + 3 then none else some (res ++ pluralSuffix plural)
      else some res

/-- `lmo_canon_hash` of a string that is not NULL. -/
def lmoCanonHash (str : Bytes) (ctx : Option Bytes) (plural : ℤ) : BitVec 32 :=
  match lmoCanon str ctx plural with
  | none => 0
  | some res => sfhHash res (BitVec.ofNat 32 res.length)

/-- A text as the catalogue's keys have it. -/
def canon (s : Bytes) : Bytes := squeeze isspace 32 false (trimBy isspace s)

theorem isspace_getLast_canon {s : Bytes} : ∀ c ∈ (canon s).getLast?, isspace c = false := by
  intro c hc
  rw [canon, getLast?_squeeze (getLast_trimBy s)] at hc
  exact getLast_trimBy s c hc

/-- The loop keeps what the buffer holds and squeezes the text behind it. -/
theorem canonLoop_eq {size : ℕ} {prev : UInt8} {res s r : Bytes}
    (h : canonLoop size prev res s = some r) :
    r = res ++ squeeze isspace 32 (isspace prev) s := by
  induction s generalizing prev res with
  | nil =>
    obtain rfl := Option.some.inj h
    simp
  | cons c s ih =>
    obtain ⟨-, h⟩ := Option.ite_none_left_eq_some.mp h
    cases hc : isspace c with
    | true =>
      rw [if_pos hc] at h
      cases hp : isspace prev <;> simp [ih h, hp, hc, squeeze]
    | false =>
      rw [if_neg (by simp [hc])] at h
      simp [ih h, hc, squeeze]

/-- Behind a text that does not end in a blank, the loop and the removal of one trailing
blank leave the canonical form. -/
theorem dropBlank_squeeze {res s : Bytes} (hres : ∀ c ∈ res.getLast?, isspace c = false) :
    dropBlank (res ++ squeeze isspace 32 true s) = res ++ canon s := by
  have hkeep : dropBlank (res ++ canon s) = res ++ canon s := by
    rw [dropBlank, if_neg]
    rw [List.getLast?_append]
    cases hlast : (canon s).getLast? with
    | some c => simp [isspace_getLast_canon c hlast]
    | none =>
      cases hr : res.getLast? with
      | none => simp
      | some c => simp [hres c hr]
  rcases squeeze_true_cases (p := isspace) 32 s with h | ⟨-, h⟩
  · rw [h]
    exact hkeep
  · rw [h, ← canon, ← List.append_assoc, dropBlank, if_pos, List.dropLast_concat]
    rw [List.getLast?_concat]
    rfl

/-- The separator of a context, or nothing. -/
def canonContext (ctx : Option Bytes) : Bytes := ctx.elim [] fun c => canon c ++ [1]

/-- What is hashed when the buffer is large enough. -/
theorem lmoCanon_eq {str : Bytes} {ctx : Option Bytes} {plural : ℤ} {form : Bytes}
    (h : lmoCanon str ctx plural = some form) :
    form = canonContext ctx ++ canon str ++ if -1 < plural then pluralSuffix plural else [] := by
  obtain ⟨front, hfront, h⟩ := Option.bind_eq_some_iff.mp h
  obtain ⟨res, hres, h⟩ := Option.bind_eq_some_iff.mp h
  have hctx : front = canonContext ctx ∧ ∀ c ∈ front.getLast?, isspace c = false := by
    cases ctx with
    | none =>
      obtain rfl := Option.some.inj hfront
      exact ⟨rfl, by simp⟩
    | some ctx =>
      obtain ⟨r, hr, hfront⟩ := Option.bind_eq_some_iff.mp hfront
      obtain ⟨-, hfront⟩ := Option.ite_none_left_eq_some.mp hfront
      obtain rfl := Option.some.inj hfront
      rw [canonLoop_eq hr]
      have hdrop := @dropBlank_squeeze [] ctx (by simp)
      rw [show isspace 32 = true from rfl, hdrop]
      refine ⟨rfl, fun c hc => ?_⟩
      rw [List.getLast?_concat] at hc
      obtain rfl := Option.some.inj hc
      rfl
  obtain ⟨rfl, hlast⟩ := hctx
  obtain rfl := canonLoop_eq hres
  have hdrop := dropBlank_squeeze (s := str) hlast
  simp only [show isspace 32 = true from rfl, hdrop] at h
  split_ifs at h ⊢ with hplural hbig
  · obtain rfl := Option.some.inj h
    rfl
  · obtain rfl := Option.some.inj h
    simp

/-- The buffer leaves room for an index of a plural form. -/
theorem length_lmoCanon {str : Bytes} {ctx : Option Bytes} {plural : ℤ} {form : Bytes}
    (h : lmoCanon str ctx plural = some form) (hplural : -1 < plural) :
    form.length < 4093 + (pluralSuffix plural).length := by
  obtain ⟨front, hfront, h⟩ := Option.bind_eq_some_iff.mp h
  obtain ⟨res, hres, h⟩ := Option.bind_eq_some_iff.mp h
  rw [if_pos hplural] at h
  obtain ⟨hroom, h⟩ := Option.ite_none_left_eq_some.mp h
  obtain rfl := Option.some.inj h
  rw [List.length_append]
  omega

/-- The loop ends when even the longest text it has in the buffer leaves a byte free. -/
theorem canonLoop_of_length {size : ℕ} {prev : UInt8} {res s : Bytes}
    (h : (res ++ squeeze isspace 32 (isspace prev) s).length < size) :
    canonLoop size prev res s = some (res ++ squeeze isspace 32 (isspace prev) s) := by
  have hsome : (canonLoop size prev res s).isSome := by
    induction s generalizing prev res with
    | nil => rfl
    | cons c s ih =>
      have hroom : ¬ size ≤ res.length := by
        rw [List.length_append] at h
        omega
      rw [canonLoop, if_neg hroom]
      cases hc : isspace c with
      | true =>
        rw [if_pos rfl]
        refine ih ?_
        cases hp : isspace prev <;> simpa [squeeze, hc, hp] using h
      | false =>
        rw [if_neg (by decide)]
        refine ih ?_
        simpa [squeeze, hc] using h
  obtain ⟨r, hr⟩ := Option.isSome_iff_exists.mp hsome
  rw [hr, canonLoop_eq hr]

theorem length_squeeze_true_le (s : Bytes) :
    (squeeze isspace 32 true s).length ≤ (canon s).length + 1 := by
  rcases squeeze_true_cases (p := isspace) 32 s with h | ⟨-, h⟩
  · rw [h]
    exact Nat.le_succ _
  · rw [h, List.length_append]
    rfl

/-- Canonical forms of up to 4094 bytes fit, and with an index below 100 those of up to 4092. -/
theorem lmoCanon_isSome {str : Bytes} {ctx : Option Bytes} {plural : ℤ} (hplural : plural < 100)
    (h : (canonContext ctx ++ canon str).length ≤ if -1 < plural then 4092 else 4094) :
    (lmoCanon str ctx plural).isSome := by
  rw [List.length_append] at h
  have hspace : isspace 32 = true := rfl
  have hmax : (if -1 < plural then 4092 else 4094) ≤ 4094 := by split_ifs <;> decide
  have hstr : ∀ res : Bytes, res.length + (canon str).length ≤ 4094 →
      canonLoop 4096 32 res str = some (res ++ squeeze isspace 32 true str) := by
    intro res hres
    have hlen := length_squeeze_true_le str
    exact canonLoop_of_length (by rw [List.length_append, hspace]; omega)
  have htail : ∀ res : Bytes, (∀ c ∈ res.getLast?, isspace c = false) →
      (res.length + (canon str).length ≤ if -1 < plural then 4092 else 4094) →
      ((canonLoop 4096 32 res str).bind fun res =>
        if -1 < plural then
          if 100 ≤ plural ∨ 4096 ≤ (dropBlank res).length + 3 then none
          else some (dropBlank res ++ pluralSuffix plural)
        else some (dropBlank res)).isSome := by
    intro res hlast hres
    rw [hstr res (hres.trans hmax), Option.bind_some, dropBlank_squeeze hlast]
    by_cases hp : -1 < plural
    · rw [if_pos hp] at hres
      have hroom : ¬ (100 ≤ plural ∨ 4096 ≤ (res ++ canon str).length + 3) := by
        rw [List.length_append]
        omega
      rw [if_pos hp, if_neg hroom]
      rfl
    · rw [if_neg hp]
      rfl
  cases ctx with
  | none => exact htail [] (by simp) (by simpa [canonContext] using h)
  | some ctx =>
    have hctx : (canon ctx).length + 1 + (canon str).length ≤
        if -1 < plural then 4092 else 4094 := by
      simpa [canonContext] using h
    have hlen := length_squeeze_true_le ctx
    have hloop : canonLoop 4096 32 [] ctx = some ([] ++ squeeze isspace 32 true ctx) :=
      canonLoop_of_length (by rw [List.length_append, hspace, List.length_nil]; omega)
    have hdrop := @dropBlank_squeeze [] ctx (by simp)
    have hroom : ¬ 4096 ≤ ([] ++ canon ctx).length := by
      rw [List.nil_append]
      omega
    simp only [lmoCanon, hloop, Option.bind_some, hdrop, if_neg hroom]
    refine htail _ (fun c hc => ?_) ?_
    · rw [List.getLast?_concat] at hc
      obtain rfl := Option.some.inj hc
      rfl
    · rw [List.nil_append, List.length_append, List.length_singleton]
      exact hctx

/-- The words of a message. -/
def words (s : Bytes) : List Bytes := wordsBy isspace s

/-- The canonical form is the words with one space between any two. -/
theorem canon_eq_words (s : Bytes) : canon s = [32].intercalate (words s) :=
  squeeze_trimBy_eq_words rfl s

/-- A message and a context in other blanks have the same key, where both have one; and there is a
key for each that leaves two bytes of the buffer free, or four with an index, which is below
100. -/
theorem lmoCanonHash_words :
    (∀ str str' ctx ctx' plural, words str = words str' → ctx.map words = ctx'.map words →
      (lmoCanon str ctx plural).isSome → (lmoCanon str' ctx' plural).isSome →
        lmoCanonHash str ctx plural = lmoCanonHash str' ctx' plural) ∧
    ∀ str ctx plural, plural < 100 →
      ((canonContext ctx ++ canon str).length ≤ if -1 < plural then 4092 else 4094) →
        (lmoCanon str ctx plural).isSome := by
  refine ⟨fun str str' ctx ctx' plural hstr hctx h h' => ?_, fun _ _ _ => lmoCanon_isSome⟩
  obtain ⟨form, hform⟩ := Option.isSome_iff_exists.mp h
  obtain ⟨form', hform'⟩ := Option.isSome_iff_exists.mp h'
  have hcontext : canonContext ctx = canonContext ctx' := by
    cases ctx with
    | none => rw [Option.map_eq_none_iff.mp hctx.symm]
    | some c =>
      obtain ⟨c', rfl, hc⟩ := Option.map_eq_some_iff.mp hctx.symm
      simp only [canonContext, Option.elim_some, canon_eq_words, hc]
  have heq : form = form' := by
    rw [lmoCanon_eq hform, lmoCanon_eq hform', hcontext, canon_eq_words, canon_eq_words, hstr]
  rw [lmoCanonHash, lmoCanonHash, hform, hform', heq]

/-- Two words with other blanks between them, in a context, and with an index. -/
theorem lmoCanonHash_blanks :
    lmoCanonHash (ascii " a  b") (some (ascii "c ")) 1 =
        lmoCanonHash (ascii "a b ") (some (ascii " c")) 1 ∧
      (lmoCanon (ascii "a b") none (-1)).isSome :=
  ⟨lmoCanonHash_words.1 _ _ _ _ 1 (by decide) (by decide) (by decide) (by decide),
    lmoCanonHash_words.2 (ascii "a b") none (-1) (by decide) (by decide)⟩

/-- The loop only ends if there is room for every byte. -/
theorem length_lt_of_canonLoop {size : ℕ} {prev : UInt8} {res s t : Bytes} {c : UInt8}
    (h : (canonLoop size prev res (s ++ c :: t)).isSome) :
    (res ++ squeeze isspace 32 (isspace prev) s).length < size := by
  induction s generalizing prev res with
  | nil =>
    rw [List.nil_append, canonLoop] at h
    split at h
    · cases h
    · rename_i hroom
      simpa using Nat.lt_of_not_le hroom
  | cons d s ih =>
    rw [List.cons_append, canonLoop] at h
    split at h
    · cases h
    · cases hd : isspace d with
      | true =>
        rw [if_pos hd] at h
        cases hprev : isspace prev <;> simpa [squeeze, hd, hprev] using ih h
      | false =>
        rw [if_neg (by simp [hd])] at h
        simpa [squeeze, hd] using ih h

theorem canon_word {word : Bytes} (h : ∀ c ∈ word, isspace c = false) (hne : word ≠ []) :
    canon (word ++ [32, 32]) = word := by
  have hblank : ∀ s : Bytes, wordsBy isspace (s ++ [32]) = wordsBy isspace s := fun s =>
    (wordsBy_append_cons rfl s []).trans (List.append_nil _)
  have hsplit : word ++ [32, 32] = word ++ [32] ++ [32] := by simp
  have hword : wordsBy isspace word = [word] := by
    rw [wordsBy, List.splitOnP_eq_singleton h]
    simpa using hne
  rw [canon_eq_words, words, hsplit, hblank, hblank, hword, List.intercalate_singleton]

/-- A word of 4095 bytes and two blanks have no key. -/
theorem lmoCanon_word {word : Bytes} (h : ∀ c ∈ word, isspace c = false)
    (hlen : word.length = 4095) : lmoCanon (word ++ [32, 32]) none (-1) = none := by
  rw [Option.eq_none_iff_forall_ne_some]
  intro form hform
  obtain ⟨res, hres, -⟩ := Option.bind_eq_some_iff.mp hform
  have hsplit : word ++ [32, 32] = (word ++ [32]) ++ 32 :: [] := by simp
  rw [hsplit] at hres
  have hroom := length_lt_of_canonLoop (Option.isSome_iff_exists.mpr ⟨res, hres⟩)
  rw [squeeze_append, squeeze_of_not h, List.nil_append, List.length_append, hlen] at hroom
  have hlast : afterBlank isspace (isspace 32) word = false := by
    have hne : word ≠ [] := List.ne_nil_of_length_pos (by omega)
    obtain ⟨c, hc⟩ := Option.isSome_iff_exists.mp (List.getLast?_isSome.mpr hne)
    rw [afterBlank, hc, Option.map_some, Option.getD_some, h c (List.mem_of_getLast? hc)]
  rw [hlast] at hroom
  simp [squeeze, show isspace 32 = true from rfl] at hroom

/-- Forms that fit the buffer may have no key: that of 4095 bytes before two blanks, and any with
the index 100. -/
theorem not_lmoCanonHash_fits :
    (canon (List.replicate 4095 97 ++ [32, 32])).length = 4095 ∧
      lmoCanon (List.replicate 4095 97 ++ [32, 32]) none (-1) = none ∧
      canon [97] = [97] ∧ lmoCanon [97] none 100 = none := by
  have hletters : ∀ c ∈ List.replicate 4095 (97 : UInt8), isspace c = false := by
    intro c hc
    rw [List.eq_of_mem_replicate hc]
    rfl
  have hlen : (List.replicate 4095 (97 : UInt8)).length = 4095 := List.length_replicate
  have hne := List.ne_nil_of_length_eq_add_one hlen
  exact ⟨by rw [canon_word hletters hne, hlen], lmoCanon_word hletters hlen, rfl, rfl⟩

end NeonWrt.Luci
