import NeonWrt.Luci.Archive

/-!
# Lookups in archives

Which archives that `lmo_open` accepts can be searched without a read outside of their
mapping, and when what is returned lies in it. The index may be in any order.

An index without an entry, or one that begins less than four bytes before the end of the
file, makes the first bound of the search huge. The ranges in the entries are returned as
they are.
-/

namespace NeonWrt.Luci

open Lib

/-- A text lies in the memory behind its start. -/
def Answer.Inside : Answer → Prop
  | .error _ => True
  | .text mem len => 0 ≤ len ∧ len ≤ mem.length

/-- All searches end and stay in the mapping, and so do the translations and their texts. -/
structure Archive.Safe (ar : Archive) : Prop where
  find : ∀ hash, lmoFindEntry ar hash ≠ none
  translate : ∀ key ctx, ∃ answer, lmoTranslateCtxt (some [ar]) key ctx = some answer ∧
    answer.Inside

/-- The number of whole entries from the index on, before the offset at the end of the file. -/
def Archive.count (ar : Archive) : ℕ := (ar.mmap.length - ar.index - 4) / 16

/-- The key of an entry as it stands in the file. -/
def Archive.key (ar : Archive) (m : ℕ) : ℕ := Endian.big.getU32 ar.mmap (ar.index + 16 * m)

/-- No entry that a search for the key of an entry meets before it leads to the other side. -/
def Archive.Findable (ar : Archive) (m : ℕ) : Prop :=
  ∀ a ∈ middles m 0 (ar.count - 1), (m < a → ar.key m < ar.key a) ∧ (a < m → ar.key a < ar.key m)

/-- The range of an entry is empty or lies in the mapping, and its length is an `int`. -/
def Archive.InRange (ar : Archive) (m : ℕ) : Prop :=
  let offset := Endian.big.getU32 ar.mmap (ar.index + 16 * m + 8)
  let length := Endian.big.getU32 ar.mmap (ar.index + 16 * m + 12)
  length < 2 ^ 31 ∧ (length = 0 ∨ offset + length ≤ ar.mmap.length)

/-- There is an entry, and the ranges of those that can be found for the hash of a key are in the
mapping. -/
structure Archive.Bounded (ar : Archive) : Prop where
  entry : 0 < ar.count
  ranges : ∀ m < ar.count, ar.Findable m →
    (∃ key ctx, lmoCanonHash key ctx (-1) ≠ 0 ∧ (lmoCanonHash key ctx (-1)).toNat = ar.key m) →
    ar.InRange m

variable {ar : Archive} {w m : ℕ} {file : Bytes} {hash : BitVec 32}

/-- What is known of an archive that was opened. -/
theorem lmoOpen_ok (h : lmoOpen w file = some (some ar)) :
    ar.mmap.length < 2 ^ 32 ∧ ar.index < ar.mmap.length ∧
      ar.length = entryCount w ar.mmap.length ar.index := by
  unfold lmoOpen at h
  dsimp only at h
  have hlen : (file.take (file.length % 4294967296)).length = file.length % 4294967296 :=
    List.length_take_of_le (Nat.mod_le _ _)
  by_cases hzero : file.length % 4294967296 = 0
  · rw [if_pos hzero] at h
    cases h
  rw [if_neg hzero] at h
  by_cases hsmall : file.length % 4294967296 < 4
  · rw [if_pos hsmall] at h
    cases h
  rw [if_neg hsmall] at h
  obtain ⟨idxOffset, -, hidx⟩ := Option.map_eq_some_iff.mp h
  by_cases hle : file.length % 4294967296 ≤ idxOffset.toNat
  · rw [if_pos hle] at hidx
    cases hidx
  rw [if_neg hle] at hidx
  obtain rfl := Option.some.inj hidx
  dsimp only
  rw [hlen]
  exact ⟨Nat.mod_lt _ (by decide), Nat.lt_of_not_le hle, rfl⟩

/-- With the offset behind it, the index has as many entries as the archive says. -/
theorem entryCount_eq_count (hw : 32 ≤ w) (hlen : ar.mmap.length < 2 ^ 32)
    (hroom : ar.index + 4 ≤ ar.mmap.length) :
    entryCount w ar.mmap.length ar.index = ar.count := by
  have hpow : 2 ^ 32 ≤ 2 ^ w := Nat.pow_le_pow_right (by decide) hw
  have hsub : ar.mmap.length - ar.index + (2 ^ w - 4) =
      ar.mmap.length - ar.index - 4 + 2 ^ w := by omega
  have hmod : (ar.mmap.length - ar.index - 4) % 2 ^ w = ar.mmap.length - ar.index - 4 :=
    Nat.mod_eq_of_lt (by omega)
  rw [entryCount, hsub, Nat.add_mod_right, hmod, toInt32, BitVec.toInt_ofNat', Archive.count]
  exact Int.bmod_eq_of_le_mul_two (by omega) (by omega)

theorem readU32_eq_some {b : Bytes} {off : ℕ} (h : off + 4 ≤ b.length) :
    readU32 b off = some (BitVec.ofNat 32 (Endian.big.getU32 b off)) := if_pos h

theorem toNat_ofNat_getU32 (b : Bytes) (off : ℕ) :
    (BitVec.ofNat 32 (Endian.big.getU32 b off)).toNat = Endian.big.getU32 b off := by
  rw [BitVec.toNat_ofNat]
  exact Nat.mod_eq_of_lt (getU32_lt _ _)

theorem Archive.keyId_eq_key (h : m < ar.count) : ar.keyId m = some (ar.key m) := by
  unfold Archive.count at h
  rw [Archive.keyId, readU32_eq_some (by omega), Option.map_some, toNat_ofNat_getU32, Archive.key]

theorem Archive.bound_eq (hlength : ar.length = ar.count) (hlen : ar.mmap.length < 2 ^ 32)
    (hpos : 0 < ar.count) : ((ar.length - 1) % 4294967296).toNat = ar.count - 1 := by
  have hle : ar.count ≤ ar.mmap.length := by
    unfold Archive.count
    omega
  rw [hlength]
  omega

/-- Without an entry the first read of the search is outside of the mapping. -/
theorem lmoFindEntry_eq_none (hw : 32 ≤ w) (h : lmoOpen w file = some (some ar))
    (hzero : ar.count = 0) (hash : BitVec 32) : lmoFindEntry ar hash = none := by
  obtain ⟨hlen, hindex, hlength⟩ := lmoOpen_ok h
  have hfault : ar.keyId (0 + (((ar.length - 1) % 4294967296).toNat - 0) / 2) = none := by
    rw [Archive.keyId, readU32, if_neg ?_, Option.map_none]
    by_cases hroom : ar.index + 4 ≤ ar.mmap.length
    · -- the bound is the largest `unsigned int`
      rw [entryCount_eq_count hw hlen hroom, hzero] at hlength
      rw [hlength]
      omega
    · omega
  rw [lmoFindEntry, binarySearch, if_neg (Nat.not_lt_zero _), hfault]

theorem lmoFindEntry_ne_none (hw : 32 ≤ w) (h : lmoOpen w file = some (some ar))
    (hpos : 0 < ar.count) (hash : BitVec 32) : lmoFindEntry ar hash ≠ none := by
  obtain ⟨hlen, hindex, hlength⟩ := lmoOpen_ok h
  rw [entryCount_eq_count hw hlen (by unfold Archive.count at hpos; omega)] at hlength
  rw [lmoFindEntry, Archive.bound_eq hlength hlen hpos]
  exact binarySearch_ne_none (fun j hj => Archive.keyId_eq_key hj) (by omega)

theorem lmoFindEntry_eq_some_iff (hw : 32 ≤ w) (h : lmoOpen w file = some (some ar))
    (hpos : 0 < ar.count) : lmoFindEntry ar hash = some (some m) ↔
      m < ar.count ∧ ar.key m = hash.toNat ∧ ar.Findable m := by
  obtain ⟨hlen, hindex, hlength⟩ := lmoOpen_ok h
  rw [entryCount_eq_count hw hlen (by unfold Archive.count at hpos; omega)] at hlength
  rw [lmoFindEntry, Archive.bound_eq hlength hlen hpos,
    binarySearch_eq_some_iff (fun j hj => Archive.keyId_eq_key hj) (by omega)]
  constructor
  · rintro ⟨-, hle, hkey, hall⟩
    rw [← hkey] at hall
    exact ⟨by omega, hkey, hall⟩
  · rintro ⟨hlt, hkey, hall⟩
    rw [Archive.Findable, hkey] at hall
    exact ⟨Nat.zero_le _, by omega, hkey, hall⟩

theorem Archive.text_eq (h : m < ar.count) : ar.text m =
    some (ar.mmap.drop (Endian.big.getU32 ar.mmap (ar.index + 16 * m + 8)),
      (BitVec.ofNat 32 (Endian.big.getU32 ar.mmap (ar.index + 16 * m + 12))).toInt) := by
  unfold Archive.count at h
  rw [Archive.text, readU32_eq_some (by omega), readU32_eq_some (by omega), Option.bind_some,
    Option.map_some, toNat_ofNat_getU32]

/-- A text lies in the mapping if the range of its entry does. -/
theorem Archive.inside_text_iff (m : ℕ) :
    Answer.Inside (.text (ar.mmap.drop (Endian.big.getU32 ar.mmap (ar.index + 16 * m + 8)))
      (BitVec.ofNat 32 (Endian.big.getU32 ar.mmap (ar.index + 16 * m + 12))).toInt) ↔
        ar.InRange m := by
  have hlt : Endian.big.getU32 ar.mmap (ar.index + 16 * m + 12) < 2 ^ 32 := getU32_lt _ _
  rw [Answer.Inside, Archive.InRange, BitVec.toInt_eq_toNat_cond, toNat_ofNat_getU32,
    List.length_drop]
  split_ifs <;> omega

/-- The lookup in a catalogue of bounded archives: what is found lies in a mapping. -/
theorem lmoLookup_inside (hw : 32 ≤ w) {key : Bytes} {ctx : Option Bytes}
    (hhash : lmoCanonHash key ctx (-1) ≠ 0) (archives : List Archive)
    (h : ∀ ar ∈ archives, (∃ file, lmoOpen w file = some (some ar)) ∧ ar.Bounded) :
    ∃ found, lmoLookup (lmoCanonHash key ctx (-1)) archives = some found ∧
      ∀ mem len, found = some (mem, len) → Answer.Inside (.text mem len) := by
  induction archives with
  | nil => exact ⟨none, rfl, fun _ _ hfound => by cases hfound⟩
  | cons ar rest ih =>
    obtain ⟨⟨⟨file, hopen⟩, hbounded⟩, hrest⟩ := List.forall_mem_cons.mp h
    rw [lmoLookup]
    cases hfind : lmoFindEntry ar (lmoCanonHash key ctx (-1)) with
    | none => exact absurd hfind (lmoFindEntry_ne_none hw hopen hbounded.entry _)
    | some place =>
      cases place with
      | none => exact ih hrest
      | some m =>
        obtain ⟨hlt, hkey, hfindable⟩ :=
          (lmoFindEntry_eq_some_iff hw hopen hbounded.entry).mp hfind
        have hrange := hbounded.ranges m hlt hfindable ⟨key, ctx, hhash, hkey.symm⟩
        refine ⟨_, congrArg (Option.map some) (Archive.text_eq hlt), fun mem len hfound => ?_⟩
        obtain ⟨rfl, rfl⟩ := Prod.mk.inj (Option.some.inj hfound)
        exact (Archive.inside_text_iff m).mpr hrange

/-- Translations by a catalogue of bounded archives stay in their mappings. -/
theorem lmoTranslateCtxt_inside (hw : 32 ≤ w) (archives : List Archive)
    (h : ∀ ar ∈ archives, (∃ file, lmoOpen w file = some (some ar)) ∧ ar.Bounded)
    (key : Bytes) (ctx : Option Bytes) :
    ∃ answer, lmoTranslateCtxt (some archives) key ctx = some answer ∧ answer.Inside := by
  rw [lmoTranslateCtxt]
  by_cases hhash : lmoCanonHash key ctx (-1) = 0
  · exact ⟨.error (-1), if_pos hhash, trivial⟩
  obtain ⟨found, hlookup, hinside⟩ := lmoLookup_inside hw hhash archives h
  rw [if_neg hhash, hlookup, Option.map_some]
  cases found with
  | none => exact ⟨.error (-1), rfl, trivial⟩
  | some text => exact ⟨.text text.1 text.2, rfl, hinside _ _ rfl⟩

/-- Lookups in an archive that was opened end, stay in its mapping, and give texts in it, if and
only if there is an entry and the ranges that can be found are in the mapping. -/
theorem Archive.lookup_safe_iff (hw : 32 ≤ w) (h : lmoOpen w file = some (some ar)) :
    ar.Safe ↔ ar.Bounded := by
  constructor
  · intro hsafe
    have hpos : 0 < ar.count := by
      by_contra hzero
      exact hsafe.find 0 (lmoFindEntry_eq_none hw h (Nat.eq_zero_of_not_pos hzero) 0)
    refine ⟨hpos, ?_⟩
    rintro m hlt hfindable ⟨key, ctx, hhash, hkey⟩
    obtain ⟨answer, htranslate, hinside⟩ := hsafe.translate key ctx
    have hfind := (lmoFindEntry_eq_some_iff hw h hpos).mpr ⟨hlt, hkey.symm, hfindable⟩
    have hlookup : lmoLookup (lmoCanonHash key ctx (-1)) [ar] = (ar.text m).map some := by
      rw [lmoLookup, hfind]
    rw [lmoTranslateCtxt, if_neg hhash, hlookup, Archive.text_eq hlt] at htranslate
    obtain rfl := Option.some.inj htranslate
    exact (Archive.inside_text_iff m).mp hinside
  · intro hbounded
    refine ⟨lmoFindEntry_ne_none hw h hbounded.entry, fun key ctx => ?_⟩
    exact lmoTranslateCtxt_inside hw [ar]
      (List.forall_mem_singleton.mpr ⟨⟨file, h⟩, hbounded⟩) key ctx

/-- An archive with a text of one byte. -/
def oneText : Archive := ⟨lmoFile [97] [⟨1, 0, 0, 1⟩], 1, 1⟩

theorem safe_oneText : oneText.Safe :=
  (Archive.lookup_safe_iff (Nat.le_refl 32)
    (show lmoOpen 32 (lmoFile [97] [⟨1, 0, 0, 1⟩]) = some (some oneText) by rfl)).mpr
    ⟨by decide, fun m hlt _ _ => by
      obtain rfl : m = 0 := Nat.lt_one_iff.mp hlt
      exact ⟨by decide, .inr (by decide)⟩⟩

/-- A file without any entry is opened, and the first search reads outside of its mapping. -/
theorem not_safe_empty : ¬ ∀ (w : ℕ) (file : Bytes) (ar : Archive), 32 ≤ w →
    lmoOpen w file = some (some ar) → ar.Safe := by
  intro h
  have hopen : lmoOpen 32 [0, 0, 0, 0] = some (some ⟨[0, 0, 0, 0], 0, 0⟩) := rfl
  have hsafe := h 32 [0, 0, 0, 0] _ (Nat.le_refl 32) hopen
  exact hsafe.find 0 (lmoFindEntry_eq_none (Nat.le_refl 32) hopen (by decide) 0)

end NeonWrt.Luci
