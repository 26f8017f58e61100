import NeonWrt.Lib.Hex
import NeonWrt.Lib.Ucode

/-!
# The keys of a station

`hostapd_ucode_sta_auth` of `ucode.c` asks a script about a station and takes its answer for the
list of keys the station may use. Each string under `psk` is a key in hexadecimal or a passphrase.
Which of the two is decided by the length of the list, not by that of the string: with 64 strings
all are read as keys, otherwise all are copied as passphrases, also one that does not fit the field.
A value that is no string has no characters to count, and counting them reads a null pointer.

The conversion `hexstr2bin` is a parameter. An allocation succeeds.
-/

namespace NeonWrt.Hostapd

open NeonWrt.Lib

/-- Undefined behaviour of the C code. -/
inductive StaFault where
  | nullString
  | passphraseOverflow
  deriving DecidableEq, Repr

/-- `PMK_LEN` -/
def pmkLen : ℕ := 32

/-- An entry of the list. The array for the passphrase has 64 bytes. -/
structure StaPsk where
  isPassphrase : Bool
  psk : Vector UInt8 pmkLen
  passphrase : Buf 64
  deriving DecidableEq

/-- `os_zalloc(sizeof(*p))` -/
def StaPsk.zero : StaPsk where
  isPassphrase := false
  psk := Vector.replicate pmkLen 0
  passphrase := ⟨[], by decide⟩

/-- What the function changes in `struct sta_info`. -/
structure StaInfo where
  psk : List StaPsk
  useStaPsk : Bool

/-- `ucv_string_get`, with null for every value that is no string. -/
def ucvStringGet : UcodeValue → Option Bytes
  | .string s => some (cstr s)
  | _ => none

section Code

variable (hexstr2bin : Bytes → (len : ℕ) → Option (Vector UInt8 len))

/-- The body of the loop: the entry it adds, if it does not `continue`. -/
def readPsk (len : ℕ) (curPsk : UcodeValue) : Except StaFault (Option StaPsk) :=
  match ucvStringGet curPsk with
  | none => .error .nullString
  | some str =>
    if str.length < 8 ∨ 64 < str.length then .ok none
    else if len = 64 then
      match hexstr2bin str pmkLen with
      | none => .ok none
      | some psk => .ok (some { StaPsk.zero with psk := psk })
    else if hfits : str.length < 64 then
      .ok (some { StaPsk.zero with isPassphrase := true, passphrase := ⟨str, hfits⟩ })
    else .error .passphraseOverflow

/-- The loop over the array; `psk` is the list up to `next`. -/
def pskLoop (len : ℕ) : List UcodeValue → List StaPsk → Except StaFault (List StaPsk)
  | [], psk => .ok psk
  | curPsk :: rest, psk => do
    let p ← readPsk hexstr2bin len curPsk
    pskLoop len rest (psk ++ p.toList)

/-- `hostapd_ucode_sta_auth`, with what the script returns to it; `none` if there is no script.
The result is an `int`. -/
def hostapdUcodeStaAuth (answer : Option UcodeValue) (sta : StaInfo) :
    Except StaFault (StaInfo × ℤ) :=
  match answer with
  | none => .ok (sta, 0)
  | some val => do
    let psk ← match val.get (.key (ascii "psk")) with
      | .array items => pskLoop hexstr2bin items.length items []
      | _ => .ok sta.psk
    let useStaPsk := (val.get (.key (ascii "force_psk"))).truthy
    let ret := match val.get (.key (ascii "status")) with
      | .int n => n.bmod (2 ^ 32)
      | _ => 0
    return (⟨psk, useStaPsk⟩, ret)

end Code

/-- A text is a key in hexadecimal. -/
def IsHexKey (t : Bytes) : Prop := t.length = 64 ∧ ∀ c ∈ t, digitVal c < 16

instance (t : Bytes) : Decidable (IsHexKey t) :=
  have : Decidable (∀ c ∈ t, digitVal c < 16) := List.decidableBAll _ t
  inferInstanceAs (Decidable (_ ∧ _))

theorem IsHexKey.length_unhex {t : Bytes} (h : IsHexKey t) : (unhex t).toArray.size = pmkLen := by
  rw [List.size_toArray, Lib.length_unhex, h.1]
  rfl

/-- The entry for a text: a key with 64 digits, or a passphrase of 8 to 63 characters. -/
def keyOfText (t : Bytes) : Option StaPsk :=
  if h : IsHexKey t then
    some { StaPsk.zero with psk := ⟨(unhex t).toArray, h.length_unhex⟩ }
  else if h : 8 ≤ t.length ∧ t.length < 64 then
    some { StaPsk.zero with isPassphrase := true, passphrase := ⟨t, h.2⟩ }
  else none

/-- The entry a value of the array is meant for. -/
def keyOf (v : UcodeValue) : Option StaPsk := (ucvStringGet v).bind keyOfText

/-- What the documentation of `hexstr2bin` says: it converts the digits of `len` bytes, and fails
on a text that has fewer of them. -/
structure HexReader (hexstr2bin : Bytes → (len : ℕ) → Option (Vector UInt8 len)) : Prop where
  reads : ∀ text len v, hexstr2bin text len = some v ↔
    2 * len ≤ text.length ∧ (∀ c ∈ text.take (2 * len), digitVal c < 16) ∧
      v.toList = unhex (text.take (2 * len))

/-- A value that is read as it is meant in an array of `len` values: a string, of 8 to 63 characters
only if `len` is not 64, and of 64 characters only if it is. -/
def ReadAsMeant (len : ℕ) (v : UcodeValue) : Prop :=
  ∃ t, ucvStringGet v = some t ∧
    (len = 64 → ¬(8 ≤ t.length ∧ t.length < 64)) ∧ (len ≠ 64 → t.length ≠ 64)

section Reading

variable {hexstr2bin : Bytes → (len : ℕ) → Option (Vector UInt8 len)} {len : ℕ}

theorem HexReader.eq_none {t : Bytes} (h : HexReader hexstr2bin) (ht : ¬IsHexKey t)
    (hle : t.length ≤ 64) : hexstr2bin t pmkLen = none := by
  cases hread : hexstr2bin t pmkLen with
  | none => rfl
  | some v =>
    obtain ⟨hlen, hdigits, -⟩ := (h.reads t pmkLen v).mp hread
    have h64 : t.length = 64 := le_antisymm hle hlen
    have htake : t.take (2 * pmkLen) = t := List.take_of_length_le hle
    rw [htake] at hdigits
    exact absurd ⟨h64, hdigits⟩ ht

theorem HexReader.eq_some {t : Bytes} (h : HexReader hexstr2bin) (ht : IsHexKey t) :
    hexstr2bin t pmkLen = some ⟨(unhex t).toArray, ht.length_unhex⟩ := by
  have htake : t.take (2 * pmkLen) = t := List.take_of_length_le ht.1.le
  refine (h.reads t pmkLen _).mpr ⟨ht.1.ge, ?_, ?_⟩
  · rw [htake]
    exact ht.2
  · rw [htake]
    rfl

variable (len) in
/-- What one pass does: nothing at all goes wrong, or an entry is missed, or the access is
outside an object. -/
theorem readPsk_cases (h : HexReader hexstr2bin) (v : UcodeValue) :
    (ReadAsMeant len v ∧ readPsk hexstr2bin len v = .ok (keyOf v)) ∨
    (¬ReadAsMeant len v ∧ readPsk hexstr2bin len v = .ok none ∧ (keyOf v).isSome) ∨
    (¬ReadAsMeant len v ∧ ∃ f, readPsk hexstr2bin len v = .error f) := by
  rw [readPsk, keyOf, ReadAsMeant]
  cases hv : ucvStringGet v with
  | none => exact Or.inr (Or.inr ⟨by simp, _, rfl⟩)
  | some t =>
    simp only [Option.some.injEq, exists_eq_left', Option.bind_some]
    by_cases hshort : t.length < 8 ∨ 64 < t.length
    · -- neither a key nor a passphrase
      have hkey : keyOfText t = none := by
        rw [keyOfText, dif_neg (fun h => by have := h.1; omega), dif_neg (by omega)]
      exact Or.inl ⟨by omega, by rw [if_pos hshort, hkey]⟩
    · simp only [hshort, if_false]
      by_cases hlen : len = 64
      · simp only [hlen, if_true]
        by_cases hhex : IsHexKey t
        · have hkey : keyOfText t = some { StaPsk.zero with
              psk := ⟨(unhex t).toArray, hhex.length_unhex⟩ } := by rw [keyOfText, dif_pos hhex]
          refine Or.inl ⟨?_, by rw [h.eq_some hhex, hkey]⟩
          have := hhex.1
          omega
        · rw [h.eq_none hhex (by omega), keyOfText, dif_neg hhex]
          by_cases hpass : 8 ≤ t.length ∧ t.length < 64
          · exact Or.inr (Or.inl ⟨by simp [hpass], rfl, by rw [dif_pos hpass]; rfl⟩)
          · exact Or.inl ⟨by simp [hpass], by rw [dif_neg hpass]⟩
      · simp only [hlen, if_false]
        by_cases hfits : t.length < 64
        · have hhex : ¬IsHexKey t := fun h => by have := h.1; omega
          have hpass : 8 ≤ t.length ∧ t.length < 64 := by omega
          refine Or.inl ⟨⟨fun h => h.elim, fun _ => hfits.ne⟩, ?_⟩
          rw [dif_pos hfits, keyOfText, dif_neg hhex, dif_pos hpass]
        · exact Or.inr (Or.inr ⟨fun h => h.2 hlen (by omega), _, dif_neg hfits⟩)

/-- The list has an entry for each value that is meant for one, and only if each value is read as
meant. -/
theorem pskLoop_eq_iff (h : HexReader hexstr2bin) (items : List UcodeValue) (psk : List StaPsk) :
    pskLoop hexstr2bin len items psk = .ok (psk ++ items.filterMap keyOf) ↔
      ∀ v ∈ items, ReadAsMeant len v := by
  have hbound : ∀ {items psk l}, pskLoop hexstr2bin len items psk = .ok l →
      l.length ≤ psk.length + (items.filterMap keyOf).length := by
    intro items
    induction items with
    | nil =>
      intro psk l hl
      cases hl
      simp
    | cons v items ih =>
      intro psk l hl
      rw [pskLoop] at hl
      rcases readPsk_cases len h v with ⟨-, hread⟩ | ⟨-, hread, hsome⟩ | ⟨-, f, hread⟩
      · rw [hread] at hl
        have := ih hl
        cases hkey : keyOf v with
        | none => simpa [hkey] using this
        | some p =>
          simp only [hkey, Option.toList_some, List.length_append, List.length_cons, List.length_nil,
            List.filterMap_cons_some hkey] at this ⊢
          omega
      · rw [hread] at hl
        obtain ⟨p, hkey⟩ := Option.isSome_iff_exists.mp hsome
        have := ih hl
        simp only [Option.toList_none, List.append_nil, List.filterMap_cons_some hkey,
          List.length_cons] at this ⊢
        omega
      · rw [hread] at hl
        cases hl
  induction items generalizing psk with
  | nil => simp [pskLoop]
  | cons v items ih =>
    rw [List.forall_mem_cons, pskLoop]
    rcases readPsk_cases len h v with ⟨hmeant, hread⟩ | ⟨hmeant, hread, hsome⟩ |
      ⟨hmeant, f, hread⟩
    · have hsplit : psk ++ (v :: items).filterMap keyOf =
          psk ++ (keyOf v).toList ++ items.filterMap keyOf := by
        cases hkey : keyOf v with
        | none => simp [hkey]
        | some p => simp [hkey]
      rw [hread, hsplit]
      simp only [hmeant, true_and]
      exact ih (psk ++ (keyOf v).toList)
    · -- the list stays shorter than it should be
      obtain ⟨p, hkey⟩ := Option.isSome_iff_exists.mp hsome
      refine iff_of_false (fun hl => ?_) fun hall => hmeant hall.1
      rw [hread] at hl
      have := hbound hl
      simp only [Option.toList_none, List.append_nil, List.filterMap_cons_some hkey,
        List.length_append, List.length_cons] at this
      omega
    · refine iff_of_false (fun hl => ?_) fun hall => hmeant hall.1
      rw [hread] at hl
      cases hl

/-- The keys of an answer are taken exactly if each value of the array is read as meant. -/
theorem staAuth_psk_iff (h : HexReader hexstr2bin) {val : UcodeValue} {items : List UcodeValue}
    (hval : val.get (.key (ascii "psk")) = .array items) (sta : StaInfo) :
    (∃ sta' ret, hostapdUcodeStaAuth hexstr2bin (some val) sta = .ok (sta', ret) ∧
        sta'.psk = items.filterMap keyOf) ↔
      ∀ v ∈ items, ReadAsMeant items.length v := by
  rw [← pskLoop_eq_iff h items [], List.nil_append, hostapdUcodeStaAuth]
  simp only [hval]
  cases hloop : pskLoop hexstr2bin items.length items [] with
  | error f =>
    refine iff_of_false ?_ (by simp)
    rintro ⟨sta', ret, heq, -⟩
    cases heq
  | ok l =>
    constructor
    · rintro ⟨sta', ret, heq, hpsk⟩
      cases heq
      rw [← hpsk]
    · intro heq
      cases heq
      exact ⟨_, _, rfl, rfl⟩

end Reading

/-- A conversion that does what the documentation of `hexstr2bin` says. -/
def hexToBin (text : Bytes) (len : ℕ) : Option (Vector UInt8 len) :=
  if h : 2 * len ≤ text.length then
    if (text.take (2 * len)).all fun c => digitVal c < 16 then
      some ⟨(unhex (text.take (2 * len))).toArray, by
        rw [List.size_toArray, length_unhex, List.length_take, min_eq_left h,
          Nat.mul_div_cancel_left len Nat.two_pos]⟩
    else none
  else none

theorem hexReader_hexToBin : HexReader hexToBin where
  reads := by
    intro text len v
    rw [hexToBin]
    split_ifs with hlen hall
    · have hdigits : ∀ c ∈ text.take (2 * len), digitVal c < 16 := by simpa using hall
      rw [Option.some.injEq, ← Vector.toList_inj]
      exact ⟨fun heq => ⟨hlen, hdigits, heq.symm⟩, fun hand => hand.2.2.symm⟩
    · have hdigits : ¬∀ c ∈ text.take (2 * len), digitVal c < 16 := by simpa using hall
      simp [hdigits]
    · simp [hlen]

/-- An answer with one passphrase. -/
theorem staAuth_passphrase :
    (∃ sta' ret, hostapdUcodeStaAuth hexToBin
        (some (.object [(ascii "psk", .array [.string (ascii "passphrase")])])) ⟨[], false⟩ =
          .ok (sta', ret) ∧
        sta'.psk = [UcodeValue.string (ascii "passphrase")].filterMap keyOf) ↔
      ∀ v ∈ [UcodeValue.string (ascii "passphrase")], ReadAsMeant 1 v :=
  staAuth_psk_iff hexReader_hexToBin rfl _

/-- One key in hexadecimal is copied as a passphrase, and does not fit the field. -/
theorem not_staAuth_psk :
    hostapdUcodeStaAuth hexToBin
        (some (.object [(ascii "psk", .array [.string (List.replicate 64 48)])])) ⟨[], false⟩ =
      .error .passphraseOverflow ∧
    keyOf (.string (List.replicate 64 48)) = some StaPsk.zero := by
  refine ⟨rfl, by decide +kernel⟩

end NeonWrt.Hostapd
