import NeonWrt.Lib.JsNumber
import NeonWrt.Luci.Lmo

/-!
# Translation keys in the browser

The browser gets the catalogue as a table under hexadecimal keys and computes the
keys itself, so `cbi.js` repeats the canonical form and the hash of `lmo.c` on
strings of UTF-16 units. The hash agrees on every text. The canonical forms agree
on texts whose inner blanks are spaces, tabs and newlines and which have no other
white space at their ends.
-/

namespace NeonWrt.Luci

open Lib

namespace Cbi

/-- The bytes that `sfh` pushes for one code point. -/
def codeBytes (ch : ℕ) : Bytes :=
  if ch ≤ 0x7F then [UInt8.ofNat ch]
  else if ch ≤ 0x7FF then
    [UInt8.ofNat ((ch >>> 6) &&& 0x1F ||| 0xC0), UInt8.ofNat (ch &&& 0x3F ||| 0x80)]
  else if ch ≤ 0xFFFF then
    [UInt8.ofNat ((ch >>> 12) &&& 0x0F ||| 0xE0), UInt8.ofNat ((ch >>> 6) &&& 0x3F ||| 0x80),
      UInt8.ofNat (ch &&& 0x3F ||| 0x80)]
  else if ch ≤ 0x10FFFF then
    [UInt8.ofNat ((ch >>> 18) &&& 0x07 ||| 0xF0), UInt8.ofNat ((ch >>> 12) &&& 0x3F ||| 0x80),
      UInt8.ofNat ((ch >>> 6) &&& 0x3F ||| 0x80), UInt8.ofNat (ch &&& 0x3F ||| 0x80)]
  else []

/-- The first loop of `sfh`: surrogate pairs are joined, lone surrogates stay. -/
def sfhBytes : JsString → Bytes
  | [] => []
  | [ch] => codeBytes ch.toNat
  | ch :: next :: s =>
    if (0xD800 ≤ ch ∧ ch ≤ 0xDBFF) ∧ 0xDC00 ≤ next ∧ next ≤ 0xDFFF then
      codeBytes (0x10000 + ((ch.toNat - 0xD800) <<< 10) + (next.toNat - 0xDC00)) ++ sfhBytes s
    else codeBytes ch.toNat ++ sfhBytes (next :: s)

/-- `s8` -/
def s8 (bytes : Bytes) (off : ℕ) : ℤ :=
  let n := (bytes.getD off 0).toNat
  if 0x7F < n then ushr (n - 256) 0 else n

/-- `u16` -/
def u16 (bytes : Bytes) (off : ℕ) : ℤ :=
  ushr (shl (bytes.getD (off + 1) 0).toNat 8 + (bytes.getD off 0).toNat) 0

/-- The main loop of `sfh`. -/
def sfhLoop (bytes : Bytes) : (len : ℕ) → (off : ℕ) → ℤ → ℤ
  | 0, _, hash => hash
  | len + 1, off, hash =>
    let hash := hash + u16 bytes off
    let tmp := ushr (xor (shl (u16 bytes (off + 2)) 11) hash) 0
    let hash := ushr (xor (shl hash 16) tmp) 0
    sfhLoop bytes len (off + 4) (hash + ushr hash 11)

/-- The `switch` of `sfh`. -/
def sfhEnd (bytes : Bytes) (off : ℕ) (hash : ℤ) : ℤ :=
  match bytes.length % 4 with
  | 3 =>
    let hash := hash + u16 bytes off
    let hash := ushr (xor hash (shl hash 16)) 0
    let hash := ushr (xor hash (shl (s8 bytes (off + 2)) 18)) 0
    hash + ushr hash 11
  | 2 =>
    let hash := hash + u16 bytes off
    let hash := ushr (xor hash (shl hash 11)) 0
    hash + ushr hash 17
  | 1 =>
    let hash := hash + s8 bytes off
    let hash := ushr (xor hash (shl hash 10)) 0
    hash + ushr hash 1
  | _ => hash

/-- The last steps of `sfh`. -/
def sfhAvalanche (hash : ℤ) : ℤ :=
  let hash := ushr (xor hash (shl hash 3)) 0
  let hash := hash + ushr hash 5
  let hash := ushr (xor hash (shl hash 4)) 0
  let hash := hash + ushr hash 17
  let hash := ushr (xor hash (shl hash 25)) 0
  hash + ushr hash 6

/-- `sfh`, with `none` for `null`. -/
def sfh (s : JsString) : Option JsString :=
  let bytes := sfhBytes s
  if s = [] ∨ bytes = [] then none
  else
    let len := bytes.length / 4
    let hash := sfhAvalanche (sfhEnd bytes (4 * len) (sfhLoop bytes len 0 bytes.length))
    some (numberToString 16 (0x100000000 + hash).toNat).tail

/-- The class `[ \t\n]` of `trimws`. -/
def trimwsSpace (c : UInt16) : Bool := c == 32 || c == 9 || c == 10

/-- `trimws` -/
def trimws (s : JsString) : JsString := squeeze trimwsSpace 32 false (trimBy jsSpace s)

/-- The string that `_` hashes. -/
def key (s : JsString) (c : Option JsString) : JsString :=
  (c.elim [] fun c => trimws c ++ [1]) ++ trimws s

/-- The string that `N_` hashes for the plural form `i`. -/
def pluralKey (i : ℕ) (s : JsString) (c : Option JsString) : JsString :=
  key s c ++ [2] ++ numberToString 10 i

theorem getD_drop (bytes : Bytes) (off k : ℕ) :
    (bytes.drop off).getD k 0 = bytes.getD (off + k) 0 := by
  rw [List.getD_eq_getElem?_getD, List.getElem?_drop, ← List.getD_eq_getElem?_getD]

theorem word_u16 (bytes : Bytes) (off : ℕ) :
    word (u16 bytes off) = sfhGet16 (bytes.drop off) := by
  simp only [u16, sfhGet16, getD_drop, word_ushr, word_add, word_shl, word_natCast,
    BitVec.ushiftRight_zero, Nat.add_zero]

theorem word_s8 (bytes : Bytes) (off : ℕ) :
    word (s8 bytes off) = signedChar ((bytes.drop off).getD 0 0) := by
  have hhead : (bytes.drop off).getD 0 0 = bytes.getD off 0 := by rw [getD_drop, Nat.add_zero]
  have hlt := (bytes.getD off 0).toNat_lt
  rw [hhead, s8, signedChar, BitVec.signExtend, BitVec.toInt_eq_toNat_cond]
  change _ = BitVec.ofInt 32 (if 2 * (bytes.getD off 0).toNat < 2 ^ 8 then
    ((bytes.getD off 0).toNat : ℤ) else ((bytes.getD off 0).toNat : ℤ) - ((2 ^ 8 : ℕ) : ℤ))
  by_cases hsign : 0x7F < (bytes.getD off 0).toNat
  · rw [if_pos hsign, if_neg (by omega), word_ushr, BitVec.ushiftRight_zero]
    rfl
  · rw [if_neg hsign, if_pos (by omega)]
    rfl

theorem word_sfhLoop (bytes : Bytes) (len off : ℕ) (hash : ℤ) :
    word (sfhLoop bytes len off hash) = Luci.sfhLoop len (bytes.drop off) (word hash) := by
  induction len generalizing off hash with
  | zero => rfl
  | succ len ih =>
    rw [sfhLoop, ih, Luci.sfhLoop]
    simp only [word_add, word_ushr, word_xor, word_shl, word_u16, List.drop_drop,
      BitVec.ushiftRight_zero]

theorem word_sfhEnd (bytes : Bytes) (hash : ℤ) :
    word (sfhEnd bytes (4 * (bytes.length / 4)) hash)
      = Luci.sfhEnd (bytes.drop (4 * (bytes.length / 4))) (word hash) := by
  have hlen : (bytes.drop (4 * (bytes.length / 4))).length = bytes.length % 4 := by
    rw [List.length_drop]
    omega
  rw [sfhEnd, Luci.sfhEnd, hlen]
  have hrem : bytes.length % 4 = 0 ∨ bytes.length % 4 = 1 ∨ bytes.length % 4 = 2 ∨
      bytes.length % 4 = 3 := by omega
  rcases hrem with h | h | h | h <;>
    simp only [h, word_add, word_ushr, word_xor, word_shl, word_u16, word_s8,
      BitVec.ushiftRight_zero, getD_drop, Nat.add_zero]

theorem word_sfhAvalanche (hash : ℤ) :
    word (sfhAvalanche hash) = Luci.sfhAvalanche (word hash) := by
  simp only [sfhAvalanche, Luci.sfhAvalanche, word_add, word_ushr, word_xor, word_shl,
    BitVec.ushiftRight_zero]

/-- The number that is printed is below `3 * 2 ^ 32` and has nine digits, of which the first
is cut off. -/
theorem tail_numberToString {hash : ℤ} (hlo : 0 ≤ hash) (hhi : hash < 2 ^ 33) :
    (numberToString 16 (0x100000000 + hash).toNat).tail = hexDigits 8 (word hash).toNat := by
  obtain ⟨n, rfl⟩ := Int.eq_ofNat_of_zero_le hlo
  have hn : n < 2 ^ 33 := by omega
  have hnat : (0x100000000 + (n : ℤ)).toNat = 16 ^ 8 + n := by omega
  have hword : (word n).toNat = (16 ^ 8 + n) % 16 ^ 8 := by
    rw [word_natCast, BitVec.toNat_ofNat, Nat.add_mod_left]
    rfl
  rw [hnat, hword, hexDigits_mod, numberToString_hex 8 _ (Nat.le_add_right ..)]
  -- the first digit is a one or a two
  have hfirst : (16 ^ 8 + n) / 16 ^ 8 = 1 ∨ (16 ^ 8 + n) / 16 ^ 8 = 2 := by omega
  rcases hfirst with h | h <;> rw [h] <;> rfl

theorem sfhAvalanche_bounds (hash : ℤ) : 0 ≤ sfhAvalanche hash ∧ sfhAvalanche hash < 2 ^ 33 := by
  obtain ⟨x, hx⟩ : ∃ x : ℤ, sfhAvalanche hash = ushr x 0 + ushr (ushr x 0) 6 := ⟨_, rfl⟩
  have h₀ := ushr_nonneg x 0
  have h₁ := ushr_nonneg (ushr x 0) 6
  have h₂ := ushr_lt x 0
  have h₃ := ushr_lt (ushr x 0) 6
  omega

/-- The browser's hash of a string is the hash of its bytes. -/
theorem sfh_eq {s : JsString} (h : sfhBytes s ≠ []) :
    sfh s = some (hexDigits 8
      (sfhHash (sfhBytes s) (BitVec.ofNat 32 (sfhBytes s).length)).toNat) := by
  have hs : s ≠ [] := by
    rintro rfl
    exact h rfl
  obtain ⟨hlo, hhi⟩ := sfhAvalanche_bounds (sfhEnd (sfhBytes s) (4 * ((sfhBytes s).length / 4))
    (sfhLoop (sfhBytes s) ((sfhBytes s).length / 4) 0 (sfhBytes s).length))
  simp only [sfh, hs, h, or_self, if_false]
  rw [tail_numberToString hlo hhi, word_sfhAvalanche, word_sfhEnd, word_sfhLoop, List.drop_zero,
    word_natCast, sfhHash, if_neg h]

theorem or_eq_add {a b i : ℕ} (h : b < 2 ^ i) : b ||| a * 2 ^ i = b + a * 2 ^ i := by
  rw [Nat.or_comm, Nat.add_comm, ← Nat.shiftLeft_eq, Nat.shiftLeft_add_eq_or_of_lt h]

/-- A byte of a UTF-8 sequence: the lead bits are added to the bits of the code point. -/
theorem codeByte (v k w lead : ℕ) (i : ℕ) (hw : w ≤ i) :
    (v >>> k) &&& (2 ^ w - 1) ||| lead * 2 ^ i = v / 2 ^ k % 2 ^ w + lead * 2 ^ i := by
  rw [Nat.and_two_pow_sub_one_eq_mod, Nat.shiftRight_eq_div_pow]
  refine or_eq_add ((Nat.mod_lt _ (Nat.pow_pos (by decide))).trans_le ?_)
  exact Nat.pow_le_pow_right (by decide) hw

theorem codeBytes_toNat (c : Char) : codeBytes c.toNat = String.utf8EncodeChar c := by
  have hcont : ∀ v k : ℕ, (v >>> k) &&& 0x3F ||| 0x80 = v / 2 ^ k % 0x40 + 0x80 := fun v k =>
    codeByte v k 6 2 6 le_rfl
  have hlow : ∀ v : ℕ, v &&& 0x3F ||| 0x80 = v % 0x40 + 0x80 := fun v => by
    have := hcont v 0
    simpa using this
  have h₂ : ∀ v : ℕ, (v >>> 6) &&& 0x1F ||| 0xC0 = v / 64 % 0x20 + 0xC0 := fun v =>
    codeByte v 6 5 3 6 (by decide)
  have h₃ : ∀ v : ℕ, (v >>> 12) &&& 0x0F ||| 0xE0 = v / 4096 % 0x10 + 0xE0 := fun v =>
    codeByte v 12 4 14 4 le_rfl
  have h₄ : ∀ v : ℕ, (v >>> 18) &&& 0x07 ||| 0xF0 = v / 262144 % 0x08 + 0xF0 := fun v =>
    codeByte v 18 3 30 3 le_rfl
  have hmax : c.toNat ≤ 0x10FFFF := by
    rcases c.valid with h | h
    · exact le_trans (Nat.le_of_lt h) (by decide)
    · exact Nat.le_of_lt_succ h.2
  have hval : c.val.toNat = c.toNat := rfl
  simp only [codeBytes, String.utf8EncodeChar, hcont, hlow, h₂, h₃, h₄, hmax, if_true, hval]
  rfl

theorem toNat_surrogates {c : Char} (hc : ¬ c.toNat < 0x10000) :
    (UInt16.ofNat (0xD800 + (c.toNat - 0x10000) / 0x400)).toNat
        = 0xD800 + (c.toNat - 0x10000) / 0x400 ∧
      (UInt16.ofNat (0xDC00 + (c.toNat - 0x10000) % 0x400)).toNat
        = 0xDC00 + (c.toNat - 0x10000) % 0x400 := by
  have hvalid : c.toNat < 0xD800 ∨ 0xDFFF < c.toNat ∧ c.toNat < 0x110000 := c.valid
  constructor <;> refine UInt16.toNat_ofNat_of_lt ?_ <;> show _ < 65536 <;> omega

theorem utf16Char_cases (c : Char) :
    (∃ u, utf16Char c = [u] ∧ u.toNat = c.toNat ∧ ¬ (0xD800 ≤ u ∧ u ≤ 0xDBFF)) ∨
      ∃ u v, utf16Char c = [u, v] ∧ ((0xD800 ≤ u ∧ u ≤ 0xDBFF) ∧ 0xDC00 ≤ v ∧ v ≤ 0xDFFF) ∧
        0x10000 + ((u.toNat - 0xD800) <<< 10) + (v.toNat - 0xDC00) = c.toNat := by
  have hvalid : c.toNat < 0xD800 ∨ 0xDFFF < c.toNat ∧ c.toNat < 0x110000 := c.valid
  by_cases hsmall : c.toNat < 0x10000
  · have hu : (UInt16.ofNat c.toNat).toNat = c.toNat := UInt16.toNat_ofNat_of_lt hsmall
    refine Or.inl ⟨UInt16.ofNat c.toNat, if_pos hsmall, hu, ?_⟩
    simp only [UInt16.le_iff_toNat_le, hu, UInt16.reduceToNat]
    omega
  · -- the twenty bits above the first plane, ten in each surrogate
    obtain ⟨hu, hv⟩ := toNat_surrogates hsmall
    refine Or.inr ⟨_, _, if_neg hsmall, ?_, ?_⟩
    · simp only [UInt16.le_iff_toNat_le, hu, hv, UInt16.reduceToNat]
      omega
    · rw [hu, hv, Nat.shiftLeft_eq]
      omega

/-- Texts of Unicode characters reach the hash in UTF-8. -/
theorem sfhBytes_utf16 (s : List Char) : sfhBytes (utf16 s) = utf8 s := by
  induction s with
  | nil => rfl
  | cons c s ih =>
    rw [utf16, utf8, List.flatMap_cons, List.flatMap_cons, ← utf16, ← utf8, ← ih,
      ← codeBytes_toNat]
    rcases utf16Char_cases c with ⟨u, hu, hcode, hsingle⟩ | ⟨u, v, huv, hpair, hcode⟩
    · rw [hu, List.singleton_append, ← hcode]
      cases utf16 s with
      | nil => simp [sfhBytes]
      | cons next s => rw [sfhBytes, if_neg fun h => hsingle h.1]
    · rw [huv, List.cons_append, List.singleton_append, sfhBytes, if_pos hpair, hcode]

end Cbi

/-- The blanks of `isspace`, as characters. -/
def cSpace (c : Char) : Bool := c.toNat == 32 || (9 ≤ c.toNat && c.toNat ≤ 13)

/-- The blanks that `trimws` squeezes. -/
def plainSpace (c : Char) : Bool := c.toNat == 32 || c.toNat == 9 || c.toNat == 10

/-- The white space that `trimws` drops at the ends. -/
def uniSpace (c : Char) : Bool := c.toNat < 0x10000 && jsSpace (UInt16.ofNat c.toNat)

/-- Trimmed of blanks, the text has no other blanks inside than spaces, tabs and newlines,
and no other white space at its ends. -/
def PlainBlanks (s : List Char) : Prop :=
  (∀ c ∈ trimBy cSpace s, cSpace c = true → plainSpace c = true) ∧
    (∀ c ∈ (trimBy cSpace s).head?, uniSpace c = false) ∧
    ∀ c ∈ (trimBy cSpace s).getLast?, uniSpace c = false

/-- The canonical form as text. -/
def form (s : List Char) : List Char := squeeze cSpace (Char.ofNat 32) false (trimBy cSpace s)

theorem cSpace_of_plainSpace {c : Char} (h : plainSpace c = true) : cSpace c = true := by
  simp only [plainSpace, cSpace, Bool.or_eq_true, beq_iff_eq, Bool.and_eq_true,
    decide_eq_true_eq] at h ⊢
  omega

theorem uniSpace_of_cSpace {c : Char} (h : cSpace c = true) : uniSpace c = true := by
  have hsmall : c.toNat < 0x10000 := by
    simp only [cSpace, Bool.or_eq_true, beq_iff_eq, Bool.and_eq_true, decide_eq_true_eq] at h
    omega
  have hu : (UInt16.ofNat c.toNat).toNat = c.toNat := UInt16.toNat_ofNat_of_lt hsmall
  simp only [cSpace, uniSpace, jsSpace, Bool.or_eq_true, beq_iff_eq, Bool.and_eq_true,
    decide_eq_true_eq, UInt16.le_iff_toNat_le, ← UInt16.toNat_inj, hu, UInt16.reduceToNat] at h ⊢
  omega

/-- The browser's form is the catalogue's form on exactly these texts. -/
theorem forms_eq_iff (s : List Char) :
    squeeze plainSpace (Char.ofNat 32) false (trimBy uniSpace s) = form s ↔ PlainBlanks s :=
  squeeze_trimBy_eq_iff (fun _ => cSpace_of_plainSpace) (fun _ => uniSpace_of_cSpace) rfl s

theorem toNat_of_small {c : Char} (h : c.toNat < 0x10000) :
    utf16Char c = [UInt16.ofNat c.toNat] ∧ (UInt16.ofNat c.toNat).toNat = c.toNat :=
  ⟨if_pos h, UInt16.toNat_ofNat_of_lt h⟩

theorem toNat_of_mem_utf16Char {c : Char} {u : UInt16} (hc : ¬ c.toNat < 0x10000)
    (hu : u ∈ utf16Char c) : 0xD800 ≤ u.toNat ∧ u.toNat ≤ 0xDFFF := by
  have hvalid : c.toNat < 0xD800 ∨ 0xDFFF < c.toNat ∧ c.toNat < 0x110000 := c.valid
  rw [utf16Char, if_neg hc] at hu
  obtain ⟨hhigh, hlow⟩ := Cbi.toNat_surrogates hc
  rcases List.mem_pair.mp hu with rfl | rfl <;> omega

theorem utf16Char_ne_nil (c : Char) : utf16Char c ≠ [] := by
  unfold utf16Char
  split_ifs <;> simp

theorem encodes_uniSpace : Encodes utf16Char uniSpace jsSpace where
  blank c hc := by
    obtain ⟨hsmall, hspace⟩ := Bool.and_eq_true_iff.mp hc
    exact ⟨_, (toNat_of_small (of_decide_eq_true hsmall)).1, hspace⟩
  other c hc := by
    refine ⟨utf16Char_ne_nil c, fun u hu => ?_⟩
    by_cases hsmall : c.toNat < 0x10000
    · rw [(toNat_of_small hsmall).1, List.mem_singleton] at hu
      subst hu
      simpa [uniSpace, hsmall] using hc
    · have := toNat_of_mem_utf16Char hsmall hu
      simp only [jsSpace, Bool.or_eq_false_iff, Bool.and_eq_false_iff, beq_eq_false_iff_ne,
        decide_eq_false_iff_not, UInt16.le_iff_toNat_le, ne_eq, ← UInt16.toNat_inj,
        UInt16.reduceToNat]
      omega

theorem encodes_plainSpace : Encodes utf16Char plainSpace Cbi.trimwsSpace where
  blank c hc := by
    have hsmall : c.toNat < 0x10000 := by
      simp only [plainSpace, Bool.or_eq_true, beq_iff_eq] at hc
      omega
    obtain ⟨hunit, hu⟩ := toNat_of_small hsmall
    refine ⟨_, hunit, ?_⟩
    simpa only [plainSpace, Cbi.trimwsSpace, Bool.or_eq_true, beq_iff_eq, ← UInt16.toNat_inj, hu,
      UInt16.reduceToNat] using hc
  other c hc := by
    refine ⟨utf16Char_ne_nil c, fun u hu => ?_⟩
    by_cases hsmall : c.toNat < 0x10000
    · obtain ⟨hunit, hval⟩ := toNat_of_small hsmall
      rw [hunit, List.mem_singleton] at hu
      subst hu
      simpa only [plainSpace, Cbi.trimwsSpace, Bool.or_eq_false_iff, beq_eq_false_iff_ne, ne_eq,
        ← UInt16.toNat_inj, hval, UInt16.reduceToNat] using hc
    · have := toNat_of_mem_utf16Char hsmall hu
      simp only [Cbi.trimwsSpace, Bool.or_eq_false_iff, beq_eq_false_iff_ne, ne_eq,
        ← UInt16.toNat_inj, UInt16.reduceToNat]
      omega

theorem isspace_ofNat {n : ℕ} (h : n < 256) :
    isspace (UInt8.ofNat n) = (n == 32 || (9 ≤ n && n ≤ 13)) := by
  have hn : (UInt8.ofNat n).toNat = n := UInt8.toNat_ofNat_of_lt h
  rw [Bool.eq_iff_iff]
  simp only [isspace, Bool.or_eq_true, beq_iff_eq, Bool.and_eq_true, decide_eq_true_eq,
    UInt8.le_iff_toNat_le, ← UInt8.toNat_inj, hn, UInt8.reduceToNat]

/-- All bytes of a sequence of several are above the blanks. -/
theorem isspace_continuation {n lead : ℕ} (hlead : 128 ≤ lead) (h : n + lead < 256) :
    isspace (UInt8.ofNat (n + lead)) = false := by
  rw [isspace_ofNat h]
  simp
  omega

theorem encodes_cSpace : Encodes String.utf8EncodeChar cSpace isspace where
  blank c hc := by
    have hsmall : c.toNat ≤ 0x7F := by
      simp only [cSpace, Bool.or_eq_true, beq_iff_eq, Bool.and_eq_true, decide_eq_true_eq] at hc
      omega
    refine ⟨UInt8.ofNat c.toNat, if_pos hsmall, ?_⟩
    rw [isspace_ofNat (by omega)]
    exact hc
  other c hc := by
    refine ⟨String.utf8EncodeChar_ne_nil, fun u hu => ?_⟩
    have hval : c.val.toNat = c.toNat := rfl
    simp only [String.utf8EncodeChar, hval] at hu
    split_ifs at hu with h₁ h₂ h₃
    · rw [List.mem_singleton] at hu
      rw [hu, isspace_ofNat (by omega)]
      exact hc
    all_goals
      simp only [List.mem_cons, List.not_mem_nil, or_false] at hu
    · rcases hu with rfl | rfl <;> exact isspace_continuation (by decide) (by omega)
    · rcases hu with rfl | rfl | rfl <;> exact isspace_continuation (by decide) (by omega)
    · rcases hu with rfl | rfl | rfl | rfl <;> exact isspace_continuation (by decide) (by omega)

theorem canon_utf8 (s : List Char) : canon (utf8 s) = utf8 (form s) := by
  have hsp : String.utf8EncodeChar (Char.ofNat 32) = [32] := rfl
  rw [canon, utf8, encodes_cSpace.trimBy, encodes_cSpace.squeeze hsp]
  rfl

theorem trimws_utf16 {s : List Char} (hs : PlainBlanks s) :
    Cbi.trimws (utf16 s) = utf16 (form s) := by
  have hsp : utf16Char (Char.ofNat 32) = [32] := rfl
  rw [Cbi.trimws, utf16, encodes_uniSpace.trimBy, encodes_plainSpace.squeeze hsp,
    (forms_eq_iff s).mpr hs]
  rfl

section Keys

variable {s : List Char} {c : Option (List Char)}

/-- The text that both sides hash. -/
def keyText (s : List Char) (c : Option (List Char)) : List Char :=
  (c.elim [] fun c => form c ++ [Char.ofNat 1]) ++ form s

/-- The plural index behind the text. -/
def indexText (i : ℕ) : List Char := [Char.ofNat 2, Char.ofNat (48 + i)]

theorem key_utf16 (hs : PlainBlanks s) (hc : ∀ x ∈ c, PlainBlanks x) :
    Cbi.key (utf16 s) (c.map utf16) = utf16 (keyText s c) := by
  cases c with
  | none => simp [Cbi.key, keyText, trimws_utf16 hs]
  | some x =>
    simp only [Cbi.key, keyText, Option.map_some, Option.elim_some, trimws_utf16 hs,
      trimws_utf16 (hc x rfl)]
    simp only [utf16, List.flatMap_append]
    rfl

theorem canon_keyText :
    canonContext (c.map utf8) ++ canon (utf8 s) = utf8 (keyText s c) := by
  cases c with
  | none => simp [canonContext, keyText, canon_utf8]
  | some x =>
    simp only [canonContext, keyText, Option.map_some, Option.elim_some, canon_utf8]
    simp only [utf8, List.flatMap_append]
    rfl

theorem indexText_encodings {i : ℕ} (hi : i < 10) :
    [2] ++ numberToString 10 i = utf16 (indexText i) ∧ pluralSuffix i = utf8 (indexText i) := by
  interval_cases i <;> exact ⟨rfl, rfl⟩

theorem keyText_eq_nil_iff :
    keyText s c = [] ↔ c = none ∧ ∀ ch ∈ s, cSpace ch = true := by
  rw [← @squeeze_trimBy_eq_nil_iff _ cSpace (Char.ofNat 32) s, ← form]
  cases c with
  | none => simp [keyText]
  | some c => simp [keyText]

theorem utf8_eq_nil_iff {t : List Char} : utf8 t = [] ↔ t = [] := by
  cases t with
  | nil => simp [utf8]
  | cons ch t => simp [utf8, String.utf8EncodeChar_ne_nil]

/-- A text that is not empty is hashed alike on both sides. -/
theorem sfh_utf16 {t : List Char} (h : t ≠ []) :
    Cbi.sfh (utf16 t) = some (hexDigits 8
      (sfhHash (utf8 t) (BitVec.ofNat 32 (utf8 t).length)).toNat) := by
  rw [← Cbi.sfhBytes_utf16]
  refine Cbi.sfh_eq ?_
  rw [Cbi.sfhBytes_utf16]
  exact utf8_eq_nil_iff.not.mpr h

/-- The browser's hash of a text is the catalogue's hash of its encoding, written with eight
lower-case hexadecimal digits. -/
theorem sfh_agrees {t : List Char} (h : t ≠ []) :
    ∃ key, Cbi.sfh (utf16 t) = some key ∧ key.length = 8 ∧
      (∀ c ∈ key, isDigit c = true ∨ (97 ≤ c ∧ c ≤ 102)) ∧
      digitsValue 16 key = (sfhHash (utf8 t) (BitVec.ofNat 32 (utf8 t).length)).toNat := by
  refine ⟨_, sfh_utf16 h, length_hexDigits .., fun c hc => mem_hexDigits hc, ?_⟩
  rw [digitsValue_hexDigits]
  exact Nat.mod_eq_of_lt (BitVec.isLt _)

/-- A text with a character outside the basic plane. -/
theorem sfh_agrees_clef : ∃ key, Cbi.sfh (utf16 [Char.ofNat 0x1D11E]) = some key ∧
    key.length = 8 ∧ (∀ c ∈ key, isDigit c = true ∨ (97 ≤ c ∧ c ≤ 102)) ∧
    digitsValue 16 key = (sfhHash (utf8 [Char.ofNat 0x1D11E])
      (BitVec.ofNat 32 (utf8 [Char.ofNat 0x1D11E]).length)).toNat :=
  sfh_agrees (by decide)

theorem lmoCanonHash_eq {str : Bytes} {ctx : Option Bytes} {plural : ℤ}
    (h : (lmoCanon str ctx plural).isSome) :
    lmoCanonHash str ctx plural =
      let res := canonContext ctx ++ canon str ++ if -1 < plural then pluralSuffix plural else []
      sfhHash res (BitVec.ofNat 32 res.length) := by
  obtain ⟨res, hres⟩ := Option.isSome_iff_exists.mp h
  rw [lmoCanonHash, hres, ← lmoCanon_eq hres]

instance decidableSpaces (s : List Char) : Decidable (∀ ch ∈ s, cSpace ch = true) :=
  List.decidableBAll _ s

/-- On texts with plain blanks whose canonical form fits the buffer, the browser computes the
catalogue's key, except for the empty text, for which it has none. -/
theorem translation_keys (s : List Char) (c : Option (List Char)) (hs : PlainBlanks s)
    (hc : ∀ x ∈ c, PlainBlanks x) :
    ((lmoCanon (utf8 s) (c.map utf8) (-1)).isSome →
      Cbi.sfh (Cbi.key (utf16 s) (c.map utf16)) =
        if c = none ∧ ∀ ch ∈ s, cSpace ch = true then none
        else some (hexDigits 8 (lmoCanonHash (utf8 s) (c.map utf8) (-1)).toNat)) ∧
    ∀ i : ℕ, i < 10 → (lmoCanon (utf8 s) (c.map utf8) i).isSome →
      Cbi.sfh (Cbi.pluralKey i (utf16 s) (c.map utf16)) =
        some (hexDigits 8 (lmoCanonHash (utf8 s) (c.map utf8) i).toNat) := by
  constructor
  · intro hfits
    rw [key_utf16 hs hc, lmoCanonHash_eq hfits, if_neg (by decide : ¬ (-1 : ℤ) < -1),
      List.append_nil, canon_keyText]
    by_cases hnil : keyText s c = []
    · rw [if_pos (keyText_eq_nil_iff.mp hnil), hnil]
      rfl
    · rw [if_neg (keyText_eq_nil_iff.not.mp hnil), sfh_utf16 hnil]
  · intro i hi hfits
    obtain ⟨hunits, hbytes⟩ := indexText_encodings hi
    have htext : Cbi.pluralKey i (utf16 s) (c.map utf16) = utf16 (keyText s c ++ indexText i) := by
      rw [Cbi.pluralKey, key_utf16 hs hc, List.append_assoc, hunits, utf16, utf16, utf16,
        List.flatMap_append]
    have hform : utf8 (keyText s c) ++ utf8 (indexText i) = utf8 (keyText s c ++ indexText i) := by
      rw [utf8, utf8, utf8, List.flatMap_append]
    rw [htext, lmoCanonHash_eq hfits, if_pos (by omega), canon_keyText, hbytes, hform,
      sfh_utf16 (by simp [indexText])]

/-- A text with a tab and a space between its words, in a context, with the index one. -/
theorem translation_keys_tab :
    let s := [' ', 'H', 'i', Char.ofNat 9, ' ', 'y', Char.ofNat 0xF6]
    Cbi.sfh (Cbi.key (utf16 s) (some (utf16 ['m']))) =
        some (hexDigits 8 (lmoCanonHash (utf8 s) (some (utf8 ['m'])) (-1)).toNat) ∧
      Cbi.sfh (Cbi.pluralKey 1 (utf16 s) (some (utf16 ['m']))) =
        some (hexDigits 8 (lmoCanonHash (utf8 s) (some (utf8 ['m'])) 1).toNat) := by
  have htrim : trimBy cSpace [' ', 'H', 'i', Char.ofNat 9, ' ', 'y', Char.ofNat 0xF6] =
      ['H', 'i', Char.ofNat 9, ' ', 'y', Char.ofNat 0xF6] := by decide
  have hplain : PlainBlanks [' ', 'H', 'i', Char.ofNat 9, ' ', 'y', Char.ofNat 0xF6] := by
    rw [PlainBlanks, htrim]
    exact ⟨by simp [cSpace, plainSpace], by simp [uniSpace, jsSpace], by simp [uniSpace, jsSpace]⟩
  have hctxt : PlainBlanks ['m'] := by
    have htrim' : trimBy cSpace ['m'] = ['m'] := by decide
    rw [PlainBlanks, htrim']
    exact ⟨by simp [cSpace], by simp [uniSpace, jsSpace], by simp [uniSpace, jsSpace]⟩
  have h := translation_keys [' ', 'H', 'i', Char.ofNat 9, ' ', 'y', Char.ofNat 0xF6] (some ['m'])
    hplain (by rintro x ⟨rfl⟩; exact hctxt)
  refine ⟨?_, h.2 1 (by decide) (by decide +kernel)⟩
  exact (h.1 (by decide +kernel)).trans (if_neg (by simp))

/-- The browser's key is the hexadecimal form of the catalogue's. -/
def KeyAgrees (s : List Char) : Prop :=
  (lmoCanon (utf8 s) none (-1)).isSome →
    Cbi.sfh (Cbi.key (utf16 s) none) = some (hexDigits 8 (lmoCanonHash (utf8 s) none (-1)).toNat)

/-- The empty text has no key in the browser. A carriage return stays in the browser's form
while the catalogue has a space there, and a no-break space is trimmed while the catalogue
keeps it. -/
theorem translation_keys_differ :
    ¬ KeyAgrees [] ∧ ¬ KeyAgrees ['a', Char.ofNat 13, 'b'] ∧ ¬ KeyAgrees ['a', Char.ofNat 0xA0] := by
  unfold KeyAgrees
  decide +kernel

end Keys

end NeonWrt.Luci
