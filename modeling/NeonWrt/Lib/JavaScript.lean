import NeonWrt.Lib.Number

/-!
# JavaScript strings and integers

A string is a list of UTF-16 code units, and a text of Unicode characters has its
encoding. A number that is an integer is an `ℤ`, as the numbers of the programs
here stay below `2 ^ 53`; the bitwise operators work on 32-bit words and give a
signed number, except the unsigned shift to the right.
-/

namespace NeonWrt.Lib

/-- A string of UTF-16 code units. -/
abbrev JsString := List UInt16

instance jsString_lawfulBEq : LawfulBEq JsString := List.instLawfulBEq

/-- The code units of an ASCII literal. -/
def units (s : String) : JsString := s.toList.map fun c => UInt16.ofNat c.toNat

/-- The code units of a character: itself, or a surrogate pair. -/
def utf16Char (c : Char) : JsString :=
  if c.toNat < 0x10000 then [UInt16.ofNat c.toNat]
  else [UInt16.ofNat (0xD800 + (c.toNat - 0x10000) / 0x400),
    UInt16.ofNat (0xDC00 + (c.toNat - 0x10000) % 0x400)]

/-- A text as a JavaScript string. -/
def utf16 (s : List Char) : JsString := s.flatMap utf16Char

/-- A text in UTF-8. -/
def utf8 (s : List Char) : Bytes := s.flatMap String.utf8EncodeChar

/-- The white space and line terminators of the language. -/
def jsSpace (c : UInt16) : Bool :=
  (9 ≤ c && c ≤ 13) || c == 32 || c == 0xA0 || c == 0x1680 || (0x2000 ≤ c && c ≤ 0x200A) ||
    c == 0x2028 || c == 0x2029 || c == 0x202F || c == 0x205F || c == 0x3000 || c == 0xFEFF

/-- The 32-bit word that an integer is for the bitwise operators. -/
def word (z : ℤ) : BitVec 32 := BitVec.ofInt 32 z

/-- `a << n` -/
def shl (a : ℤ) (n : ℕ) : ℤ := (word a <<< n).toInt

/-- `a >>> n` -/
def ushr (a : ℤ) (n : ℕ) : ℤ := (word a >>> n).toNat

/-- `a ^ b` -/
def xor (a b : ℤ) : ℤ := (word a ^^^ word b).toInt

@[simp] theorem word_add (a b : ℤ) : word (a + b) = word a + word b := BitVec.ofInt_add ..

@[simp] theorem word_shl (a : ℤ) (n : ℕ) : word (shl a n) = word a <<< n := BitVec.ofInt_toInt

@[simp] theorem word_xor (a b : ℤ) : word (xor a b) = word a ^^^ word b := BitVec.ofInt_toInt

@[simp] theorem word_natCast (n : ℕ) : word n = BitVec.ofNat 32 n := BitVec.ofInt_natCast ..

@[simp] theorem word_ushr (a : ℤ) (n : ℕ) : word (ushr a n) = word a >>> n := by
  rw [ushr, word_natCast, BitVec.ofNat_toNat, BitVec.setWidth_eq]

theorem ushr_nonneg (a : ℤ) (n : ℕ) : 0 ≤ ushr a n := Int.natCast_nonneg _

theorem ushr_lt (a : ℤ) (n : ℕ) : ushr a n < 2 ^ 32 := by
  have := (word a >>> n).isLt
  unfold ushr
  omega

/-- `toString(radix)` of a number that is not negative. -/
def numberToString (radix n : ℕ) : JsString :=
  (Nat.toDigits radix n).map fun c => UInt16.ofNat c.toNat

/-- The last `k` hexadecimal digits of a number. -/
def hexDigits : (k : ℕ) → ℕ → JsString
  | 0, _ => []
  | k + 1, n => hexDigits k (n / 16) ++ [UInt16.ofNat (Nat.digitChar (n % 16)).toNat]

/-- A number with more than `k` digits is written with its front before the last `k`. -/
theorem numberToString_hex (k n : ℕ) (h : 16 ^ k ≤ n) :
    numberToString 16 n = numberToString 16 (n / 16 ^ k) ++ hexDigits k n := by
  induction k generalizing n with
  | zero => simp [hexDigits]
  | succ k ih =>
    have hpos : 0 < 16 ^ k := Nat.pow_pos (by decide)
    have hdiv : 16 ^ k ≤ n / 16 := by
      rw [Nat.le_div_iff_mul_le (by decide), ← pow_succ]
      exact h
    have hbase : 16 ≤ n := by
      rw [pow_succ] at h
      exact le_trans (Nat.le_mul_of_pos_left 16 hpos) h
    have hlast : numberToString 16 n = numberToString 16 (n / 16) ++
        [UInt16.ofNat (Nat.digitChar (n % 16)).toNat] := by
      rw [numberToString, Nat.toDigits_of_base_le (by decide) hbase, List.map_append]
      rfl
    rw [hlast, ih (n / 16) hdiv, Nat.div_div_eq_div_mul, ← pow_succ', hexDigits, List.append_assoc]

theorem hexDigits_mod (k n : ℕ) : hexDigits k (n % 16 ^ k) = hexDigits k n := by
  induction k generalizing n with
  | zero => rfl
  | succ k ih =>
    have hdiv : n % 16 ^ (k + 1) / 16 = n / 16 % 16 ^ k := by
      rw [pow_succ', Nat.mod_mul_right_div_self]
    have hmod : n % 16 ^ (k + 1) % 16 = n % 16 :=
      Nat.mod_mod_of_dvd n (dvd_pow_self 16 (Nat.succ_ne_zero k))
    rw [hexDigits, hexDigits, hdiv, hmod, ih]

/-- What `JSON.parse` gives. An object lists its members in the order of the text. -/
inductive JsValue
  | null
  | bool (b : Bool)
  | num (q : ℚ)
  | str (s : JsString)
  | arr (items : List JsValue)
  | obj (members : List (JsString × JsValue))

namespace JsValue

/-- The member of an object, of which the last one counts; `none` is `undefined`. -/
def get? (key : JsString) : JsValue → Option JsValue
  | .obj members => ((members.filter (·.1 = key)).getLast?).map (·.2)
  | _ => none

/-- `typeof(v) == 'object'` -/
def isObjectType : JsValue → Bool
  | .null | .arr _ | .obj _ => true
  | _ => false

/-- Truth of a value in a condition. -/
def truthy : JsValue → Bool
  | .null => false
  | .bool b => b
  | .num q => q ≠ 0
  | .str s => s ≠ []
  | _ => true

/-- Whether `String(v)` is the text. Arrays print their items with commas between them, so
only one with a single item can print a text without commas. -/
def printsAs (text : JsString) : JsValue → Bool
  | .str s => s = text
  | .arr [v] => v.printsAs text
  | _ => false

end JsValue

end NeonWrt.Lib
