import Mathlib.Data.Nat.Digits.Defs
import NeonWrt.Lib.Binary

/-!
# Numbers of any width in network order

The bytes of a buffer as the digits of a number, and what masks and byte-wise
arithmetic with a carry make of the number.
-/

namespace NeonWrt.Lib

/-- The number whose bytes these are, from the lowest to the highest. -/
def littleEndian (b : Bytes) : ℕ := Nat.ofDigits 256 (b.map UInt8.toNat)

/-- The number whose bytes these are, from the highest to the lowest. -/
def bigEndian (b : Bytes) : ℕ := littleEndian b.reverse

section Value

variable {a b : Bytes} {x : UInt8} {n : ℕ}

@[simp] theorem littleEndian_nil : littleEndian [] = 0 := rfl

@[simp] theorem littleEndian_cons (x : UInt8) (b : Bytes) :
    littleEndian (x :: b) = x.toNat + 256 * littleEndian b := by
  rw [littleEndian, List.map_cons, Nat.ofDigits_cons]
  rfl

theorem littleEndian_lt (b : Bytes) : littleEndian b < 256 ^ b.length := by
  have hlt := Nat.ofDigits_lt_base_pow_length (b := 256) (l := b.map UInt8.toNat) (by decide) (by
    intro d hd
    obtain ⟨x, -, rfl⟩ := List.mem_map.mp hd
    exact x.toNat_lt)
  rwa [List.length_map] at hlt

theorem littleEndian_append (a b : Bytes) :
    littleEndian (a ++ b) = littleEndian a + 256 ^ a.length * littleEndian b := by
  rw [littleEndian, List.map_append, Nat.ofDigits_append, List.length_map]
  rfl

theorem littleEndian_inj (hlen : a.length = b.length) (h : littleEndian a = littleEndian b) :
    a = b := by
  induction a generalizing b with
  | nil => exact (List.length_eq_zero_iff.mp hlen.symm).symm
  | cons x a ih =>
    obtain ⟨y, b, rfl⟩ := List.exists_cons_of_length_eq_add_one hlen.symm
    rw [littleEndian_cons, littleEndian_cons] at h
    have hx := x.toNat_lt
    have hy := y.toNat_lt
    have hrest := ih (by simpa using hlen) (by omega : littleEndian a = littleEndian b)
    have hfirst : x = y := UInt8.toNat_inj.mp (by omega)
    rw [hfirst, hrest]

@[simp] theorem bigEndian_nil : bigEndian [] = 0 := rfl

@[simp] theorem bigEndian_cons (x : UInt8) (b : Bytes) :
    bigEndian (x :: b) = x.toNat * 256 ^ b.length + bigEndian b := by
  rw [bigEndian, List.reverse_cons, littleEndian_append, List.length_reverse, littleEndian_cons,
    littleEndian_nil, Nat.mul_zero, Nat.add_zero, bigEndian, Nat.mul_comm, Nat.add_comm]

theorem bigEndian_lt (b : Bytes) : bigEndian b < 256 ^ b.length := by
  rw [← List.length_reverse]
  exact littleEndian_lt b.reverse

theorem bigEndian_inj (hlen : a.length = b.length) (h : bigEndian a = bigEndian b) : a = b := by
  have hrev : a.reverse = b.reverse :=
    littleEndian_inj (by rw [List.length_reverse, List.length_reverse, hlen]) h
  exact List.reverse_injective hrev

theorem bigEndian_replicate_zero (n : ℕ) : bigEndian (List.replicate n 0) = 0 := by
  induction n with
  | zero => rfl
  | succ n ih => simp [List.replicate_succ, ih]

theorem bigEndian_replicate_max (n : ℕ) : bigEndian (List.replicate n 255) = 256 ^ n - 1 := by
  induction n with
  | zero => rfl
  | succ n ih =>
    have hpos : 0 < 256 ^ n := by positivity
    rw [List.replicate_succ, bigEndian_cons, List.length_replicate, ih, pow_succ,
      show (255 : UInt8).toNat = 255 from rfl]
    omega

theorem bigEndian_eq_getU32 (h : b.length = 4) : bigEndian b = Endian.big.getU32 b 0 := by
  obtain ⟨x, y, z, w, rfl⟩ := List.length_eq_four.mp h
  simp [Endian.getU32, getU32]
  omega

theorem bigEndian_u32 (n : ℕ) : bigEndian (Endian.big.u32 n) = n % 4294967296 := by
  rw [bigEndian_eq_getU32 (Endian.length_u32 ..)]
  exact (HasAt.zero _).endian

end Value

section Masks

variable {v w k : ℕ}

theorem and_high (hv : v < 2 ^ w) (hk : k ≤ w) : v &&& (2 ^ w - 2 ^ k) = v / 2 ^ k * 2 ^ k := by
  have hmask : 2 ^ w - 2 ^ k = (2 ^ (w - k) - 1) <<< k := by
    rw [Nat.shiftLeft_eq, Nat.sub_mul, ← pow_add, Nat.sub_add_cancel hk, Nat.one_mul]
  rw [hmask, ← Nat.shiftRight_eq_div_pow, ← Nat.shiftLeft_eq]
  apply Nat.eq_of_testBit_eq
  intro i
  rw [Nat.testBit_and, Nat.testBit_shiftLeft, Nat.testBit_two_pow_sub_one, Nat.testBit_shiftLeft,
    Nat.testBit_shiftRight]
  by_cases hlow : k ≤ i
  · by_cases hhigh : i < w
    · simp [hlow, show i - k < w - k by omega]
    · have hzero : v.testBit i = false :=
        Nat.testBit_lt_two_pow (hv.trans_le (Nat.pow_le_pow_right (by decide) (by omega)))
      simp [hlow, hzero]
  · simp [hlow]

theorem or_low (v k : ℕ) : v ||| (2 ^ k - 1) = v / 2 ^ k * 2 ^ k + (2 ^ k - 1) := by
  have hpos : 0 < 2 ^ k := Nat.two_pow_pos k
  rw [Nat.mul_comm, Nat.two_pow_add_eq_or_of_lt (by omega)]
  apply Nat.eq_of_testBit_eq
  intro i
  rw [Nat.testBit_or, Nat.testBit_or, Nat.testBit_two_pow_sub_one, Nat.testBit_two_pow_mul,
    Nat.testBit_div_two_pow]
  by_cases hi : i < k
  · simp [hi]
  · simp [hi, show k ≤ i by omega]

theorem add_mul_div_mul {m : ℕ} (hdvd : 2 ^ k ∣ m) (x : ℕ) :
    (x * m + v) / 2 ^ k * 2 ^ k = x * m + v / 2 ^ k * 2 ^ k := by
  obtain ⟨q, rfl⟩ := hdvd
  have hpos : 0 < 2 ^ k := Nat.two_pow_pos k
  rw [show x * (2 ^ k * q) = 2 ^ k * (x * q) by ring, Nat.mul_add_div hpos, Nat.add_mul]
  ring

end Masks

/-- Addition from the lowest byte on, and the carry that is left. -/
def addBytes : ℕ → Bytes → Bytes → Bytes × ℕ
  | carry, x :: a, y :: b =>
    let r := addBytes ((x.toNat + y.toNat + carry) / 256) a b
    (UInt8.ofNat (x.toNat + y.toNat + carry) :: r.1, r.2)
  | carry, _, _ => ([], carry)

/-- Subtraction from the lowest byte on, and the borrow that is left. -/
def subBytes : ℕ → Bytes → Bytes → Bytes × ℕ
  | carry, x :: a, y :: b =>
    let r := subBytes (if x.toNat < y.toNat + carry then 1 else 0) a b
    (UInt8.ofInt (x.toNat - y.toNat - carry) :: r.1, r.2)
  | carry, _, _ => ([], carry)

section Carry

variable {a b : Bytes} {carry : ℕ}

theorem length_addBytes (hlen : a.length = b.length) (carry : ℕ) :
    (addBytes carry a b).1.length = a.length := by
  induction a generalizing b carry with
  | nil => rfl
  | cons x a ih =>
    obtain ⟨y, b, rfl⟩ := List.exists_cons_of_length_eq_add_one hlen.symm
    rw [addBytes, List.length_cons, ih (by simpa using hlen), List.length_cons]

theorem length_subBytes (hlen : a.length = b.length) (carry : ℕ) :
    (subBytes carry a b).1.length = a.length := by
  induction a generalizing b carry with
  | nil => rfl
  | cons x a ih =>
    obtain ⟨y, b, rfl⟩ := List.exists_cons_of_length_eq_add_one hlen.symm
    rw [subBytes, List.length_cons, ih (by simpa using hlen), List.length_cons]

theorem addBytes_spec (hlen : a.length = b.length) (carry : ℕ) :
    littleEndian (addBytes carry a b).1 + 256 ^ a.length * (addBytes carry a b).2 =
      littleEndian a + littleEndian b + carry := by
  induction a generalizing b carry with
  | nil =>
    obtain rfl := List.length_eq_zero_iff.mp hlen.symm
    simp [addBytes]
  | cons x a ih =>
    obtain ⟨y, b, rfl⟩ := List.exists_cons_of_length_eq_add_one hlen.symm
    have hrest := ih (by simpa using hlen) ((x.toNat + y.toNat + carry) / 256)
    simp only [addBytes, littleEndian_cons, List.length_cons, UInt8.toNat_ofNat', pow_succ',
      Nat.mul_assoc]
    omega

theorem subBytes_spec (hlen : a.length = b.length) (hcarry : carry ≤ 1) :
    littleEndian (subBytes carry a b).1 + littleEndian b + carry =
      littleEndian a + 256 ^ a.length * (subBytes carry a b).2 := by
  induction a generalizing b carry with
  | nil =>
    obtain rfl := List.length_eq_zero_iff.mp hlen.symm
    simp [subBytes]
  | cons x a ih =>
    obtain ⟨y, b, rfl⟩ := List.exists_cons_of_length_eq_add_one hlen.symm
    have hrest := @ih b (if x.toNat < y.toNat + carry then 1 else 0) (by simpa using hlen)
      (by split_ifs <;> omega)
    have hx := x.toNat_lt
    have hy := y.toNat_lt
    have hbyte : (UInt8.ofInt (x.toNat - y.toNat - carry)).toNat =
        if x.toNat < y.toNat + carry then x.toNat + 256 - y.toNat - carry
        else x.toNat - y.toNat - carry := by
      rw [UInt8.ofInt, UInt8.toNat_ofNat']
      split_ifs <;> omega
    simp only [subBytes, littleEndian_cons, List.length_cons, hbyte, pow_succ', Nat.mul_assoc]
    split_ifs at hrest ⊢ <;> omega

end Carry

end NeonWrt.Lib
