import NeonWrt.Lib.CString
import Mathlib.Tactic.Ring

/-!
# Bit streams

A buffer read bit by bit, least significant bit of each byte first, and two
ways of writing numbers into such a stream: a fixed number of bits with the
most significant first, and the exponential-Golomb code of order `s`, whose
length grows with the number.
-/

namespace NeonWrt.Lib

/-- The bits of a byte, least significant first. -/
def byteBits (b : UInt8) : List Bool := (List.range 8).map fun i => b.toNat.testBit i

/-- The bits of a buffer. -/
def bits (b : Bytes) : List Bool := b.flatMap byteBits

@[simp] theorem length_byteBits (b : UInt8) : (byteBits b).length = 8 := by simp [byteBits]

@[simp] theorem length_bits (b : Bytes) : (bits b).length = 8 * b.length := by
  induction b with
  | nil => rfl
  | cons c b ih => simp only [bits, List.flatMap_cons, List.length_append, length_byteBits,
      List.length_cons] at ih ⊢; omega

theorem getElem?_bits (b : Bytes) (p : ℕ) :
    (bits b)[p]? = b[p / 8]?.map fun c => c.toNat.testBit (p % 8) := by
  induction b generalizing p with
  | nil => simp [bits]
  | cons c b ih =>
    have hcons : bits (c :: b) = byteBits c ++ bits b := rfl
    rw [hcons, List.getElem?_append, length_byteBits]
    by_cases hp : p < 8
    · -- within the first byte
      have hdiv : p / 8 = 0 := by omega
      have hmod : p % 8 = p := by omega
      simp [hp, hdiv, hmod, byteBits]
    · have hdiv : p / 8 = (p - 8) / 8 + 1 := by omega
      have hmod : p % 8 = (p - 8) % 8 := by omega
      rw [if_neg hp, ih, hdiv, hmod, List.getElem?_cons_succ]

/-- The lowest `k` bits of a number, most significant first. -/
def msb : ℕ → ℕ → List Bool
  | 0, _ => []
  | k + 1, n => n.testBit k :: msb k n

/-- The number whose bits are given, most significant first. -/
def ofMsb (l : List Bool) : ℕ := l.foldl (fun n b => 2 * n + b.toNat) 0

@[simp] theorem length_msb (k n : ℕ) : (msb k n).length = k := by
  induction k with
  | zero => rfl
  | succ k ih => simp [msb, ih]

private theorem foldl_msb (l : List Bool) (n : ℕ) :
    l.foldl (fun n b => 2 * n + b.toNat) n = 2 ^ l.length * n + ofMsb l := by
  induction l generalizing n with
  | nil => simp [ofMsb]
  | cons b l ih =>
    have hb : ofMsb (b :: l) = 2 ^ l.length * (2 * 0 + b.toNat) + ofMsb l := ih _
    rw [List.foldl_cons, ih, hb, List.length_cons, pow_succ]
    ring

@[simp] theorem ofMsb_nil : ofMsb [] = 0 := rfl

theorem ofMsb_cons (b : Bool) (l : List Bool) :
    ofMsb (b :: l) = 2 ^ l.length * b.toNat + ofMsb l := by
  rw [ofMsb, List.foldl_cons, foldl_msb]
  simp

theorem ofMsb_lt (l : List Bool) : ofMsb l < 2 ^ l.length := by
  induction l with
  | nil => simp
  | cons b l ih =>
    have hb : 2 ^ l.length * b.toNat ≤ 2 ^ l.length := by cases b <;> simp
    rw [ofMsb_cons, List.length_cons, pow_succ]
    omega

theorem ofMsb_msb (k n : ℕ) : ofMsb (msb k n) = n % 2 ^ k := by
  induction k with
  | zero => simp [msb, Nat.mod_one]
  | succ k ih =>
    rw [msb, ofMsb_cons, length_msb, ih, Nat.testBit_eq_decide_div_mod_eq, pow_succ, Nat.mod_mul]
    rcases Nat.mod_two_eq_zero_or_one (n / 2 ^ k) with h | h <;> simp [h, add_comm]

theorem msb_add_mul (k m n : ℕ) : msb k (2 ^ k * m + n) = msb k n := by
  -- every digit written lies below `2 ^ k`, so it is a digit of the remainder
  have key : ∀ j ≤ k, ∀ n, msb j (n % 2 ^ k) = msb j n := by
    intro j
    induction j with
    | zero => intro _ _; rfl
    | succ j ih =>
      intro hj n
      rw [msb, msb, ih (by omega), Nat.testBit_mod_two_pow, decide_eq_true (by omega),
        Bool.true_and]
  rw [← key k le_rfl (2 ^ k * m + n), Nat.mul_add_mod, key k le_rfl]

theorem msb_ofMsb (l : List Bool) : msb l.length (ofMsb l) = l := by
  induction l with
  | nil => rfl
  | cons b l ih =>
    have hlt := ofMsb_lt l
    rw [List.length_cons, msb, ofMsb_cons, msb_add_mul, ih,
      Nat.testBit_two_pow_mul_add _ hlt, if_neg (by omega), Nat.sub_self]
    cases b <;> rfl

/-- The exponential-Golomb code of order `s`: as many set bits as `v + 2 ^ s` has
binary digits beyond `s + 1`, a clear bit, and the digits after the leading one. -/
def expGolomb (s v : ℕ) : List Bool :=
  List.replicate (Nat.log2 (v + 2 ^ s) - s) true ++
    false :: msb (Nat.log2 (v + 2 ^ s)) (v + 2 ^ s)

private theorem log2_eq {n k : ℕ} (h : 2 ^ k ≤ n) (h' : n < 2 ^ (k + 1)) : Nat.log2 n = k := by
  have hn : n ≠ 0 := by have := Nat.two_pow_pos k; omega
  exact (Nat.log2_eq_iff hn).mpr ⟨h, h'⟩

/-- A number below `2 ^ s` is a clear bit and its `s` digits. -/
theorem expGolomb_of_lt {s v : ℕ} (h : v < 2 ^ s) : expGolomb s v = false :: msb s v := by
  have hlog : Nat.log2 (v + 2 ^ s) = s := by
    apply log2_eq (Nat.le_add_left _ _)
    rw [pow_succ]
    omega
  rw [expGolomb, hlog, Nat.sub_self, List.replicate_zero, List.nil_append, add_comm v,
    ← msb_add_mul s 1 v, mul_one]

/-- A larger number is a set bit, worth `2 ^ s`, and the rest in the code of order `s + 1`. -/
theorem expGolomb_of_le {s v : ℕ} (h : 2 ^ s ≤ v) :
    expGolomb s v = true :: expGolomb (s + 1) (v - 2 ^ s) := by
  have hsum : v - 2 ^ s + 2 ^ (s + 1) = v + 2 ^ s := by rw [pow_succ]; omega
  have hlog : s + 1 ≤ Nat.log2 (v + 2 ^ s) := by
    have hpos := Nat.two_pow_pos s
    rw [Nat.le_log2 (by omega), pow_succ]
    omega
  have hcount : Nat.log2 (v + 2 ^ s) - s = (Nat.log2 (v + 2 ^ s) - (s + 1)) + 1 := by omega
  rw [expGolomb, expGolomb, hsum, hcount, List.replicate_succ, List.cons_append]

theorem expGolomb_ne_nil (s v : ℕ) : expGolomb s v ≠ [] := by simp [expGolomb]

end NeonWrt.Lib
