import NeonWrt.Lib.Binary

/-!
# One's-complement sums

The sum of the 16-bit words of some bytes in which every carry out of the word is added
back, as the checksums of IP and UDP use it: the words are added up first and the carries
folded in afterwards.
-/

namespace NeonWrt.Lib

/-- The sum of the words, the high byte first; a last byte alone is a high byte. -/
def wordSum : Bytes → ℕ
  | a :: b :: t => 256 * a.toNat + b.toNat + wordSum t
  | [a] => 256 * a.toNat
  | [] => 0

/-- What is left when the carries were added to the low word until there is none. -/
def foldCarries (n : ℕ) : ℕ := if n < 65536 then n else foldCarries (n / 65536 + n % 65536)
termination_by n
decreasing_by omega

/-- The one's-complement sum of some bytes. -/
def onesSum (b : Bytes) : ℕ := foldCarries (wordSum b)

theorem wordSum_append {a : Bytes} (h : a.length % 2 = 0) (b : Bytes) :
    wordSum (a ++ b) = wordSum a + wordSum b := by
  fun_induction wordSum a with
  | case1 x y t ih =>
    rw [List.length_cons, List.length_cons] at h
    rw [List.cons_append, List.cons_append, wordSum, ih (by omega)]
    omega
  | case2 x => exact absurd h (by simp)
  | case3 => rw [List.nil_append, Nat.zero_add]

theorem wordSum_u16 {n : ℕ} (h : n < 65536) : wordSum (Endian.big.u16 n) = n := by
  have hhigh : (UInt8.ofNat (n / 256)).toNat = n / 256 := Nat.mod_eq_of_lt (by omega)
  have hlow : (UInt8.ofNat n).toNat = n % 256 := rfl
  rw [Endian.u16, wordSum, wordSum, hhigh, hlow, Nat.add_zero, Nat.div_add_mod]

variable {n m : ℕ}

theorem foldCarries_of_lt (h : n < 65536) : foldCarries n = n := by
  rw [foldCarries, if_pos h]

theorem foldCarries_of_le (h : 65536 ≤ n) :
    foldCarries n = foldCarries (n / 65536 + n % 65536) := by
  rw [foldCarries, if_neg (by omega)]

/-- Folding keeps the remainder by 65535, and it reaches zero only from zero. -/
theorem foldCarries_spec (n : ℕ) :
    foldCarries n < 65536 ∧ foldCarries n % 65535 = n % 65535 ∧ (foldCarries n = 0 ↔ n = 0) := by
  induction n using Nat.strong_induction_on with
  | h n ih =>
    rcases Nat.lt_or_ge n 65536 with hlt | hge
    · rw [foldCarries_of_lt hlt]
      exact ⟨hlt, rfl, Iff.rfl⟩
    · rw [foldCarries_of_le hge]
      obtain ⟨hlt, hmod, hzero⟩ := ih (n / 65536 + n % 65536) (by omega)
      exact ⟨hlt, by omega, by omega⟩

/-- The result is the only word with these properties. -/
theorem eq_foldCarries (hlt : m < 65536) (hmod : m % 65535 = n % 65535) (hzero : m = 0 ↔ n = 0) :
    m = foldCarries n := by
  obtain ⟨hlt', hmod', hzero'⟩ := foldCarries_spec n
  omega

/-- Carries can be folded in before another number is added. -/
theorem foldCarries_add (n m : ℕ) : foldCarries (foldCarries n + m) = foldCarries (n + m) := by
  obtain ⟨-, hmod, hzero⟩ := foldCarries_spec n
  obtain ⟨hlt', hmod', hzero'⟩ := foldCarries_spec (foldCarries n + m)
  exact eq_foldCarries hlt' (by omega) (by omega)

theorem foldCarries_eq_max_iff : foldCarries n = 65535 ↔ 0 < n ∧ n % 65535 = 0 := by
  obtain ⟨hlt, hmod, hzero⟩ := foldCarries_spec n
  omega

/-- The complement of a sum, added to it, gives all ones. -/
theorem foldCarries_complement (h : 0 < n) : foldCarries (n + (65535 - foldCarries n)) = 65535 := by
  obtain ⟨hlt, hmod, -⟩ := foldCarries_spec n
  rw [foldCarries_eq_max_iff]
  omega

end NeonWrt.Lib
