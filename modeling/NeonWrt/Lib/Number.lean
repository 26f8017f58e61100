import NeonWrt.Lib.CString
import Mathlib.Tactic.IntervalCases
import Mathlib.Tactic.Ring

/-!
# Numbers in C strings

Numbers as `printf` writes them and as `strtoul` reads them. `strtoul` skips
blanks, takes a sign and for base sixteen a `0x`, and stops at the first byte that
is no digit; a text without digits is the number zero, and a negative number is
taken modulo the width of `unsigned long`.
-/

namespace NeonWrt.Lib

/-- The value of a digit of any base up to 36, and 36 for any other byte. -/
def digitVal (c : UInt8) : ℕ :=
  if isdigit c then c.toNat - 48
  else if 65 ≤ c ∧ c ≤ 90 then c.toNat - 55
  else if 97 ≤ c ∧ c ≤ 122 then c.toNat - 87
  else 36

/-- The value of a run of digits. -/
def numeral (base : ℕ) (digits : Bytes) : ℕ := digits.foldl (fun n c => n * base + digitVal c) 0

@[simp] theorem numeral_nil (base : ℕ) : numeral base [] = 0 := rfl

theorem numeral_concat (base : ℕ) (digits : Bytes) (c : UInt8) :
    numeral base (digits ++ [c]) = numeral base digits * base + digitVal c := by
  rw [numeral, List.foldl_append]
  rfl

theorem isspace_eq_false_of_digitVal {c : UInt8} (h : digitVal c < 36) : isspace c = false := by
  unfold digitVal at h
  simp only [isdigit, isspace, Bool.and_eq_true, decide_eq_true_eq, Bool.or_eq_false_iff,
    Bool.and_eq_false_iff, beq_eq_false_iff_ne, decide_eq_false_iff_not, UInt8.le_iff_toNat_le,
    ne_eq, ← UInt8.toNat_inj, UInt8.reduceToNat] at h ⊢
  split_ifs at h <;> omega

/-- The digit of a value below sixteen; `ten` is the letter of ten, less ten. -/
def hexDigit (ten : ℕ) (n : ℕ) : UInt8 := UInt8.ofNat (if n < 10 then 48 + n else ten + n)

/-- `%02X` of a byte. -/
def hex02 (b : UInt8) : Bytes := [hexDigit 55 (b.toNat / 16), hexDigit 55 (b.toNat % 16)]

/-- `%u`. -/
def dec (n : ℕ) : Bytes := (Nat.toDigits 10 n).map fun c => UInt8.ofNat c.toNat

/-- `%d`. -/
def fmtInt (z : ℤ) : Bytes := if z < 0 then 45 :: dec z.natAbs else dec z.natAbs

theorem digitVal_hexDigit {n : ℕ} (h : n < 16) : digitVal (hexDigit 55 n) = n := by
  interval_cases n <;> rfl

theorem digitVal_hexDigit_lower {n : ℕ} (h : n < 16) : digitVal (hexDigit 87 n) = n := by
  interval_cases n <;> rfl

theorem dec_of_lt {n : ℕ} (h : n < 10) : dec n = [hexDigit 55 n] := by
  interval_cases n <;> rfl

theorem dec_of_le {n : ℕ} (h : 10 ≤ n) : dec n = dec (n / 10) ++ [hexDigit 55 (n % 10)] := by
  have hlast := dec_of_lt (Nat.mod_lt n (by decide : 0 < 10))
  rw [dec, Nat.toDigits_of_lt_base (Nat.mod_lt n (by decide))] at hlast
  rw [dec, Nat.toDigits_of_base_le (by decide) h, List.map_append, ← dec, List.map_singleton]
  rw [List.map_singleton] at hlast
  rw [hlast]

theorem dec_ne_nil (n : ℕ) : dec n ≠ [] := by
  rcases lt_or_ge n 10 with h | h
  · simp [dec_of_lt h]
  · simp [dec_of_le h]

theorem isdigit_hexDigit {n : ℕ} (h : n < 10) : isdigit (hexDigit 55 n) = true := by
  interval_cases n <;> rfl

theorem isdigit_of_mem_dec {n : ℕ} {c : UInt8} (hc : c ∈ dec n) : isdigit c = true := by
  induction n using Nat.strongRecOn with
  | _ n ih =>
    rcases lt_or_ge n 10 with h | h
    · rw [dec_of_lt h, List.mem_singleton] at hc
      exact hc ▸ isdigit_hexDigit h
    · rw [dec_of_le h, List.mem_append, List.mem_singleton] at hc
      rcases hc with hc | rfl
      · exact ih (n / 10) (by omega) hc
      · exact isdigit_hexDigit (Nat.mod_lt n (by decide))

theorem digitVal_lt_ten {c : UInt8} (h : isdigit c = true) : digitVal c < 10 := by
  rw [digitVal, if_pos h]
  simp only [isdigit, Bool.and_eq_true, decide_eq_true_eq, UInt8.le_iff_toNat_le,
    UInt8.reduceToNat] at h
  omega

@[simp] theorem numeral_dec (n : ℕ) : numeral 10 (dec n) = n := by
  induction n using Nat.strongRecOn with
  | _ n ih =>
    rcases lt_or_ge n 10 with h | h
    · rw [dec_of_lt h]
      simpa [numeral] using digitVal_hexDigit (by omega)
    · rw [dec_of_le h, numeral_concat, ih (n / 10) (by omega), digitVal_hexDigit (by omega)]
      omega

theorem dec_inj {m n : ℕ} (h : dec m = dec n) : m = n := by
  rw [← numeral_dec m, h, numeral_dec]

/-- A number below `10 ^ k` has at most `k` digits. -/
theorem length_dec_le {n k : ℕ} (hk : 0 < k) (h : n < 10 ^ k) : (dec n).length ≤ k := by
  induction k generalizing n with
  | zero => omega
  | succ k ih =>
    rcases lt_or_ge n 10 with hn | hn
    · simp [dec_of_lt hn]
    · have hk : 0 < k := by
        by_contra hzero
        obtain rfl : k = 0 := by omega
        simp at h
        omega
      have hdiv : n / 10 < 10 ^ k := Nat.div_lt_of_lt_mul (by rw [pow_succ] at h; omega)
      have := ih hk hdiv
      rw [dec_of_le hn, List.length_append, List.length_singleton]
      omega

@[simp] theorem numeral_hex02 (b : UInt8) : numeral 16 (hex02 b) = b.toNat := by
  have hb := b.toNat_lt
  have hhigh : b.toNat / 16 < 16 := by omega
  have hlow : b.toNat % 16 < 16 := by omega
  simp only [numeral, hex02, List.foldl_cons, List.foldl_nil, digitVal_hexDigit hhigh,
    digitVal_hexDigit hlow]
  omega

theorem digitVal_of_mem_hex02 {b c : UInt8} (hc : c ∈ hex02 b) : digitVal c < 16 := by
  have hb := b.toNat_lt
  rcases List.mem_pair.mp hc with rfl | rfl
  · rw [digitVal_hexDigit (by omega)]
    omega
  · rw [digitVal_hexDigit (by omega)]
    omega

/-- A `0x` with a digit after it. -/
def hexPrefix (s : Bytes) : Bool :=
  s[0]? == some 48 && (s[1]? == some 120 || s[1]? == some 88) && s[2]?.any (digitVal · < 16)

/-- `strtoul(s, &e, base)` with a `w`-bit `unsigned long`: the number, and what `e`
points at. -/
def strtoul (w base : ℕ) (s : Bytes) : ℕ × Bytes :=
  let t := s.dropWhile isspace
  let neg := t.head? = some 45
  let t := if neg ∨ t.head? = some 43 then t.tail else t
  let t := if base = 16 ∧ hexPrefix t then t.drop 2 else t
  let digits := t.takeWhile (digitVal · < base)
  let n := numeral base digits
  if digits = [] then (0, s)
  else (if 2 ^ w ≤ n then 2 ^ w - 1 else if neg then (2 ^ w - n) % 2 ^ w else n,
    t.dropWhile (digitVal · < base))

/-- A number that is read is an `unsigned long`. -/
theorem strtoul_fst_lt (w base : ℕ) (s : Bytes) : (strtoul w base s).1 < 2 ^ w := by
  have hpos : 0 < 2 ^ w := Nat.two_pow_pos w
  rw [strtoul]
  split_ifs
  all_goals first
    | exact hpos
    | exact Nat.sub_lt hpos Nat.one_pos
    | exact Nat.mod_lt _ hpos
    | exact not_le.mp ‹_›

section Digits

variable {w base : ℕ} {digits rest : Bytes}

/-- A text starts with a run of digits that nothing continues. -/
structure Run (base : ℕ) (digits rest : Bytes) : Prop where
  ne_nil : digits ≠ []
  digit : ∀ c ∈ digits, digitVal c < base
  stop : ∀ c ∈ rest.head?, digitVal c = 36

theorem Run.takeWhile (h : Run base digits rest) (hbase : base ≤ 36) :
    (digits ++ rest).takeWhile (digitVal · < base) = digits := by
  rw [List.takeWhile_append_of_pos (by simpa using h.digit)]
  cases rest with
  | nil => simp
  | cons c rest =>
    have hc := h.stop c rfl
    rw [List.takeWhile_cons_of_neg (by simp; omega), List.append_nil]

theorem Run.dropWhile (h : Run base digits rest) (hbase : base ≤ 36) :
    (digits ++ rest).dropWhile (digitVal · < base) = rest := by
  rw [List.dropWhile_append_of_pos (by simpa using h.digit)]
  cases rest with
  | nil => simp
  | cons c rest =>
    have hc := h.stop c rfl
    exact List.dropWhile_cons_of_neg (by simp; omega)

/-- A run of digits is no `0x`: the letter is neither a digit nor does it stop the run. -/
theorem Run.not_hexPrefix (h : Run 16 digits rest) : hexPrefix (digits ++ rest) = false := by
  have hx : ∀ c, (digits ++ rest)[1]? = some c → digitVal c ≠ 33 := by
    intro c hc
    rcases lt_or_ge 1 digits.length with hlong | hshort
    · rw [List.getElem?_append_left hlong] at hc
      have := h.digit c (List.mem_of_getElem? hc)
      omega
    · have hlen := List.length_pos_iff.mpr h.ne_nil
      rw [List.getElem?_append_right hshort, show 1 - digits.length = 0 by omega,
        ← List.head?_eq_getElem?] at hc
      rw [h.stop c hc]
      decide
  have hlow : (digits ++ rest)[1]? ≠ some 120 := fun hc => hx 120 hc (by decide)
  have hupp : (digits ++ rest)[1]? ≠ some 88 := fun hc => hx 88 hc (by decide)
  simp [hexPrefix, hlow, hupp]

private theorem digit_ne_sign {c : UInt8} (h : digitVal c < 36) : c ≠ 45 ∧ c ≠ 43 := by
  constructor <;> rintro rfl <;> exact absurd h (by decide)

/-- What is read of digits, with or without a minus sign before them. -/
theorem Run.strtoul (h : Run base digits rest) (hbase : base ≤ 36) :
    Lib.strtoul w base (digits ++ rest) =
        (if 2 ^ w ≤ numeral base digits then 2 ^ w - 1 else numeral base digits, rest) ∧
      Lib.strtoul w base (45 :: (digits ++ rest)) =
        (if 2 ^ w ≤ numeral base digits then 2 ^ w - 1
          else (2 ^ w - numeral base digits) % 2 ^ w, rest) := by
  obtain ⟨c, digits', rfl⟩ := List.exists_cons_of_ne_nil h.ne_nil
  have hc := h.digit c (by simp)
  have hspace : isspace c = false := isspace_eq_false_of_digitVal (by omega)
  obtain ⟨hminus, hplus⟩ := digit_ne_sign (by omega : digitVal c < 36)
  -- neither text loses a `0x`
  have hprefix : ¬ (base = 16 ∧ hexPrefix (c :: digits' ++ rest) = true) := by
    rintro ⟨rfl, hpre⟩
    rw [h.not_hexPrefix] at hpre
    exact absurd hpre (by decide)
  have htake := h.takeWhile hbase
  have hdrop := h.dropWhile hbase
  constructor
  · have hstart : (c :: digits' ++ rest).dropWhile isspace = c :: digits' ++ rest := by
      rw [List.cons_append, List.dropWhile_cons_of_neg (by simp [hspace])]
    have hsign : ∀ d : UInt8, c ≠ d → ¬ (c :: digits' ++ rest).head? = some d := by
      simp
    simp only [Lib.strtoul, hstart, hsign 45 hminus, hsign 43 hplus, or_self, if_false, hprefix,
      htake, hdrop, h.ne_nil]
  · have hstart : (45 :: (c :: digits' ++ rest)).dropWhile isspace
        = 45 :: (c :: digits' ++ rest) :=
      List.dropWhile_cons_of_neg (by decide)
    simp only [Lib.strtoul, hstart, List.head?_cons, true_or, if_true, List.tail_cons, hprefix,
      if_false, htake, hdrop, h.ne_nil]

end Digits

/-- A number written with `%d` is read back modulo the width of `unsigned long`. -/
theorem strtoul_fmtInt {w : ℕ} {z : ℤ} (hfit : z.natAbs < 2 ^ w) :
    ((strtoul w 10 (fmtInt z)).1 : ℤ) = z % 2 ^ w ∧ (strtoul w 10 (fmtInt z)).2 = [] := by
  have hrun : Run 10 (dec z.natAbs) [] :=
    ⟨dec_ne_nil _, fun c hc => digitVal_lt_ten (isdigit_of_mem_dec hc), by simp⟩
  have hread := hrun.strtoul (w := w) (by decide)
  rw [List.append_nil, numeral_dec, if_neg (not_le.mpr hfit), if_neg (not_le.mpr hfit)] at hread
  have hcast : ((2 ^ w : ℕ) : ℤ) = 2 ^ w := by push_cast; rfl
  rcases lt_or_ge z 0 with hneg | hpos
  · rw [fmtInt, if_pos hneg, hread.2]
    refine ⟨?_, rfl⟩
    have habs : (z.natAbs : ℤ) = -z := by omega
    rw [Int.natCast_emod, Nat.cast_sub hfit.le, habs, hcast, sub_neg_eq_add, add_comm,
      Int.add_emod_right]
  · rw [fmtInt, if_neg (by omega), hread.1]
    refine ⟨?_, rfl⟩
    have habs : (z.natAbs : ℤ) = z := by omega
    rw [habs, Int.emod_eq_of_lt hpos (by rw [← hcast]; omega)]

/-- A number written with `%d` is read to its end in any base that has the decimal digits. -/
theorem strtoul_fmtInt_rest {w base : ℕ} (hten : 10 ≤ base) (hbase : base ≤ 36) (z : ℤ) :
    (strtoul w base (fmtInt z)).2 = [] := by
  have hrun : Run base (dec z.natAbs) [] :=
    ⟨dec_ne_nil _, fun c hc => (digitVal_lt_ten (isdigit_of_mem_dec hc)).trans_le hten, by simp⟩
  have hread := hrun.strtoul (w := w) hbase
  rw [List.append_nil] at hread
  rw [fmtInt]
  split_ifs
  · rw [hread.2]
  · rw [hread.1]

/-- A byte written with `%02X` is read back. -/
theorem strtoul_hex02 {w : ℕ} (hw : 8 ≤ w) (b : UInt8) {rest : Bytes}
    (hstop : ∀ c ∈ rest.head?, digitVal c = 36) :
    strtoul w 16 (hex02 b ++ rest) = (b.toNat, rest) := by
  have hrun : Run 16 (hex02 b) rest :=
    ⟨by simp [hex02], fun c hc => digitVal_of_mem_hex02 hc, hstop⟩
  have hfit : b.toNat < 2 ^ w := b.toNat_lt.trans_le (Nat.pow_le_pow_right (by decide) hw)
  have hread := (hrun.strtoul (w := w) (by decide)).1
  rw [numeral_hex02, if_neg (not_le.mpr hfit)] at hread
  exact hread

end NeonWrt.Lib
