import NeonWrt.Lib.Blanks
import NeonWrt.Lib.JavaScript
import Mathlib.Data.Rat.Floor
import Mathlib.Data.Int.Log

/-!
# JavaScript numbers

A number is a double: not a number, infinite, or rational with a significand of 53
bits. Decimal texts are rounded to the nearest double. The two zeros are not told
apart, which no comparison does either.
-/

namespace NeonWrt.Lib

/-- A number. -/
inductive JsNumber
  | nan
  | inf (neg : Bool)
  | fin (q : ℚ)
  deriving DecidableEq

/-- The nearest integer, and of two the even one. -/
def roundHalfEven (q : ℚ) : ℤ :=
  let r := q - ⌊q⌋
  if r < 1 / 2 ∨ r = 1 / 2 ∧ ⌊q⌋ % 2 = 0 then ⌊q⌋ else ⌊q⌋ + 1

/-- The nearest double. -/
def toDouble (q : ℚ) : JsNumber :=
  if q = 0 then .fin 0
  else
    let e : ℤ := max (Int.log 2 |q| - 52) (-1074)
    let v : ℚ := roundHalfEven (q / 2 ^ e) * 2 ^ e
    if 2 ^ 1024 ≤ |v| then .inf (q < 0) else .fin v

/-- `a <= b` -/
def JsNumber.le : JsNumber → JsNumber → Bool
  | .nan, _ | _, .nan => false
  | .inf neg, .inf neg' => neg || !neg'
  | .inf neg, .fin _ => neg
  | .fin _, .inf neg => !neg
  | .fin p, .fin q => p ≤ q

/-- `a == b` for numbers -/
def JsNumber.equals (a b : JsNumber) : Bool := a.le b && b.le a

/-- `[0-9]` -/
def isDigit (c : UInt16) : Bool := 48 ≤ c && c ≤ 57

/-- `[a-fA-F0-9]` -/
def isHexDigit (c : UInt16) : Bool := isDigit c || (97 ≤ c && c ≤ 102) || (65 ≤ c && c ≤ 70)

/-- The value of a digit up to `f`. -/
def digitValue (c : UInt16) : ℕ :=
  if isDigit c then c.toNat - 48 else if 97 ≤ c then c.toNat - 87 else c.toNat - 55

/-- The value of a sequence of digits. -/
def digitsValue (radix : ℕ) (l : JsString) : ℕ := l.foldl (fun n c => radix * n + digitValue c) 0

/-- The lower-case digit of a number below 16, and its value. -/
theorem digitValue_digitChar : ∀ d < 16,
    (isDigit (UInt16.ofNat (Nat.digitChar d).toNat) = true ∨
      (97 ≤ UInt16.ofNat (Nat.digitChar d).toNat ∧ UInt16.ofNat (Nat.digitChar d).toNat ≤ 102)) ∧
    digitValue (UInt16.ofNat (Nat.digitChar d).toNat) = d := by
  decide

theorem digitsValue_concat (radix : ℕ) (l : JsString) (c : UInt16) :
    digitsValue radix (l ++ [c]) = radix * digitsValue radix l + digitValue c := by
  rw [digitsValue, List.foldl_append]
  rfl

theorem length_hexDigits (k n : ℕ) : (hexDigits k n).length = k := by
  induction k generalizing n with
  | zero => rfl
  | succ k ih => rw [hexDigits, List.length_append, ih, List.length_singleton]

theorem mem_hexDigits {k n : ℕ} {c : UInt16} (h : c ∈ hexDigits k n) :
    isDigit c = true ∨ (97 ≤ c ∧ c ≤ 102) := by
  induction k generalizing n with
  | zero => exact absurd h (by simp [hexDigits])
  | succ k ih =>
    rcases List.mem_append.mp h with h | h
    · exact ih h
    · rw [List.mem_singleton.mp h]
      exact (digitValue_digitChar _ (Nat.mod_lt _ (by decide))).1

/-- The digits have the number as their value, as far as they go. -/
theorem digitsValue_hexDigits (k n : ℕ) : digitsValue 16 (hexDigits k n) = n % 16 ^ k := by
  induction k generalizing n with
  | zero => rw [pow_zero, Nat.mod_one]; rfl
  | succ k ih =>
    rw [hexDigits, digitsValue_concat, ih,
      (digitValue_digitChar _ (Nat.mod_lt n (by decide : 0 < 16))).2, pow_succ', Nat.mod_mul]
    omega

/-- The digits of a number in another base after its prefix. -/
def radixNumber (radix : ℕ) (l : JsString) : JsNumber :=
  if l ≠ [] ∧ l.all (fun c => isHexDigit c && digitValue c < radix) then
    toDouble (digitsValue radix l)
  else .nan

/-- A sign, and the rest. -/
def takeSign : JsString → Bool × JsString
  | 43 :: l => (false, l)
  | 45 :: l => (true, l)
  | l => (false, l)

/-- A decimal number with an exponent, without its sign. -/
def decimalValue (l : JsString) : Option ℚ :=
  let int := l.takeWhile isDigit
  let rest := l.dropWhile isDigit
  let frac := match rest with
    | 46 :: rest => rest.takeWhile isDigit
    | _ => []
  let rest := match rest with
    | 46 :: rest => rest.dropWhile isDigit
    | _ => rest
  let mantissa : ℚ := digitsValue 10 (int ++ frac) / 10 ^ frac.length
  if int ++ frac = [] then none
  else
    match rest with
    | [] => some mantissa
    | c :: rest =>
      if c ≠ 101 ∧ c ≠ 69 then none
      else
        let (neg, digits) := takeSign rest
        if digits = [] ∨ !digits.all isDigit then none
        else if neg then some (mantissa / 10 ^ digitsValue 10 digits)
        else some (mantissa * 10 ^ digitsValue 10 digits)

/-- `Number(s)` -/
def toNumber (s : JsString) : JsNumber :=
  match trimBy jsSpace s with
  | [] => .fin 0
  | 48 :: c :: rest =>
    if c = 120 ∨ c = 88 then radixNumber 16 rest
    else if c = 111 ∨ c = 79 then radixNumber 8 rest
    else if c = 98 ∨ c = 66 then radixNumber 2 rest
    else (decimalValue (48 :: c :: rest)).elim .nan toDouble
  | l =>
    let (neg, l) := takeSign l
    if l = units "Infinity" then .inf neg
    else (decimalValue l).elim .nan fun q => toDouble (if neg then -q else q)

/-- The sign itself. -/
def signPrefix : JsString → JsString
  | 43 :: _ => [43]
  | 45 :: _ => [45]
  | _ => []

/-- An exponent that the text starts with, if it has digits. -/
def exponentPrefix : JsString → JsString
  | [] => []
  | c :: l =>
    let digits := (takeSign l).2.takeWhile isDigit
    if (c = 101 ∨ c = 69) ∧ digits ≠ [] then c :: (signPrefix l ++ digits) else []

/-- The longest start of a text that is a decimal number, without its sign. -/
def decimalPrefix (l : JsString) : JsString :=
  l.takeWhile isDigit ++
    match l.dropWhile isDigit with
    | 46 :: rest => 46 :: (rest.takeWhile isDigit ++ exponentPrefix (rest.dropWhile isDigit))
    | rest => exponentPrefix rest

/-- `parseFloat(s)` -/
def parseFloat (s : JsString) : JsNumber :=
  let (neg, l) := takeSign (s.dropWhile jsSpace)
  if (units "Infinity").isPrefixOf l then .inf neg
  else (decimalValue (decimalPrefix l)).elim .nan fun q => toDouble (if neg then -q else q)

/-- A character of a decimal number. -/
def isDecimalChar (c : UInt16) : Bool :=
  isDigit c || c = 43 || c = 45 || c = 46 || c = 101 || c = 69

/-- The text is a decimal number, with or without a sign. -/
def IsDecimal (s : JsString) : Prop := (decimalValue (takeSign s).2).isSome

instance (s : JsString) : Decidable (IsDecimal s) := inferInstanceAs (Decidable (_ = _))

section Decimal

variable {l s : JsString} {c : UInt16}

theorem isDecimalChar_of_isDigit (h : isDigit c = true) : isDecimalChar c = true := by
  simp [isDecimalChar, h]

theorem mem_takeWhile_isDigit (h : c ∈ l.takeWhile isDigit) : isDecimalChar c = true :=
  isDecimalChar_of_isDigit (List.mem_takeWhile_imp h)

theorem signPrefix_append (l : JsString) : signPrefix l ++ (takeSign l).2 = l := by
  unfold signPrefix takeSign
  split <;> simp_all

theorem mem_signPrefix (h : c ∈ signPrefix l) : isDecimalChar c = true := by
  unfold signPrefix at h
  split at h
  · rw [List.mem_singleton.mp h]
    decide
  · rw [List.mem_singleton.mp h]
    decide
  · exact absurd h List.not_mem_nil

theorem mem_exponentPrefix (h : c ∈ exponentPrefix l) : isDecimalChar c = true := by
  unfold exponentPrefix at h
  split at h
  · exact absurd h List.not_mem_nil
  · simp only at h
    split_ifs at h with hexp
    · rcases List.mem_cons.mp h with rfl | h
      · rcases hexp.1 with rfl | rfl <;> decide
      · rcases List.mem_append.mp h with h | h
        · exact mem_signPrefix h
        · exact mem_takeWhile_isDigit h
    · exact absurd h List.not_mem_nil

theorem mem_decimalPrefix (h : c ∈ decimalPrefix l) : isDecimalChar c = true := by
  rcases List.mem_append.mp h with h | h
  · exact mem_takeWhile_isDigit h
  · split at h
    · rcases List.mem_cons.mp h with rfl | h
      · decide
      · rcases List.mem_append.mp h with h | h
        · exact mem_takeWhile_isDigit h
        · exact mem_exponentPrefix h
    · exact mem_exponentPrefix h

/-- What `decimalValue` takes for an exponent. -/
theorem exponentPrefix_eq {d : UInt16} (hd : ¬(d ≠ 101 ∧ d ≠ 69))
    (hdigits : ¬((takeSign l).2 = [] ∨ (!(takeSign l).2.all isDigit) = true)) :
    exponentPrefix (d :: l) = d :: l := by
  rw [not_or] at hdigits
  have hall : (takeSign l).2.takeWhile isDigit = (takeSign l).2 := by
    rw [List.takeWhile_eq_self_iff]
    simpa using hdigits.2
  rw [exponentPrefix]
  simp only [hall]
  rw [if_pos ⟨by tauto, hdigits.1⟩, signPrefix_append]

/-- A decimal number is its own longest start. -/
theorem decimalPrefix_eq (h : (decimalValue l).isSome) : decimalPrefix l = l := by
  have hexp : ∀ (mantissa : ℚ) (rest : JsString),
      (match rest with
        | [] => some mantissa
        | c :: rest =>
          if c ≠ 101 ∧ c ≠ 69 then none
          else
            let (neg, digits) := takeSign rest
            if digits = [] ∨ !digits.all isDigit then none
            else if neg then some (mantissa / 10 ^ digitsValue 10 digits)
            else some (mantissa * 10 ^ digitsValue 10 digits)).isSome → exponentPrefix rest = rest := by
    intro mantissa rest hsome
    cases rest with
    | nil => rfl
    | cons d rest =>
      simp only at hsome
      by_cases hd : d ≠ 101 ∧ d ≠ 69
      · simp [hd] at hsome
      · rw [if_neg hd] at hsome
        by_cases hdigits : (takeSign rest).2 = [] ∨ (!(takeSign rest).2.all isDigit) = true
        · rw [if_pos hdigits] at hsome
          cases hsome
        · exact exponentPrefix_eq hd hdigits
  have hsplit := List.takeWhile_append_dropWhile (p := isDigit) (l := l)
  unfold decimalValue at h
  unfold decimalPrefix
  generalize l.takeWhile isDigit = int at h hsplit
  generalize l.dropWhile isDigit = rest at h hsplit
  rw [← hsplit]
  congr 1
  simp only at h
  split
  next rest' =>
    simp only at h
    split_ifs at h with hnil
    · cases h
    · rw [hexp _ _ h, List.takeWhile_append_dropWhile]
  next hdot =>
    split_ifs at h with hnil
    · cases h
    · have hself := hexp _ _ h
      split at hself
      next rest' => exact absurd rfl (hdot rest')
      next => exact hself

theorem decimalChar_of_isDecimal (h : IsDecimal s) (hc : c ∈ s) : isDecimalChar c = true := by
  rw [← signPrefix_append s, List.mem_append, ← decimalPrefix_eq h] at hc
  rcases hc with hc | hc
  · exact mem_signPrefix hc
  · exact mem_decimalPrefix hc

theorem ne_nil_of_isDecimal (h : IsDecimal s) : s ≠ [] := by
  rintro rfl
  exact absurd h (by decide +kernel)

/-- Nothing that is trimmed, and no letter but those of exponents. -/
theorem space_of_decimalChar : ∀ c, isDecimalChar c = true → jsSpace c = false ∧
    c ∉ units "xXoObBI" := by
  intro c h
  have hletters : units "xXoObBI" = [120, 88, 111, 79, 98, 66, 73] := by decide
  simp only [isDecimalChar, Bool.or_eq_true, decide_eq_true_eq] at h
  rw [hletters]
  rcases h with ((((hdigit | rfl) | rfl) | rfl) | rfl) | rfl
  · simp only [isDigit, Bool.and_eq_true, decide_eq_true_eq, UInt16.le_iff_toNat_le,
      UInt16.reduceToNat] at hdigit
    simp only [jsSpace, Bool.or_eq_false_iff, Bool.and_eq_false_iff, decide_eq_false_iff_not,
      beq_eq_false_iff_ne, ne_eq, UInt16.le_iff_toNat_le, ← UInt16.toNat_inj, UInt16.reduceToNat,
      List.mem_cons, List.not_mem_nil, or_false]
    omega
  all_goals decide

theorem toDouble_ne_nan (q : ℚ) : toDouble q ≠ .nan := by
  unfold toDouble
  split_ifs
  · simp
  · simp only
    split_ifs <;> simp

theorem trimBy_eq_self {p : UInt16 → Bool} (h : ∀ c ∈ s, p c = false) : trimBy p s = s := by
  have htrim : trimBy p ([] ++ s ++ []) = s :=
    trimBy_eq_of_append (by simp) (by simp) (fun c hc => h c (List.mem_of_mem_head? hc))
      fun c hc => h c (List.mem_of_mem_getLast? hc)
  rwa [List.nil_append, List.append_nil] at htrim

/-- A text is no number if it starts neither like one nor like `Infinity`. -/
theorem toNumber_eq_nan (hdigit : isDigit c = false) (hc : c ∉ units "+-.I")
    (hspace : jsSpace c = false) (hlast : ∀ d ∈ (c :: l).getLast?, jsSpace d = false) :
    toNumber (c :: l) = .nan := by
  have hstart : units "+-.I" = [43, 45, 46, 73] := by decide
  rw [hstart] at hc
  simp only [List.mem_cons, List.not_mem_nil, or_false, not_or] at hc
  obtain ⟨hplus, hminus, hdot, hinf⟩ := hc
  have htrim : trimBy jsSpace (c :: l) = c :: l := by
    have htrim : trimBy jsSpace ([] ++ (c :: l) ++ []) = c :: l :=
      trimBy_eq_of_append (by simp) (by simp) (by rintro d ⟨⟩; exact hspace) hlast
    rwa [List.nil_append, List.append_nil] at htrim
  have hzero : c ≠ 48 := by
    rintro rfl
    exact absurd hdigit (by decide)
  have hdecimal : decimalValue (c :: l) = none := by simp [decimalValue, hdigit, hdot]
  have hne : c :: l ≠ units "Infinity" := by
    intro heq
    have hhead : (units "Infinity").head? = some 73 := by decide
    rw [← heq] at hhead
    exact hinf (Option.some.inj hhead)
  have hsign : takeSign (c :: l) = (false, c :: l) := by simp [takeSign, hplus, hminus]
  rw [toNumber, htrim]
  simp [hzero, hsign, hne, hdecimal]

/-- On decimal texts `Number` and `parseFloat` agree. -/
theorem parseFloat_eq_toNumber (h : IsDecimal s) : parseFloat s = toNumber s ∧ toNumber s ≠ .nan := by
  obtain ⟨q, hq⟩ := Option.isSome_iff_exists.mp h
  have hchar : ∀ c ∈ s, jsSpace c = false ∧ c ∉ units "xXoObBI" := fun c hc =>
    space_of_decimalChar c (decimalChar_of_isDecimal h hc)
  have hinf : ¬(units "Infinity").isPrefixOf (takeSign s).2 := by
    intro hpre
    have hmem : (73 : UInt16) ∈ (takeSign s).2 :=
      (List.isPrefixOf_iff_prefix.mp hpre).subset (by decide)
    have : (73 : UInt16) ∈ s := by
      rw [← signPrefix_append s]
      exact List.mem_append_right _ hmem
    exact (hchar 73 this).2 (by decide)
  have hfloat : parseFloat s = toDouble (if (takeSign s).1 then -q else q) := by
    have hdrop : s.dropWhile jsSpace = s := by
      rw [List.dropWhile_eq_self_iff]
      intro hlt
      simp [(hchar s[0] (List.getElem_mem hlt)).1]
    simp only [parseFloat, hdrop, if_neg hinf, decimalPrefix_eq h, hq]
    rfl
  have hnumber : toNumber s = toDouble (if (takeSign s).1 then -q else q) := by
    rw [toNumber, trimBy_eq_self fun c hc => (hchar c hc).1]
    split
    · exact absurd rfl (ne_nil_of_isDecimal h)
    next c rest =>
      have hc : c ∉ units "xXoObBI" := (hchar c (by simp)).2
      have hletters : units "xXoObBI" = [120, 88, 111, 79, 98, 66, 73] := by decide
      rw [hletters] at hc
      simp only [List.mem_cons, List.not_mem_nil, or_false, not_or] at hc
      have hq' : decimalValue (48 :: c :: rest) = some q := hq
      simp [hc, hq', takeSign]
    next =>
      have hne : (takeSign s).2 ≠ units "Infinity" := by
        intro heq
        exact hinf (by rw [heq]; decide)
      simp only [if_neg hne, hq]
      rfl
  exact ⟨hfloat.trans hnumber.symm, hnumber ▸ toDouble_ne_nan _⟩

end Decimal

end NeonWrt.Lib
