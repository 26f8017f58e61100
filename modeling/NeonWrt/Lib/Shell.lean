import NeonWrt.Lib.Json
import Mathlib.Data.List.DropRight

/-!
# Words in the shell

The expansions that cut a word at a separator, and the integer comparison of
`test`. A pattern with one star after or before the separator removes a prefix or
a suffix; doubled, it removes the longest one.
-/

namespace NeonWrt.Lib.Shell

/-- The expansion `%%` with the separator and a star. -/
def beforeFirst (sep : UInt8) (w : Bytes) : Bytes := w.takeWhile (· ≠ sep)

/-- The expansion `#` with a star and the separator. -/
def afterFirst (sep : UInt8) (w : Bytes) : Bytes :=
  if sep ∈ w then (w.dropWhile (· ≠ sep)).tail else w

/-- The expansion `%` with the separator and a star. -/
def beforeLast (sep : UInt8) (w : Bytes) : Bytes :=
  if sep ∈ w then (w.rdropWhile (· ≠ sep)).dropLast else w

/-- The expansion `##` with a star and the separator. -/
def afterLast (sep : UInt8) (w : Bytes) : Bytes := w.rtakeWhile (· ≠ sep)

section Cut

variable {sep : UInt8} {front back : Bytes}

theorem beforeFirst_append (h : sep ∉ front) : beforeFirst sep (front ++ sep :: back) = front := by
  have hfront : ∀ x ∈ front, decide (x ≠ sep) = true := by
    intro x hx
    rw [decide_eq_true_eq]
    rintro rfl
    exact h hx
  rw [beforeFirst, List.takeWhile_append_of_pos hfront, List.takeWhile_cons_of_neg (by simp),
    List.append_nil]

theorem afterFirst_append (h : sep ∉ front) : afterFirst sep (front ++ sep :: back) = back := by
  have hfront : ∀ x ∈ front, decide (x ≠ sep) = true := by
    intro x hx
    rw [decide_eq_true_eq]
    rintro rfl
    exact h hx
  rw [afterFirst, if_pos (by simp), List.dropWhile_append_of_pos hfront,
    List.dropWhile_cons_of_neg (by simp), List.tail_cons]

theorem beforeLast_append (h : sep ∉ back) : beforeLast sep (front ++ sep :: back) = front := by
  have hcut := @afterFirst_append sep back.reverse front.reverse (by simpa using h)
  rw [afterFirst, if_pos (by simp)] at hcut
  rw [beforeLast, if_pos (by simp), List.rdropWhile, List.reverse_append, List.reverse_cons,
    List.append_assoc, List.singleton_append, List.dropLast_reverse, hcut, List.reverse_reverse]

theorem afterLast_append (h : sep ∉ back) : afterLast sep (front ++ sep :: back) = back := by
  have hcut := @beforeFirst_append sep back.reverse front.reverse (by simpa using h)
  rw [beforeFirst] at hcut
  rw [afterLast, List.rtakeWhile, List.reverse_append, List.reverse_cons, List.append_assoc,
    List.singleton_append, hcut, List.reverse_reverse]

end Cut

/-- The integer that `test` reads from an operand, with an optional sign and in 64 bits. -/
def number (s : Bytes) : Option ℤ :=
  let digits := if s.head? = some 45 ∨ s.head? = some 43 then s.tail else s
  let value : ℤ := if s.head? = some 45 then -Json.digitsValue digits else Json.digitsValue digits
  if digits ≠ [] ∧ digits.all isdigit ∧ -2 ^ 63 ≤ value ∧ value < 2 ^ 63 then some value else none

/-- `[ a -lt b ]`, which fails on operands that are no integers. -/
def lessThan (a b : Bytes) : Bool :=
  match number a, number b with
  | some x, some y => x < y
  | _, _ => false

theorem lessThan_iff {a b : Bytes} {x y : ℤ} (ha : number a = some x) (hb : number b = some y) :
    lessThan a b = true ↔ x < y := by
  rw [lessThan, ha, hb]
  exact decide_eq_true_iff

theorem not_mem_of_number {sep : UInt8} {s : Bytes} {x : ℤ} (h : number s = some x)
    (hsep : isdigit sep = false) (hminus : sep ≠ 45) (hplus : sep ≠ 43) : sep ∉ s := by
  intro hmem
  obtain ⟨⟨-, hdigits, -⟩, -⟩ := Option.ite_none_right_eq_some.mp h
  have hin : sep ∈ (if s.head? = some 45 ∨ s.head? = some 43 then s.tail else s) := by
    split_ifs with hhead
    · cases s with
      | nil => exact absurd hmem List.not_mem_nil
      | cons c s =>
        rcases List.mem_cons.mp hmem with rfl | htail
        · simp [hminus, hplus] at hhead
        · exact htail
    · exact hmem
  rw [List.all_eq_true] at hdigits
  rw [hdigits sep hin] at hsep
  exact absurd hsep (by decide)

section Fields

variable {w : Bytes} {ws : List Bytes}

/-- A character of the default `IFS`. -/
def isIfs (c : UInt8) : Bool := c == 32 || c == 9 || c == 10

/-- The words that an expansion without quotes is split into. -/
def fields (s : Bytes) : List Bytes := (s.splitOnP isIfs).filter (· ≠ [])

theorem splitOnP_join (hws : ∀ w ∈ ws, ∀ c ∈ w, isIfs c = false) (hne : ws ≠ []) :
    (join 32 ws).splitOnP isIfs = ws := by
  induction ws with
  | nil => exact absurd rfl hne
  | cons w ws ih =>
    obtain ⟨hw, hrest⟩ := List.forall_mem_cons.mp hws
    cases ws with
    | nil => simpa [join] using List.splitOnP_eq_singleton hw
    | cons v vs =>
      have hjoin : join 32 (w :: v :: vs) = w ++ 32 :: join 32 (v :: vs) := by
        simp [join, List.intercalate]
      rw [hjoin, List.splitOnP_append_cons_of_forall_mem hw 32 rfl, ih hrest (List.cons_ne_nil v vs)]

/-- Words without blanks are split where they were joined, and empty ones are lost. -/
theorem fields_join (hws : ∀ w ∈ ws, ∀ c ∈ w, isIfs c = false) :
    fields (join 32 ws) = ws.filter (· ≠ []) := by
  cases ws with
  | nil => rfl
  | cons w ws => rw [fields, splitOnP_join hws (List.cons_ne_nil w ws)]

end Fields

end NeonWrt.Lib.Shell
