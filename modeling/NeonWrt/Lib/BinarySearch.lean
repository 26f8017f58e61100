import Mathlib.Order.Lattice.Nat
import Mathlib.Order.Interval.Set.Basic

/-!
# Binary search

The search of a table with both of its bounds inclusive, as C programs write it for
unsigned indices: the upper bound cannot go below zero, so a step below the first entry
ends the search. Entries are read by a partial function, and the search faults where
there is none.
-/

namespace NeonWrt.Lib

variable {κ : Type*} [LinearOrder κ]

/-- The index of a key between `l` and `r`, if it is there; nothing if the search reads where no
entry is. -/
def binarySearch (key : ℕ → Option κ) (x : κ) (l r : ℕ) : Option (Option ℕ) :=
  if r < l then some none
  else
    match key (l + (r - l) / 2) with
    | none => none
    | some k =>
      if k = x then some (some (l + (r - l) / 2))
      else if x < k then
        if l + (r - l) / 2 = 0 then some none
        else binarySearch key x l (l + (r - l) / 2 - 1)
      else binarySearch key x (l + (r - l) / 2 + 1) r
termination_by r + 1 - l

/-- The entries between `l` and `r` that a search which ends at `i` meets before. -/
def middles (i l r : ℕ) : List ℕ :=
  if r < l then []
  else if l + (r - l) / 2 = i then []
  else if i < l + (r - l) / 2 then
    (l + (r - l) / 2) :: middles i l (l + (r - l) / 2 - 1)
  else (l + (r - l) / 2) :: middles i (l + (r - l) / 2 + 1) r
termination_by r + 1 - l

variable {key : ℕ → Option κ} {f : ℕ → κ} {x : κ} {l r n i : ℕ}

omit [LinearOrder κ] in
/-- The middle that is read is an entry of the table. -/
theorem middle_mem {k : κ} (hkey : ∀ j < n, key j = some (f j)) (hle : ¬ r < l) (hr : r < n)
    (hmid : key (l + (r - l) / 2) = some k) : l + (r - l) / 2 < n ∧ f (l + (r - l) / 2) = k := by
  have hm : l + (r - l) / 2 < n := by omega
  rw [hkey _ hm, Option.some.injEq] at hmid
  exact ⟨hm, hmid⟩

/-- The bounds close in on the only place of the key. -/
theorem binarySearch_of_mem (hkey : ∀ j < n, key j = some (f j))
    (hmono : StrictMonoOn f (Set.Iio n)) (hr : r < n) (hli : l ≤ i) (hir : i ≤ r) (hx : f i = x) :
    binarySearch key x l r = some (some i) := by
  have hi : i < n := lt_of_le_of_lt hir hr
  fun_induction binarySearch key x l r with
  | case1 l r hlt => omega
  | case2 l r hle hnone =>
    rw [hkey _ (by omega)] at hnone
    cases hnone
  | case3 l r hle hmid =>
    obtain ⟨hm, hk⟩ := middle_mem hkey hle hr hmid
    rw [hmono.injOn hm hi (hk.trans hx.symm)]
  | case4 l r hle k hmid hne hlt hzero =>
    obtain ⟨hm, hk⟩ := middle_mem hkey hle hr hmid
    rw [← hk, ← hx, hmono.lt_iff_lt hi hm] at hlt
    omega
  | case5 l r hle k hmid hne hlt hpos ih =>
    obtain ⟨hm, hk⟩ := middle_mem hkey hle hr hmid
    rw [← hk, ← hx, hmono.lt_iff_lt hi hm] at hlt
    exact ih (by omega) hli (by omega)
  | case6 l r hle k hmid hne hge ih =>
    obtain ⟨hm, hk⟩ := middle_mem hkey hle hr hmid
    have hlt : k < x := lt_of_le_of_ne (not_lt.mp hge) hne
    rw [← hk, ← hx, hmono.lt_iff_lt hm hi] at hlt
    exact ih hr (by omega) hir

/-- A key that is not between the bounds is not found. -/
theorem binarySearch_of_forall_ne (hkey : ∀ j < n, key j = some (f j)) (hr : r < n)
    (h : ∀ i, l ≤ i → i ≤ r → f i ≠ x) : binarySearch key x l r = some none := by
  fun_induction binarySearch key x l r with
  | case1 l r hlt => rfl
  | case2 l r hle hnone =>
    rw [hkey _ (by omega)] at hnone
    cases hnone
  | case3 l r hle hmid =>
    rw [hkey _ (by omega), Option.some.injEq] at hmid
    exact absurd hmid (h _ (by omega) (by omega))
  | case4 => rfl
  | case5 l r hle k hmid hne hlt hpos ih =>
    exact ih (by omega) fun i hli hir => h i hli (by omega)
  | case6 l r hle k hmid hne hge ih =>
    exact ih hr fun i hli hir => h i (by omega) hir

theorem binarySearch_ne_none (hkey : ∀ j < n, key j = some (f j)) (hr : r < n) :
    binarySearch key x l r ≠ none := by
  fun_induction binarySearch key x l r with
  | case1 => simp
  | case2 l r hle hnone =>
    rw [hkey _ (by omega)] at hnone
    cases hnone
  | case3 => simp
  | case4 => simp
  | case5 l r hle k hmid hne hlt hpos ih => exact ih (by omega)
  | case6 l r hle k hmid hne hge ih => exact ih hr

theorem middles_of_eq (h : l + (r - l) / 2 = i) : middles i l r = [] := by
  rw [middles]
  split_ifs
  · rfl
  · rfl

theorem middles_of_lt (hle : ¬ r < l) (h : i < l + (r - l) / 2) :
    middles i l r = (l + (r - l) / 2) :: middles i l (l + (r - l) / 2 - 1) := by
  rw [middles, if_neg hle, if_neg (Nat.ne_of_gt h), if_pos h]

theorem middles_of_gt (hle : ¬ r < l) (h : l + (r - l) / 2 < i) :
    middles i l r = (l + (r - l) / 2) :: middles i (l + (r - l) / 2 + 1) r := by
  rw [middles, if_neg hle, if_neg (Nat.ne_of_lt h), if_neg (Nat.lt_asymm h)]

/-- In a table in any order an entry is found if no entry met before it leads to the other
side. -/
theorem binarySearch_eq_some_iff (hkey : ∀ j < n, key j = some (f j)) (hr : r < n) :
    binarySearch key x l r = some (some i) ↔
      l ≤ i ∧ i ≤ r ∧ f i = x ∧ ∀ a ∈ middles i l r, (i < a → x < f a) ∧ (a < i → f a < x) := by
  fun_induction binarySearch key x l r with
  | case1 l r hlt =>
    refine iff_of_false (by simp) ?_
    rintro ⟨hl, hr, -⟩
    omega
  | case2 l r hle hnone =>
    rw [hkey _ (by omega)] at hnone
    cases hnone
  | case3 l r hle hmid =>
    obtain ⟨-, hk⟩ := middle_mem hkey hle hr hmid
    rw [Option.some.injEq, Option.some.injEq]
    constructor
    · rintro rfl
      rw [middles_of_eq rfl]
      exact ⟨by omega, by omega, hk, by simp⟩
    · -- the search ends here, so that no other entry may be meant
      rintro ⟨-, -, -, hall⟩
      rcases lt_trichotomy i (l + (r - l) / 2) with hlt | heq | hgt
      · rw [middles_of_lt hle hlt] at hall
        exact absurd ((hall _ (.head _)).1 hlt) (hk ▸ lt_irrefl _)
      · exact heq.symm
      · rw [middles_of_gt hle hgt] at hall
        exact absurd ((hall _ (.head _)).2 hgt) (hk ▸ lt_irrefl _)
  | case4 l r hle k hmid hne hlt hzero =>
    obtain ⟨-, hk⟩ := middle_mem hkey hle hr hmid
    refine iff_of_false (by simp) ?_
    rintro ⟨-, -, hi, hall⟩
    rcases Nat.eq_or_lt_of_le (Nat.zero_le i) with heq | hgt
    · exact hne (hk.symm.trans ((congrArg f (hzero.trans heq)).trans hi))
    · rw [← hzero] at hgt
      rw [middles_of_gt hle hgt] at hall
      exact absurd ((hall _ (.head _)).2 hgt) (hk ▸ not_lt.mpr hlt.le)
  | case5 l r hle k hmid hne hlt hpos ih =>
    obtain ⟨-, hk⟩ := middle_mem hkey hle hr hmid
    refine Iff.trans (ih (by omega)) ?_
    rcases lt_trichotomy i (l + (r - l) / 2) with hside | heq | hside
    · rw [middles_of_lt hle hside, List.forall_mem_cons, hk]
      constructor
      · rintro ⟨hl, hle', hi, hall⟩
        exact ⟨hl, by omega, hi, ⟨fun _ => hlt, fun h => absurd h (Nat.lt_asymm hside)⟩, hall⟩
      · rintro ⟨hl, hle', hi, -, hall⟩
        exact ⟨hl, by omega, hi, hall⟩
    · refine iff_of_false ?_ ?_
      · rintro ⟨hl, hle', -⟩
        omega
      · rintro ⟨-, -, hi, -⟩
        exact hne (hk.symm.trans ((congrArg f heq.symm).trans hi))
    · rw [middles_of_gt hle hside, List.forall_mem_cons, hk]
      refine iff_of_false ?_ ?_
      · rintro ⟨-, hle', -⟩
        omega
      · rintro ⟨-, -, -, ⟨-, hlow⟩, -⟩
        exact absurd (hlow hside) (not_lt.mpr hlt.le)
  | case6 l r hle k hmid hne hge ih =>
    obtain ⟨-, hk⟩ := middle_mem hkey hle hr hmid
    have hlt : k < x := lt_of_le_of_ne (not_lt.mp hge) hne
    refine Iff.trans (ih hr) ?_
    rcases lt_trichotomy i (l + (r - l) / 2) with hside | heq | hside
    · rw [middles_of_lt hle hside, List.forall_mem_cons, hk]
      refine iff_of_false ?_ ?_
      · rintro ⟨hl, -⟩
        omega
      · rintro ⟨-, -, -, ⟨hhigh, -⟩, -⟩
        exact hge (hhigh hside)
    · refine iff_of_false ?_ ?_
      · rintro ⟨hl, -⟩
        omega
      · rintro ⟨-, -, hi, -⟩
        exact hne (hk.symm.trans ((congrArg f heq.symm).trans hi))
    · rw [middles_of_gt hle hside, List.forall_mem_cons, hk]
      constructor
      · rintro ⟨hl, hle', hi, hall⟩
        exact ⟨by omega, hle', hi, ⟨fun h => absurd h (Nat.lt_asymm hside), fun _ => hlt⟩, hall⟩
      · rintro ⟨hl, hle', hi, -, hall⟩
        exact ⟨by omega, hle', hi, hall⟩

end NeonWrt.Lib
