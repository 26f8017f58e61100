import NeonWrt.Uci.Manifest

/-!
# Package lists

The watch loop collects changed packages in a comma-separated string of at most
4095 bytes, `csv_add_unique` adds a name that `csv_contains` does not find, and
`translator_matches_packages` looks the declared packages of a translator up in
it. `csv_contains` works on a copy of 2048 bytes and finds nothing in a longer
string, so from 2048 bytes on names are added again, and match nothing.

The string that the additions leave is the joined list `added`, which differs
from the list of distinct names only from the point on where that list, joined,
reaches 2048 bytes.
-/

namespace NeonWrt.Uci

open Lib

/-- The size of the copies that the lists are searched through. -/
def searchSize : ℕ := 2048

/-- `MAX_CSV`. -/
def maxCsv : ℕ := 4096

/-- The trimmed names of a comma-separated list. -/
def csvNames (csv : Bytes) : List Bytes := (strtok comma csv).map trim

/-- `csv_contains`. -/
def csvContains (csv needle : Bytes) : Bool :=
  if searchSize ≤ csv.length then false else (csvNames csv).contains needle

/-- `csv_add_unique`: whether it succeeds, and the string it leaves. -/
def csvAddUnique (size : ℕ) (csv value : Bytes) : Bool × Bytes :=
  if !packageNameValid value then (false, csv)
  else if csvContains csv value then (true, csv)
  else
    let used := csv.length
    let need := value.length + (if used ≠ 0 then 1 else 0) + 1
    if used + need > size then (false, csv)
    else (true, (if used ≠ 0 then csv ++ [comma] else csv) ++ value)

/-- `translator_matches_packages`. -/
def translatorMatchesPackages (t : Translator) (changed : Bytes) : Bool :=
  if changed = [] ∨ changed = ascii "*" then true
  else if searchSize ≤ t.packages.bytes.length then false
  else (csvNames t.packages.bytes).any (csvContains changed)

/-- The translator lists the package. -/
def Translator.Declares (t : Translator) (p : Bytes) : Prop := p ∈ csvNames t.packages.bytes

instance (t : Translator) (p : Bytes) : Decidable (t.Declares p) :=
  inferInstanceAs (Decidable (p ∈ csvNames t.packages.bytes))

/-- The names added one by one; `none` unless every addition succeeds. -/
def csvAddAll (size : ℕ) : List Bytes → Bytes → Option Bytes
  | [], csv => some csv
  | n :: rest, csv =>
    match csvAddUnique size csv n with
    | (true, csv') => csvAddAll size rest csv'
    | (false, _) => none

/-- A list of names, written as the daemon writes it. -/
def csvOf (names : List Bytes) : Bytes := join comma names

/-- Every name is a valid package name. -/
def AllValid (names : List Bytes) : Prop := ∀ n ∈ names, packageNameValid n = true

variable {n p : Bytes} {names : List Bytes}

theorem packageChar_ne_comma {c : UInt8} (h : packageChar c = true) : c ≠ comma := by
  rintro rfl
  exact absurd h (by decide)

theorem isspace_eq_false_of_packageChar {c : UInt8} (h : packageChar c = true) :
    isspace c = false := by
  simp only [packageChar, Bool.or_eq_true, beq_iff_eq] at h
  rcases h with (h | rfl) | rfl
  · exact isspace_eq_false_of_isalnum h
  · decide
  · decide

theorem trim_of_valid (h : packageNameValid n = true) : trim n = n := by
  apply trim_eq_self
  intro c hc
  exact isspace_eq_false_of_packageChar ((packageNameValid_iff.mp h).2 c hc)

theorem ne_nil_and_comma_notMem (h : packageNameValid n = true) : n ≠ [] ∧ comma ∉ n := by
  obtain ⟨hne, hchars⟩ := packageNameValid_iff.mp h
  exact ⟨hne, fun hc => packageChar_ne_comma (hchars _ hc) rfl⟩

/-- The names of a joined list are the list. -/
theorem csvNames_csvOf (h : AllValid names) : csvNames (csvOf names) = names := by
  rw [csvNames, csvOf, strtok_join fun w hw => ne_nil_and_comma_notMem (h w hw)]
  calc names.map trim = names.map id := List.map_congr_left fun w hw => trim_of_valid (h w hw)
    _ = names := List.map_id _

theorem csvOf_eq_nil_iff (h : AllValid names) : csvOf names = [] ↔ names = [] :=
  join_eq_nil_iff fun w hw => (ne_nil_and_comma_notMem (h w hw)).1

/-- A joined list is never the wildcard of the daemon. -/
theorem csvOf_ne_star (h : AllValid names) : csvOf names ≠ ascii "*" := by
  intro hstar
  have hmem : (42 : UInt8) ∈ join comma names := by
    rw [csvOf] at hstar
    rw [hstar]
    decide
  rcases mem_join hmem with hc | ⟨w, hw, hc⟩
  · exact absurd hc (by decide)
  · exact absurd ((packageNameValid_iff.mp (h w hw)).2 _ hc) (by decide)

theorem length_csvOf_concat_le (names : List Bytes) (n : Bytes) :
    (csvOf names).length ≤ (csvOf (names ++ [n])).length :=
  length_join_concat comma names n

/-- `csv_contains` finds the names of a joined list that it can copy. -/
theorem csvContains_csvOf (h : AllValid names) :
    csvContains (csvOf names) n = true ↔ (csvOf names).length < searchSize ∧ n ∈ names := by
  rw [csvContains, csvNames_csvOf h]
  by_cases hsize : searchSize ≤ (csvOf names).length
  · simp [hsize, not_lt.mpr hsize]
  · simp [hsize, not_le.mp hsize]

/-- The list after a successful addition. -/
def addTo (names : List Bytes) (n : Bytes) : List Bytes :=
  if (csvOf names).length < searchSize ∧ n ∈ names then names else names ++ [n]

/-- The one spec lemma for `csv_add_unique`: on a joined list it fails for names that
are not valid or do not fit, and otherwise leaves the longer list. -/
theorem csvAddUnique_csvOf {size : ℕ} (h : AllValid names) (hn : packageNameValid n = true)
    (hsize : (csvOf names).length < size) :
    csvAddUnique size (csvOf names) n =
      if (csvOf (addTo names n)).length < size then (true, csvOf (addTo names n))
      else (false, csvOf names) := by
  by_cases hfound : csvContains (csvOf names) n = true
  · have hto : addTo names n = names := by rw [addTo, if_pos ((csvContains_csvOf h).mp hfound)]
    simp [csvAddUnique, hn, hfound, hto, hsize]
  · have hto : addTo names n = names ++ [n] := by
      rw [addTo, if_neg (mt (csvContains_csvOf h).mpr hfound)]
    by_cases hnil : names = []
    · subst hnil
      have hone : csvOf ([] ++ [n]) = n := by simp [csvOf, join]
      simp only [csvAddUnique, hn, hfound, hto, hone, Bool.not_true, Bool.false_eq_true, if_false]
      simp only [csvOf, join_nil, List.length_nil, ne_eq, not_true_eq_false, if_false,
        List.nil_append]
      split_ifs <;> first | rfl | omega
    · have hne : (csvOf names).length ≠ 0 := by
        rw [ne_eq, List.length_eq_zero_iff]
        exact mt (csvOf_eq_nil_iff h).mp hnil
      have hjoin : csvOf (names ++ [n]) = csvOf names ++ [comma] ++ n := by
        rw [csvOf, csvOf, join_concat, if_neg hnil]
      have hlen : (csvOf names ++ [comma] ++ n).length = (csvOf names).length + n.length + 1 := by
        simp
        omega
      simp only [csvAddUnique, hn, hfound, hto, hjoin, hlen, hne, Bool.not_true,
        Bool.false_eq_true, if_false, ne_eq, not_false_eq_true, if_true]
      split_ifs <;> first | rfl | omega

theorem csvAddUnique_invalid {size : ℕ} {csv : Bytes} (hn : ¬ packageNameValid n = true) :
    csvAddUnique size csv n = (false, csv) := by
  simp [csvAddUnique, hn]

/-- The list after all additions. -/
def added (names : List Bytes) : List Bytes := names.foldl addTo []

/-- The names without repetitions, in the order of their first occurrence. -/
def distinct (names : List Bytes) : List Bytes :=
  names.foldl (fun seen n => if n ∈ seen then seen else seen ++ [n]) []

/-- A name that is repeated after the distinct names before it have filled the
search buffer. -/
def LateRepeat (names : List Bytes) : Prop :=
  ∃ before n after, names = before ++ n :: after ∧ n ∈ before ∧
    searchSize ≤ (csvOf (distinct before)).length

theorem added_concat (names : List Bytes) (n : Bytes) :
    added (names ++ [n]) = addTo (added names) n := by
  rw [added, List.foldl_append]
  rfl

theorem distinct_concat (names : List Bytes) (n : Bytes) :
    distinct (names ++ [n]) =
      if n ∈ distinct names then distinct names else distinct names ++ [n] := by
  rw [distinct, List.foldl_append]
  rfl

theorem mem_addTo : p ∈ addTo names n ↔ p ∈ names ∨ p = n := by
  unfold addTo
  split_ifs with h
  · constructor
    · exact Or.inl
    · rintro (hp | rfl)
      · exact hp
      · exact h.2
  · simp

theorem AllValid.addTo (h : AllValid names) (hn : packageNameValid n = true) :
    AllValid (addTo names n) := by
  intro w hw
  rcases mem_addTo.mp hw with hw | rfl
  · exact h w hw
  · exact hn

theorem mem_added : p ∈ added names ↔ p ∈ names := by
  induction names using List.reverseRecOn with
  | nil => rfl
  | append_singleton names n ih => rw [added_concat, mem_addTo, ih]; simp

theorem length_csvOf_addTo_le (names : List Bytes) (n : Bytes) :
    (csvOf names).length ≤ (csvOf (addTo names n)).length := by
  unfold addTo
  split_ifs
  · exact le_rfl
  · exact length_csvOf_concat_le names n

theorem length_csvOf_foldl_addTo_le (names before : List Bytes) :
    (csvOf before).length ≤ (csvOf (names.foldl addTo before)).length := by
  induction names generalizing before with
  | nil => exact le_rfl
  | cons n rest ih => exact (length_csvOf_addTo_le before n).trans (ih _)

/-- The additions all succeed exactly if the names are valid and fit, and they leave
the joined list. -/
theorem csvAddAll_eq_some_iff {size : ℕ} {before : List Bytes} {csv : Bytes}
    (hbefore : AllValid before) (hsize : (csvOf before).length < size) :
    csvAddAll size names (csvOf before) = some csv ↔
      AllValid names ∧ csv = csvOf (names.foldl addTo before) ∧ csv.length < size := by
  induction names generalizing before with
  | nil =>
    rw [csvAddAll, Option.some_inj]
    constructor
    · rintro rfl
      exact ⟨by simp [AllValid], rfl, hsize⟩
    · rintro ⟨-, rfl, -⟩
      rfl
  | cons n rest ih =>
    by_cases hn : packageNameValid n = true
    · have hvalid : AllValid (n :: rest) ↔ AllValid rest := by simp [AllValid, hn]
      rw [csvAddAll, csvAddUnique_csvOf hbefore hn hsize, hvalid]
      by_cases hfits : (csvOf (addTo before n)).length < size
      · simp only [hfits, if_true]
        exact ih (hbefore.addTo hn) hfits
      · simp only [hfits, if_false, reduceCtorEq, false_iff]
        rintro ⟨-, rfl, hlen⟩
        exact hfits (lt_of_le_of_lt (length_csvOf_foldl_addTo_le rest _) hlen)
    · rw [csvAddAll, csvAddUnique_invalid hn]
      simp only [reduceCtorEq, false_iff]
      rintro ⟨hvalid, -⟩
      exact hn (hvalid n (by simp))

theorem length_csvOf_distinct_concat_le (names : List Bytes) (n : Bytes) :
    (csvOf (distinct names)).length ≤ (csvOf (distinct (names ++ [n]))).length := by
  rw [distinct_concat]
  split_ifs
  · exact le_rfl
  · exact length_csvOf_concat_le _ n

/-- As long as the distinct names fit, they are the list; and the list fits only then. -/
theorem added_eq_distinct (names : List Bytes) :
    ((csvOf (distinct names)).length < searchSize → added names = distinct names) ∧
      ((csvOf (added names)).length < searchSize ↔
        (csvOf (distinct names)).length < searchSize) := by
  induction names using List.reverseRecOn with
  | nil => exact ⟨fun _ => rfl, Iff.rfl⟩
  | append_singleton names n ih =>
    by_cases hfits : (csvOf (distinct names)).length < searchSize
    · -- Both lists are the same so far, and grow by the same rule.
      have heq : added (names ++ [n]) = distinct (names ++ [n]) := by
        rw [added_concat, distinct_concat, ih.1 hfits, addTo]
        simp [hfits]
      exact ⟨fun _ => heq, by rw [heq]⟩
    · have hadded : ¬ (csvOf (added names)).length < searchSize := mt ih.2.mp hfits
      have hle := length_csvOf_distinct_concat_le names n
      have hle' := length_csvOf_addTo_le (added names) n
      rw [← added_concat] at hle'
      constructor
      · intro h
        exact absurd (lt_of_le_of_lt hle h) hfits
      · constructor
        · intro h
          exact absurd (lt_of_le_of_lt hle' h) hadded
        · intro h
          exact absurd (lt_of_le_of_lt hle h) hfits

theorem nodup_distinct (names : List Bytes) : (distinct names).Nodup := by
  induction names using List.reverseRecOn with
  | nil => exact List.nodup_nil
  | append_singleton names n ih =>
    rw [distinct_concat]
    split_ifs with hn
    · exact ih
    · rw [← List.concat_eq_append]
      exact (List.nodup_concat _ _).mpr ⟨hn, ih⟩

theorem distinct_of_nodup (h : names.Nodup) : distinct names = names := by
  induction names using List.reverseRecOn with
  | nil => rfl
  | append_singleton names n ih =>
    rw [← List.concat_eq_append] at h
    obtain ⟨hn, hnodup⟩ := (List.nodup_concat _ _).mp h
    rw [distinct_concat, ih hnodup, if_neg hn]

theorem length_csvOf_distinct_append_le (names more : List Bytes) :
    (csvOf (distinct names)).length ≤ (csvOf (distinct (names ++ more))).length := by
  induction more using List.reverseRecOn with
  | nil => simp
  | append_singleton more n ih =>
    rw [← List.append_assoc]
    exact ih.trans (length_csvOf_distinct_concat_le _ n)

/-- Adding to a list of distinct names leaves distinct names, as long as they fit. -/
theorem foldl_addTo_eq_distinct {more : List Bytes} (h : names.Nodup)
    (hfits : (csvOf (distinct (names ++ more))).length < searchSize) :
    more.foldl addTo names = distinct (names ++ more) := by
  have hnames : added names = names := by
    have hlen := lt_of_le_of_lt (length_csvOf_distinct_append_le names more) hfits
    rw [(added_eq_distinct names).1 hlen, distinct_of_nodup h]
  rw [← (added_eq_distinct _).1 hfits, added, List.foldl_append]
  exact congrArg (more.foldl addTo) hnames.symm

theorem lateRepeat_concat_iff (names : List Bytes) (n : Bytes) :
    LateRepeat (names ++ [n]) ↔
      LateRepeat names ∨ (n ∈ names ∧ searchSize ≤ (csvOf (distinct names)).length) := by
  constructor
  · rintro ⟨before, m, after, hsplit, hm, hlate⟩
    cases after using List.reverseRecOn with
    | nil =>
      obtain ⟨rfl, hmn⟩ := List.append_inj' hsplit rfl
      obtain rfl := (List.cons.inj hmn).1
      exact Or.inr ⟨hm, hlate⟩
    | append_singleton after k =>
      rw [← List.cons_append, ← List.append_assoc] at hsplit
      obtain ⟨rfl, -⟩ := List.append_inj' hsplit rfl
      exact Or.inl ⟨before, m, after, rfl, hm, hlate⟩
  · rintro (⟨before, m, after, rfl, hm, hlate⟩ | ⟨hm, hlate⟩)
    · exact ⟨before, m, after ++ [n], by simp, hm, hlate⟩
    · exact ⟨names, n, [], rfl, hm, hlate⟩

/-- Each name is in the list once exactly when none is repeated too late. -/
theorem nodup_added_iff (names : List Bytes) : (added names).Nodup ↔ ¬ LateRepeat names := by
  induction names using List.reverseRecOn with
  | nil => simp [added, LateRepeat]
  | append_singleton names n ih =>
    have hfits := (added_eq_distinct names).2
    rw [added_concat, lateRepeat_concat_iff, not_or, ← ih]
    simp only [addTo, mem_added, hfits]
    by_cases hn : n ∈ names
    · by_cases hsize : (csvOf (distinct names)).length < searchSize
      · simp [hn, hsize]
      · have hmem : n ∈ added names := mem_added.mpr hn
        simp only [hsize, false_and, if_false, hn, true_and, not_lt.mp hsize, not_true_eq_false,
          and_false, iff_false]
        intro hnodup
        exact List.disjoint_of_nodup_append hnodup hmem (List.mem_singleton_self n)
    · have hmem : n ∉ added names := mt mem_added.mp hn
      simp only [hn, and_false, if_false, false_and, not_false_eq_true, and_true,
        List.nodup_append, List.nodup_singleton, true_and, List.mem_singleton, and_iff_left_iff_imp]
      rintro - w hw _ rfl rfl
      exact hmem hw

/-- A translator matches a joined list exactly when the list can be searched and
the translator declares one of its names. -/
theorem translatorMatchesPackages_csvOf (t : Translator) (h : AllValid names)
    (hne : names ≠ []) :
    translatorMatchesPackages t (csvOf names) = true ↔
      (csvOf names).length < searchSize ∧ ∃ n ∈ names, t.Declares n := by
  have hempty : csvOf names ≠ [] := mt (csvOf_eq_nil_iff h).mp hne
  have hstar := csvOf_ne_star h
  have hpackages : ¬ searchSize ≤ t.packages.bytes.length := by
    have := t.packages.fits
    rw [searchSize]
    omega
  simp only [translatorMatchesPackages, hempty, hstar, or_self, if_false, hpackages,
    List.any_eq_true, csvContains_csvOf h, Translator.Declares]
  constructor
  · rintro ⟨p, hp, hsize, hmem⟩
    exact ⟨hsize, p, hmem, hp⟩
  · rintro ⟨hsize, p, hmem, hp⟩
    exact ⟨p, hp, hsize, hmem⟩

end NeonWrt.Uci
