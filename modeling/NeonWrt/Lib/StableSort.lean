import Mathlib.Data.List.Sort

/-!
# Stable sorting by a key

A sort by a key that keeps the order of elements with equal keys has one result: the
sorted list whose elements of each key stand in the order of the input. This decides
when two inputs in different orders are sorted alike.
-/

namespace NeonWrt.Lib

variable {α β κ : Type*} [LinearOrder κ]

/-- The elements in ascending order of their keys. -/
def sortOn (key : α → κ) (l : List α) : List α := l.insertionSort fun a b => key a ≤ key b

section SortOn

variable {key : α → κ} {l m : List α}

instance keyLe_total : Std.Total fun a b : α => key a ≤ key b := ⟨fun a b => le_total (key a) (key b)⟩

instance keyLe_trans : IsTrans α fun a b => key a ≤ key b := ⟨fun _ _ _ hab hbc => hab.trans hbc⟩

theorem sortOn_perm : (sortOn key l).Perm l := List.perm_insertionSort _ l

theorem pairwise_sortOn : (sortOn key l).Pairwise fun a b => key a ≤ key b :=
  List.pairwise_insertionSort _ l

/-- Elements with the same key keep their order. -/
theorem filter_sortOn (k : κ) :
    (sortOn key l).filter (key · = k) = l.filter (key · = k) := by
  -- they stand in the sorted list as they stood, and there are no more of them
  have hpair : (l.filter (key · = k)).Pairwise fun a b => key a ≤ key b := by
    refine List.Pairwise.imp_of_mem (R := fun _ _ => True) ?_
      (List.pairwise_of_forall fun _ _ => trivial)
    intro a b ha hb _
    have hka : key a = k := by simpa using (List.mem_filter.mp ha).2
    have hkb : key b = k := by simpa using (List.mem_filter.mp hb).2
    rw [hka, hkb]
  have hsub : (l.filter (key · = k)).Sublist (sortOn key l) :=
    List.sublist_insertionSort hpair List.filter_sublist
  have hfilter := hsub.filter (key · = k)
  rw [List.filter_filter] at hfilter
  simp only [Bool.and_self] at hfilter
  exact (hfilter.eq_of_length (sortOn_perm.filter _).length_eq.symm).symm

/-- Sorted lists are equal when their elements of each key are. -/
theorem eq_of_filter_eq (hl : l.Pairwise fun a b => key a ≤ key b)
    (hm : m.Pairwise fun a b => key a ≤ key b)
    (h : ∀ k, l.filter (key · = k) = m.filter (key · = k)) : l = m := by
  have hmem : ∀ c, c ∈ l ↔ c ∈ m := by
    intro c
    have hc := h (key c)
    have hfilter : ∀ n : List α, c ∈ n ↔ c ∈ n.filter (key · = key c) := by simp
    rw [hfilter l, hfilter m, hc]
  induction l generalizing m with
  | nil =>
    cases m with
    | nil => rfl
    | cons b m => exact absurd ((hmem b).mpr (by simp)) (by simp)
  | cons a l ih =>
    cases m with
    | nil => exact absurd ((hmem a).mp (by simp)) (by simp)
    | cons b m =>
      obtain ⟨hla, hl'⟩ := List.pairwise_cons.mp hl
      obtain ⟨hmb, hm'⟩ := List.pairwise_cons.mp hm
      -- both heads have the smallest key
      have hab : key a ≤ key b := by
        rcases List.mem_cons.mp ((hmem b).mpr (by simp)) with hb | hb
        · rw [hb]
        · exact hla b hb
      have hba : key b ≤ key a := by
        rcases List.mem_cons.mp ((hmem a).mp (by simp)) with ha | ha
        · rw [ha]
        · exact hmb a ha
      have hkey : key b = key a := le_antisymm hba hab
      have hhead := h (key a)
      rw [List.filter_cons_of_pos (by simp), List.filter_cons_of_pos (by simp [hkey])] at hhead
      obtain ⟨rfl, -⟩ := List.cons.inj hhead
      have hrest : ∀ k, l.filter (key · = k) = m.filter (key · = k) := by
        intro k
        have hk := h k
        by_cases hak : key a = k
        · rw [List.filter_cons_of_pos (by simpa using hak),
            List.filter_cons_of_pos (by simpa using hak)] at hk
          exact (List.cons.inj hk).2
        · rwa [List.filter_cons_of_neg (by simpa using hak),
            List.filter_cons_of_neg (by simpa using hak)] at hk
      rw [ih hl' hm' hrest fun c => ?_]
      have hfilter : ∀ n : List α, c ∈ n ↔ c ∈ n.filter (key · = key c) := by simp
      rw [hfilter l, hfilter m, hrest]

/-- The sorted list in which elements of each key stand as in the input is the result. -/
theorem sortOn_eq_iff : sortOn key l = m ↔
    (m.Pairwise fun a b => key a ≤ key b) ∧
      ∀ k, m.filter (key · = k) = l.filter (key · = k) := by
  constructor
  · rintro rfl
    exact ⟨pairwise_sortOn, filter_sortOn⟩
  · rintro ⟨hm, h⟩
    exact eq_of_filter_eq pairwise_sortOn hm fun k => (filter_sortOn k).trans (h k).symm

/-- Two parts that have no key in common may change places. -/
theorem sortOn_append_comm (h : ∀ a ∈ l, ∀ b ∈ m, key a ≠ key b) :
    sortOn key (l ++ m) = sortOn key (m ++ l) := by
  rw [sortOn_eq_iff]
  refine ⟨pairwise_sortOn, fun k => ?_⟩
  rw [filter_sortOn, List.filter_append, List.filter_append]
  by_cases hl : l.filter (key · = k) = []
  · rw [hl, List.append_nil, List.nil_append]
  · -- where one part has the key, the other has not
    obtain ⟨a, ha⟩ := List.exists_mem_of_ne_nil _ hl
    obtain ⟨hal, hak⟩ := List.mem_filter.mp ha
    have hm : m.filter (key · = k) = [] := by
      refine List.filter_eq_nil_iff.mpr fun b hb hbk => h a hal b hb ?_
      simp only [decide_eq_true_eq] at hak hbk
      rw [hak, hbk]
    rw [hm, List.append_nil, List.nil_append]

/-- When one part of the input was reordered, and the rest is where it belongs, the sort puts the
part back. -/
theorem sortOn_append_eq {l' : List α} (hperm : l'.Perm l)
    (hl : l.Pairwise fun a b => key a < key b) (hm : m.Pairwise fun a b => key a ≤ key b)
    (hlm : ∀ a ∈ l, ∀ b ∈ m, key a ≤ key b) : sortOn key (l' ++ m) = l ++ m := by
  rw [sortOn_eq_iff]
  refine ⟨List.pairwise_append.mpr ⟨hl.imp le_of_lt, hm, hlm⟩, fun k => ?_⟩
  rw [List.filter_append, List.filter_append]
  congr 1
  -- the keys of the first part are distinct, so there is at most one element of each
  have hperm' := hperm.filter (key · = k)
  have hshort : (l.filter (key · = k)).length ≤ 1 := by
    have hpair := hl.filter (key · = k)
    match hf : l.filter (key · = k) with
    | [] => simp
    | [_] => simp
    | a :: b :: rest =>
      rw [hf] at hpair
      have hlt := (List.pairwise_cons.mp hpair).1 b (by simp)
      have hka : key a = k := by
        have := (List.mem_filter.mp (hf ▸ List.mem_cons_self : a ∈ l.filter (key · = k))).2
        simpa using this
      have hkb : key b = k := by
        have := (List.mem_filter.mp
          (hf ▸ List.mem_cons_of_mem _ List.mem_cons_self : b ∈ l.filter (key · = k))).2
        simpa using this
      exact absurd hlt (by rw [hka, hkb]; exact lt_irrefl _)
  match hf : l.filter (key · = k) with
  | [] =>
    rw [hf] at hperm'
    exact (List.perm_nil.mp hperm').symm
  | [a] =>
    rw [hf] at hperm'
    exact (List.perm_singleton.mp hperm').symm
  | a :: b :: rest =>
    rw [hf] at hshort
    simp at hshort

/-- The keys may be read before or after a mapping. -/
theorem map_sortOn (f : β → α) (n : List β) :
    sortOn key (n.map f) = (sortOn (fun b => key (f b)) n).map f :=
  (List.map_insertionSort (fun b b' : β => key (f b) ≤ key (f b')) (fun a a' => key a ≤ key a') f n
    fun _ _ _ _ => Iff.rfl).symm

end SortOn

end NeonWrt.Lib
