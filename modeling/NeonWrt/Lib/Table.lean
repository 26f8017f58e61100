import Mathlib.Data.List.Nodup

/-!
# Tables in insertion order

The objects of scripting languages that keep their properties in the order in
which they were first added: looking a key up, setting it in its place or at the
end, and deleting it.
-/

namespace NeonWrt.Lib

/-- A table from keys to values. -/
structure Table (κ α : Type*) where
  entries : List (κ × α)
  nodup : (entries.map (·.1)).Nodup

namespace Table

variable {κ α : Type*}

/-- The keys in order. -/
def keys (t : Table κ α) : List κ := t.entries.map (·.1)

theorem mem_keys {t : Table κ α} {k : κ} : k ∈ t.keys ↔ ∃ v, (k, v) ∈ t.entries := by
  simp [keys]

variable [DecidableEq κ]

instance [DecidableEq α] : DecidableEq (Table κ α) := fun a b =>
  decidable_of_iff (a.entries = b.entries) (by cases a; cases b; simp)

/-- The table without entries. -/
def empty : Table κ α := ⟨[], List.nodup_nil⟩

instance : EmptyCollection (Table κ α) := ⟨empty⟩

/-- The value of a key. -/
def get? (t : Table κ α) (k : κ) : Option α := (t.entries.find? (·.1 = k)).map (·.2)

/-- The entries without one key. -/
def erase (t : Table κ α) (k : κ) : Table κ α where
  entries := t.entries.filter (·.1 ≠ k)
  nodup := (List.filter_sublist.map _).nodup t.nodup

/-- The entries with a value for a key: in its place where there is one, and at
the end otherwise. -/
def set (t : Table κ α) (k : κ) (v : α) : Table κ α where
  entries :=
    if k ∈ t.keys then t.entries.map fun e => if e.1 = k then (k, v) else e
    else t.entries ++ [(k, v)]
  nodup := by
    split_ifs with h
    · have hmap : ((t.entries.map fun e => if e.1 = k then (k, v) else e).map (·.1)) =
          t.entries.map (·.1) := by
        rw [List.map_map]
        refine List.map_congr_left fun e _ => ?_
        by_cases he : e.1 = k
        · simp [he]
        · simp [he]
      exact hmap ▸ t.nodup
    · rw [List.map_append]
      exact t.nodup.append (List.nodup_singleton k) (by simpa [keys] using h)

variable {t : Table κ α} {k l : κ} {v : α}

/-- Among entries with distinct keys, an entry is the one found under its key. -/
theorem find?_of_mem {l : List (κ × α)} (hnodup : (l.map (·.1)).Nodup) (h : (k, v) ∈ l) :
    l.find? (·.1 = k) = some (k, v) := by
  induction l with
  | nil => exact absurd h List.not_mem_nil
  | cons e es ih =>
    rw [List.map_cons, List.nodup_cons] at hnodup
    rcases List.mem_cons.mp h with rfl | hmem
    · simp
    · have hne : e.1 ≠ k := by
        rintro rfl
        exact hnodup.1 (List.mem_map.mpr ⟨_, hmem, rfl⟩)
      rw [List.find?_cons_of_neg (by simpa using hne)]
      exact ih hnodup.2 hmem

theorem get?_eq_some : t.get? k = some v ↔ (k, v) ∈ t.entries := by
  unfold get?
  constructor
  · intro h
    obtain ⟨e, he, rfl⟩ := Option.map_eq_some_iff.mp h
    have hk : e.1 = k := by simpa using List.find?_some he
    exact hk ▸ List.mem_of_find?_eq_some he
  · intro h
    rw [find?_of_mem t.nodup h]
    rfl

theorem get?_eq_none : t.get? k = none ↔ k ∉ t.keys := by
  rw [Option.eq_none_iff_forall_ne_some, mem_keys, not_exists]
  exact forall_congr' fun v => not_congr get?_eq_some

theorem mem_keys_iff_isSome : k ∈ t.keys ↔ (t.get? k).isSome := by
  rw [mem_keys, Option.isSome_iff_exists]
  exact exists_congr fun v => get?_eq_some.symm

@[simp] theorem get?_empty : (∅ : Table κ α).get? k = none := rfl

@[simp] theorem get?_set_self : (t.set k v).get? k = some v := by
  rw [get?_eq_some, set]
  split_ifs with h
  · obtain ⟨w, hw⟩ := mem_keys.mp h
    exact List.mem_map.mpr ⟨(k, w), hw, by simp⟩
  · simp

theorem get?_set_ne (h : l ≠ k) : (t.set k v).get? l = t.get? l := by
  ext w
  rw [get?_eq_some, get?_eq_some, set]
  split_ifs with hk
  · constructor
    · intro hmem
      obtain ⟨e, he, heq⟩ := List.mem_map.mp hmem
      by_cases hek : e.1 = k
      · rw [if_pos hek] at heq
        exact absurd (Prod.mk.inj heq).1.symm h
      · rw [if_neg hek] at heq
        exact heq ▸ he
    · exact fun hmem => List.mem_map.mpr ⟨(l, w), hmem, by simp [h]⟩
  · simp [h]

theorem get?_set : (t.set k v).get? l = if l = k then some v else t.get? l := by
  split_ifs with h
  · rw [h, get?_set_self]
  · exact get?_set_ne h

@[simp] theorem get?_erase_self : (t.erase k).get? k = none := by
  rw [get?_eq_none, mem_keys]
  rintro ⟨v, hv⟩
  simpa using (List.mem_filter.mp hv).2

theorem get?_erase_ne (h : l ≠ k) : (t.erase k).get? l = t.get? l := by
  ext w
  rw [get?_eq_some, get?_eq_some, erase, List.mem_filter]
  simp [h]

theorem get?_erase : (t.erase k).get? l = if l = k then none else t.get? l := by
  split_ifs with h
  · rw [h, get?_erase_self]
  · exact get?_erase_ne h

/-- A loop over the keys that may change the value of each. -/
def visit {σ : Type*} (f : κ → α → σ → σ × α) (t : Table κ α) (s : σ) : σ × Table κ α :=
  t.entries.foldl (fun p e => let r := f e.1 e.2 p.1; (r.1, p.2.set e.1 r.2)) (s, t)

section Visit

variable {σ : Type*} {f : κ → α → σ → σ × α} {g : κ → α → α}

/-- The state of a visit does not depend on the values it leaves. -/
theorem visit_fst (t : Table κ α) (s : σ) :
    (t.visit f s).1 = t.entries.foldl (fun s e => (f e.1 e.2 s).1) s := by
  suffices h : ∀ (l : List (κ × α)) (p : σ × Table κ α),
      (l.foldl (fun p e => let r := f e.1 e.2 p.1; (r.1, p.2.set e.1 r.2)) p).1 =
        l.foldl (fun s e => (f e.1 e.2 s).1) p.1 from h t.entries (s, t)
  intro l
  induction l with
  | nil => exact fun _ => rfl
  | cons e l ih => exact fun p => ih _

/-- Where the new values depend on the entries alone, each key has its own. -/
theorem get?_visit (hf : ∀ k v s, (f k v s).2 = g k v) (t : Table κ α) (s : σ) (k : κ) :
    (t.visit f s).2.get? k = (t.get? k).map (g k) := by
  suffices h : ∀ (l : List (κ × α)) (p : σ × Table κ α), (l.map (·.1)).Nodup →
      (l.foldl (fun p e => let r := f e.1 e.2 p.1; (r.1, p.2.set e.1 r.2)) p).2.get? k =
        match l.find? (·.1 = k) with
        | some e => some (g k e.2)
        | none => p.2.get? k by
    rw [visit, h t.entries (s, t) t.nodup, get?]
    cases hfind : t.entries.find? (·.1 = k) with
    | none => simp [get?, hfind]
    | some e => rfl
  intro l
  induction l with
  | nil => exact fun _ _ => rfl
  | cons e l ih =>
    intro p hnodup
    rw [List.map_cons, List.nodup_cons] at hnodup
    rw [List.foldl_cons, ih _ hnodup.2, List.find?_cons]
    by_cases he : e.1 = k
    · have hnone : l.find? (·.1 = k) = none := by
        rw [List.find?_eq_none]
        intro e' he' heq
        exact hnodup.1 (List.mem_map.mpr ⟨e', he', (by simpa using heq : e'.1 = k).trans he.symm⟩)
      simp [hnone, he, hf]
    · simp [he, get?_set_ne (Ne.symm he)]

end Visit

/-- A loop over the entries of one table that builds another. Where a pass changes only what its own
key reads, each key reads what its own pass leaves. -/
theorem get?_foldl_entries {β : Type*} {f : Table κ β → κ → α → Table κ β}
    {h : κ → α → Option β → Option β}
    (hf : ∀ u k v l, (f u k v).get? l = if l = k then h k v (u.get? k) else u.get? l)
    (t : Table κ α) (u : Table κ β) (k : κ) :
    (t.entries.foldl (fun u e => f u e.1 e.2) u).get? k =
      match t.get? k with
      | some v => h k v (u.get? k)
      | none => u.get? k := by
  suffices hlist : ∀ (l : List (κ × α)) (u : Table κ β), (l.map (·.1)).Nodup →
      (l.foldl (fun u e => f u e.1 e.2) u).get? k =
        match l.find? (·.1 = k) with
        | some e => h k e.2 (u.get? k)
        | none => u.get? k by
    have hget : t.get? k = (t.entries.find? (·.1 = k)).map (·.2) := rfl
    rw [hlist t.entries u t.nodup, hget]
    cases t.entries.find? (·.1 = k) with
    | none => rfl
    | some e => rfl
  intro l
  induction l with
  | nil => exact fun _ _ => rfl
  | cons e l ih =>
    intro u hnodup
    rw [List.map_cons, List.nodup_cons] at hnodup
    rw [List.foldl_cons, ih _ hnodup.2, List.find?_cons]
    by_cases he : e.1 = k
    · have hnone : l.find? (·.1 = k) = none := by
        rw [List.find?_eq_none]
        intro e' he' heq
        exact hnodup.1 (List.mem_map.mpr ⟨e', he', (by simpa using heq : e'.1 = k).trans he.symm⟩)
      simp [hnone, he, hf]
    · simp [he, hf, Ne.symm he]

/-- A table without entries reads nothing, and only such a table. -/
theorem entries_eq_nil : t.entries = [] ↔ ∀ k, t.get? k = none := by
  constructor
  · intro h k
    rw [get?, h]
    rfl
  · intro h
    rw [List.eq_nil_iff_forall_not_mem]
    rintro ⟨k, v⟩ hmem
    exact absurd (get?_eq_some.mpr hmem) (by simp [h k])

end Table

end NeonWrt.Lib
