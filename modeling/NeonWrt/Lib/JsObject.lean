import NeonWrt.Lib.JavaScript

/-!
# Objects as tables

JavaScript programs use plain objects as tables under string keys. A loop over an
object visits the keys that are array indices first, in ascending order, and then the
other keys in the order in which they were added. Properties that an object inherits
are not modelled.
-/

namespace NeonWrt.Lib

/-- The number of a key that is an array index. -/
def arrayIndex (k : JsString) : Option ℕ :=
  let n := k.foldl (fun n c => 10 * n + (c.toNat - 48)) 0
  if k = numberToString 10 n ∧ n < 4294967295 then some n else none

/-- Whether the loop over an object visits the first key before a new key `k`. -/
def visitedBefore (k e : JsString) : Bool :=
  match arrayIndex e, arrayIndex k with
  | some i, some j => i < j
  | none, some _ => false
  | _, none => true

/-- A table under string keys. -/
structure JsObject (α : Type*) where
  entries : List (JsString × α)
  nodup : (entries.map (·.1)).Nodup

namespace JsObject

variable {α : Type*} {o : JsObject α} {k k' : JsString} {v : α}

theorem ext_entries {o o' : JsObject α} (h : o.entries = o'.entries) : o = o' := by
  cases o
  cases o'
  simpa using h

/-- The keys in the order of iteration. -/
def keys (o : JsObject α) : List JsString := o.entries.map (·.1)

/-- `o[k]`, with `none` for `undefined` -/
def get? (o : JsObject α) (k : JsString) : Option α := (o.entries.find? (·.1 = k)).map (·.2)

/-- The object without properties. -/
def empty : JsObject α := ⟨[], List.nodup_nil⟩

instance : EmptyCollection (JsObject α) := ⟨empty⟩

/-- The entries with a new key in its place. -/
def insertNew (l : List (JsString × α)) (k : JsString) (v : α) : List (JsString × α) :=
  l.takeWhile (fun e => visitedBefore k e.1) ++ (k, v) :: l.dropWhile fun e => visitedBefore k e.1

/-- The entries with a new value under a key that is there. -/
def replace (l : List (JsString × α)) (k : JsString) (v : α) : List (JsString × α) :=
  l.map fun e => if e.1 = k then (k, v) else e

theorem insertNew_perm (l : List (JsString × α)) (k : JsString) (v : α) :
    (insertNew l k v).Perm ((k, v) :: l) := by
  have h : (l.takeWhile (fun e => visitedBefore k e.1) ++
      (k, v) :: l.dropWhile fun e => visitedBefore k e.1).Perm
      ((k, v) :: (l.takeWhile (fun e => visitedBefore k e.1) ++
        l.dropWhile fun e => visitedBefore k e.1)) := List.perm_middle
  rwa [List.takeWhile_append_dropWhile] at h

theorem map_fst_replace (l : List (JsString × α)) (k : JsString) (v : α) :
    (replace l k v).map (·.1) = l.map (·.1) := by
  rw [replace, List.map_map]
  refine List.map_congr_left fun e _ => ?_
  by_cases h : e.1 = k
  · simp [h]
  · simp [h]

/-- `o[k] = v` -/
def set (o : JsObject α) (k : JsString) (v : α) : JsObject α :=
  if h : k ∈ o.keys then ⟨replace o.entries k v, (map_fst_replace ..).symm ▸ o.nodup⟩
  else
    ⟨insertNew o.entries k v, by
      have hperm := (insertNew_perm o.entries k v).map (·.1)
      rw [hperm.nodup_iff]
      exact List.nodup_cons.mpr ⟨h, o.nodup⟩⟩

/-- `delete o[k]` -/
def del (o : JsObject α) (k : JsString) : JsObject α :=
  ⟨o.entries.filter (·.1 ≠ k), (o.nodup.sublist ((List.filter_sublist).map _))⟩

/-- `isEmpty(o, k)`: there is no property but `k`. -/
def onlyHas (o : JsObject α) (k : JsString) : Bool := o.keys.all (· = k)

@[simp] theorem get?_empty (k : JsString) : (∅ : JsObject α).get? k = none := rfl

theorem get?_eq_some_iff : o.get? k = some v ↔ (k, v) ∈ o.entries := by
  obtain ⟨l, hl⟩ := o
  simp only [get?, Option.map_eq_some_iff]
  induction l with
  | nil => simp
  | cons e l ih =>
    obtain ⟨hnot, hl'⟩ := List.nodup_cons.mp hl
    by_cases he : e.1 = k
    · rw [List.find?_cons_of_pos (by simpa using he)]
      constructor
      · rintro ⟨e', hfound, hv⟩
        obtain rfl := Option.some.inj hfound
        rw [← he, ← hv]
        simp
      · intro hmem
        refine ⟨e, rfl, ?_⟩
        rcases List.mem_cons.mp hmem with h | h
        · rw [← h]
        · subst he
          exact absurd (List.mem_map.mpr ⟨_, h, rfl⟩) hnot
    · rw [List.find?_cons_of_neg (by simpa using he), ih hl', List.mem_cons]
      refine ⟨Or.inr, fun h => h.resolve_left ?_⟩
      rintro rfl
      exact he rfl

theorem nodup_keys (o : JsObject α) : o.keys.Nodup := o.nodup

theorem get?_eq_none_iff : o.get? k = none ↔ k ∉ o.keys := by
  rw [Option.eq_none_iff_forall_ne_some]
  simp only [ne_eq, get?_eq_some_iff, keys, List.mem_map, not_exists, not_and]
  constructor
  · rintro h e he rfl
    exact h e.2 he
  · rintro h v hv
    exact h _ hv rfl

theorem mem_keys_iff : k ∈ o.keys ↔ ∃ v, o.get? k = some v := by
  rw [← not_iff_not, ← get?_eq_none_iff, Option.eq_none_iff_forall_ne_some]
  simp

theorem mem_entries_set {e : JsString × α} :
    e ∈ (o.set k v).entries ↔ e = (k, v) ∨ (e.1 ≠ k ∧ e ∈ o.entries) := by
  unfold set
  split_ifs with h
  · simp only [replace, List.mem_map]
    constructor
    · rintro ⟨d, hd, rfl⟩
      by_cases hdk : d.1 = k
      · simp [hdk]
      · simp [hdk, hd]
    · rintro (rfl | ⟨hne, he⟩)
      · obtain ⟨d, hd, hdk⟩ := List.mem_map.mp h
        exact ⟨d, hd, by simp [hdk]⟩
      · exact ⟨e, he, by simp [hne]⟩
  · rw [(insertNew_perm o.entries k v).mem_iff, List.mem_cons]
    refine or_congr_right ⟨fun he => ⟨?_, he⟩, fun he => he.2⟩
    rintro rfl
    exact h (List.mem_map.mpr ⟨e, he, rfl⟩)

theorem get?_set (o : JsObject α) (k k' : JsString) (v : α) :
    (o.set k v).get? k' = if k' = k then some v else o.get? k' := by
  refine Option.ext fun w => ?_
  by_cases hk : k' = k
  · subst hk
    rw [if_pos rfl, get?_eq_some_iff, mem_entries_set]
    simp [eq_comm]
  · rw [if_neg hk, get?_eq_some_iff, get?_eq_some_iff, mem_entries_set]
    simp [hk]

theorem get?_del (o : JsObject α) (k k' : JsString) :
    (o.del k).get? k' = if k' = k then none else o.get? k' := by
  refine Option.ext fun w => ?_
  by_cases hk : k' = k
  · subst hk
    rw [if_pos rfl, get?_eq_some_iff]
    simp [del]
  · rw [if_neg hk, get?_eq_some_iff, get?_eq_some_iff]
    simp [del, hk]

@[simp] theorem get?_set_self : (o.set k v).get? k = some v := by simp [get?_set]

@[simp] theorem get?_del_self : (o.del k).get? k = none := by simp [get?_del]

theorem get?_set_of_ne (h : k' ≠ k) : (o.set k v).get? k' = o.get? k' := by simp [get?_set, h]

theorem get?_del_of_ne (h : k' ≠ k) : (o.del k).get? k' = o.get? k' := by simp [get?_del, h]

/-- Assigning the value that is there changes nothing. -/
theorem set_get? (h : o.get? k = some v) : o.set k v = o := by
  have hmem : k ∈ o.keys := mem_keys_iff.mpr ⟨v, h⟩
  refine ext_entries ?_
  rw [set, dif_pos hmem]
  refine (List.map_congr_left fun e he => ?_).trans (List.map_id _)
  by_cases hek : e.1 = k
  · have hval : o.get? k = some e.2 := get?_eq_some_iff.mpr (hek ▸ he)
    obtain rfl : v = e.2 := Option.some.inj (h.symm.trans hval)
    simp [← hek]
  · rw [if_neg hek]
    rfl

/-- Deleting a key that is not there changes nothing. -/
theorem del_of_get?_eq_none (h : o.get? k = none) : o.del k = o := by
  refine ext_entries (List.filter_eq_self.mpr fun e he => ?_)
  have hne : e.1 ≠ k := by
    rintro rfl
    exact get?_eq_none_iff.mp h (List.mem_map.mpr ⟨e, he, rfl⟩)
  simpa using hne

/-- In a table with no other key, every lookup of another key fails. -/
theorem get?_eq_none_of_onlyHas (h : o.onlyHas k = true) (hk : k' ≠ k) : o.get? k' = none := by
  rw [get?_eq_none_iff]
  intro hmem
  exact hk (by simpa using List.all_eq_true.mp h k' hmem)

/-- Assigning the entries of another table, one after the other. -/
theorem get?_foldl_set (c o : JsObject α) (k : JsString) :
    (c.entries.foldl (fun o e => o.set e.1 e.2) o).get? k = (c.get? k).or (o.get? k) := by
  obtain ⟨l, hl⟩ := c
  simp only [get?]
  induction l generalizing o with
  | nil => rfl
  | cons e l ih =>
    obtain ⟨hnot, hl'⟩ := List.nodup_cons.mp hl
    rw [List.foldl_cons]
    refine (ih (o.set e.1 e.2) hl').trans ?_
    by_cases he : e.1 = k
    · -- no later entry has the key
      have hnone : l.find? (fun e => e.1 = k) = none := by
        rw [List.find?_eq_none]
        intro d hd hdk
        exact hnot (List.mem_map.mpr ⟨d, hd, (of_decide_eq_true hdk).trans he.symm⟩)
      rw [hnone, List.find?_cons_of_pos (by simpa using he)]
      exact (congrArg _ he.symm).trans get?_set_self
    · rw [List.find?_cons_of_neg (by simpa using he)]
      exact congrArg _ (get?_set_of_ne (Ne.symm he))

theorem get?_foldl_del (l : List JsString) (o : JsObject α) (k : JsString) :
    (l.foldl (fun o k => o.del k) o).get? k = if k ∈ l then none else o.get? k := by
  induction l generalizing o with
  | nil => simp
  | cons d l ih =>
    rw [List.foldl_cons, ih, get?_del]
    by_cases hk : k = d
    · simp [hk]
    · simp [hk]

end JsObject

end NeonWrt.Lib
