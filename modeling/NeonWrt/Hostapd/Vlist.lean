import NeonWrt.Lib.Table
import NeonWrt.Lib.Ucode

/-!
# Versioned lists

`common.uc` compares values with `is_equal`, and keeps lists of named values whose
`update` tells a callback what has become of each name. A name that is given
twice in one update has lost its old value by the second time, so the callback
never hears of that value.
-/

namespace NeonWrt.Hostapd

open NeonWrt.Lib

mutual

/-- `is_equal`. The second object is asked for keys that are null in the first. -/
def isEqual : UcodeValue → UcodeValue → Bool
  | .array xs, .array ys => xs.length == ys.length && isEqualItems xs ys
  | .object ms, .object ns =>
    isEqualMembers ms ns && ns.all fun n => match UcodeValue.member ms n.1 with
      | .null => false
      | _ => true
  | .null, .null => true
  | .bool a, .bool b => a == b
  | .int a, .int b => a == b
  | .double a, .double b => doubleEq a b
  | .string a, .string b => a == b
  | _, _ => false

def isEqualItems : List UcodeValue → List UcodeValue → Bool
  | x :: xs, y :: ys => isEqual x y && isEqualItems xs ys
  | _, _ => true

def isEqualMembers : List (Bytes × UcodeValue) → List (Bytes × UcodeValue) → Bool
  | [], _ => true
  | (k, v) :: ms, ns => isEqual v (UcodeValue.member ns k) && isEqualMembers ms ns

end

theorem shape_eq_of_isEqual {a b : UcodeValue} (h : isEqual a b = true) : a.shape = b.shape := by
  cases a <;> cases b <;> simp_all [isEqual, UcodeValue.shape, doubleEq]

theorem isEqual_item {xs ys : List UcodeValue} (hlen : xs.length = ys.length)
    (h : isEqualItems xs ys = true) (i : ℕ) :
    isEqual (xs[i]?.getD .null) (ys[i]?.getD .null) = true := by
  induction xs generalizing ys i with
  | nil =>
    obtain rfl := List.length_eq_zero_iff.mp hlen.symm
    rfl
  | cons x xs ih =>
    cases ys with
    | nil => simp at hlen
    | cons y ys =>
      rw [isEqualItems, Bool.and_eq_true] at h
      -- the head of the lists, or an item of their tails
      cases i with
      | zero => exact h.1
      | succ i => exact ih (by simpa using hlen) h.2 i

theorem isEqual_member {ms ns : List (Bytes × UcodeValue)} (h : isEqualMembers ms ns = true)
    {k : Bytes} (hk : k ∈ ms.map (·.1)) :
    isEqual (UcodeValue.member ms k) (UcodeValue.member ns k) = true := by
  induction ms with
  | nil => simp at hk
  | cons m ms ih =>
    obtain ⟨l, v⟩ := m
    rw [isEqualMembers, Bool.and_eq_true] at h
    rw [UcodeValue.member_cons]
    -- the first member of the key is the one that is read
    split_ifs with hkey
    · exact hkey ▸ h.1
    · exact ih h.2 (by simpa [Ne.symm hkey] using hk)

theorem isEqual_get {a b : UcodeValue} (h : isEqual a b = true) (s : UcodeValue.Selector) :
    isEqual (a.get s) (b.get s) = true := by
  have hshape := shape_eq_of_isEqual h
  cases a with
  | array xs =>
    cases b with
    | array ys =>
      cases s with
      | key k => rfl
      | item i =>
        rw [isEqual, Bool.and_eq_true, beq_iff_eq] at h
        exact isEqual_item h.1 h.2 i
    | _ => simp [UcodeValue.shape] at hshape
  | object ms =>
    cases b with
    | object ns =>
      cases s with
      -- an object has no items
      | item i => rfl
      | key k =>
        rw [isEqual, Bool.and_eq_true, List.all_eq_true] at h
        by_cases hk : k ∈ ms.map (·.1)
        · exact isEqual_member h.1 hk
        · -- a key that the first object lacks must not be in the second one
          have hnull : UcodeValue.member ms k = .null := UcodeValue.member_eq_null hk
          have hns : k ∉ ns.map (·.1) := by
            rintro hmem
            obtain ⟨n, hn, rfl⟩ := List.mem_map.mp hmem
            simpa [hnull] using h.2 n hn
          simp only [UcodeValue.get, hnull, UcodeValue.member_eq_null hns]
          rfl
    | _ => simp [UcodeValue.shape] at hshape
  | _ =>
    cases b with
    | array ys => simp [UcodeValue.shape] at hshape
    | object ns => simp [UcodeValue.shape] at hshape
    | _ => cases s <;> rfl

theorem sameReads_of_isEqual {a b : UcodeValue} (h : isEqual a b = true) :
    UcodeValue.SameReads a b := by
  refine UcodeValue.SameReads.of_bisimulation (R := fun a b => isEqual a b = true) ?_ ?_ h
  · exact fun h => shape_eq_of_isEqual h
  · exact fun h s => isEqual_get h s

variable {κ V M : Type*} [DecidableEq κ]

/-- `old_data`, `new_data` and `data` of an update. -/
structure Split (κ V : Type*) where
  old : Table κ (Option V)
  new : Table κ V
  data : Table κ V

/-- One value of an update. -/
def Split.take (p : Split κ V) (val : κ × V) : Split κ V where
  old := p.old.set val.1 (p.data.get? val.1)
  new := p.new.set val.1 val.2
  data := p.data.erase val.1

/-- The first loop of an update. -/
def split (data : Table κ V) (values : List (κ × V)) : Split κ V :=
  values.foldl Split.take ⟨∅, ∅, data⟩

/-- `vlist_proto.update`. The callback gets the new value and the old one, and
returns the new one as it leaves it. -/
def vlistUpdate (cb : Option V → Option V → M → M × Option V) (data : Table κ V)
    (values : List (κ × V)) (m : M) : M × Table κ V :=
  let p := split data values
  let m := p.data.entries.foldl (fun m e => (cb none (some e.2) m).1) m
  p.new.visit (fun k v m => let r := cb (some v) (p.old.get? k).join m; (r.1, r.2.getD v)) m

variable {data : Table κ V} {values : List (κ × V)} {k : κ} {v : V}

theorem split_append_singleton (data : Table κ V) (values : List (κ × V)) (val : κ × V) :
    split data (values ++ [val]) = (split data values).take val := by
  rw [split, List.foldl_append]
  rfl

/-- What is left over are the names that are not given. -/
theorem get?_split_data (data : Table κ V) (values : List (κ × V)) (k : κ) :
    (split data values).data.get? k = if k ∈ values.map (·.1) then none else data.get? k := by
  induction values using List.reverseRecOn with
  | nil => rfl
  | append_singleton values val ih =>
    rw [split_append_singleton, Split.take, Table.get?_erase, ih]
    -- the last value takes its own name and leaves the others
    by_cases h : k = val.1
    · simp [h]
    · have hiff : k ∈ (values ++ [val]).map (·.1) ↔ k ∈ values.map (·.1) := by
        rw [List.map_append, List.mem_append, List.map_singleton, List.mem_singleton]
        exact or_iff_left h
      rw [if_neg h, if_congr hiff rfl rfl]

/-- A name that is given once has its old value, and one that is given again has none. -/
theorem get?_split_old [BEq κ] [LawfulBEq κ] (data : Table κ V) (values : List (κ × V)) (k : κ) :
    ((split data values).old.get? k).join =
      if (values.map (·.1)).count k = 1 then data.get? k else none := by
  induction values using List.reverseRecOn with
  | nil => rfl
  | append_singleton values val ih =>
    rw [split_append_singleton, Split.take, Table.get?_set, List.map_append, List.count_append]
    by_cases h : k = val.1
    · subst h
      -- the name is given again, or for the first time
      by_cases hmem : val.1 ∈ values.map (·.1)
      · have hpos : 0 < (values.map (·.1)).count val.1 := List.count_pos_iff.mpr hmem
        rw [if_pos rfl, get?_split_data, if_pos hmem, if_neg (by simp; omega)]
        rfl
      · have hzero : (values.map (·.1)).count val.1 = 0 := List.count_eq_zero.mpr hmem
        rw [if_pos rfl, get?_split_data, if_neg hmem, if_pos (by simp [hzero])]
        rfl
    · have hzero : [val.1].count k = 0 := List.count_eq_zero.mpr (by simpa using h)
      rw [if_neg h, ih, List.map_singleton, hzero, Nat.add_zero]

/-- The new values are among those that are given. -/
theorem mem_of_get?_split_new (h : (split data values).new.get? k = some v) : (k, v) ∈ values := by
  induction values using List.reverseRecOn with
  | nil => simp [split] at h
  | append_singleton values val ih =>
    rw [split_append_singleton, Split.take, Table.get?_set] at h
    rw [List.mem_append]
    split_ifs at h with hk
    · exact Or.inr (by simp [hk, ← Option.some.inj h])
    · exact Or.inl (ih h)

/-- Every name that is given has a new value. -/
theorem get?_split_new_isSome (data : Table κ V) (values : List (κ × V)) (k : κ) :
    ((split data values).new.get? k).isSome = true ↔ k ∈ values.map (·.1) := by
  induction values using List.reverseRecOn with
  | nil => simp [split]
  | append_singleton values val ih =>
    rw [split_append_singleton, Split.take, Table.get?_set]
    -- the last value gives its own name
    by_cases h : k = val.1
    · simp [h]
    · rw [if_neg h, ih]
      simp [h]

end NeonWrt.Hostapd
