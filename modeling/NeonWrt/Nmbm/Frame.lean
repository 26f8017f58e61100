import NeonWrt.Nmbm.Mapping

/-!
# What no table routine changes

The routines that write info tables change neither the mapping nor the
boundaries of the data area, from any state of the instance. A remap therefore
changes the mapping of its own logical block only.
-/

namespace NeonWrt.Nmbm

variable {g : Geometry} {flt : Faults} {s : Sys}

@[simp] theorem writeInfoTable_fixed (ba limit : ℕ) :
    (writeInfoTable g flt ba limit s).1.ni.fixed = s.ni.fixed :=
  (writeInfoTable_touched g flt ba limit s).ni.fixed

@[simp] theorem eraseRange_fixed (ba limit : ℕ) :
    (eraseRange g flt ba limit s).ni.fixed = s.ni.fixed :=
  (eraseRange_touched g flt ba limit s).ni.fixed

@[simp] theorem writeTableDown_fixed (n ba : ℕ) :
    (writeTableDown g flt n ba s).1.ni.fixed = s.ni.fixed := by
  induction n generalizing ba s with
  | zero => rfl
  | succ n ih =>
    rw [writeTableDown]
    split
    · exact writeInfoTable_fixed ..
    · rw [ih, writeInfoTable_fixed]

@[simp] theorem rebuildInfoTable_fixed : (rebuildInfoTable g flt s).1.ni.fixed = s.ni.fixed := by
  unfold rebuildInfoTable
  dsimp only
  split
  · simp
  · split
    · simp
    · split <;> simp

@[simp] theorem rescueSingleInfoTable_fixed :
    (rescueSingleInfoTable g flt s).1.ni.fixed = s.ni.fixed := by
  unfold rescueSingleInfoTable
  dsimp only
  split
  · simp
  · split
    · simp
    · split <;> simp

@[simp] theorem updateSingleInfoTable_fixed (updateMain : Bool) :
    (updateSingleInfoTable g flt updateMain s).1.ni.fixed = s.ni.fixed := by
  unfold updateSingleInfoTable
  dsimp only
  split_ifs
  · split <;> simp
  · split <;> simp

@[simp] theorem rescueBackup_fixed (main : Placed) :
    (rescueBackup g flt main s).ni.fixed = s.ni.fixed := by
  unfold rescueBackup
  dsimp only
  split
  · simp
  · split <;> simp

@[simp] theorem rescueMainInfoTable_fixed :
    (rescueMainInfoTable g flt s).1.ni.fixed = s.ni.fixed := by
  unfold rescueMainInfoTable
  dsimp only
  split
  · simp
  · split
    · simp
    · split
      · simp
      · split_ifs <;> simp

@[simp] theorem updateMainTable_fixed (limit : ℕ) :
    (updateMainTable g flt limit s).1.ni.fixed = s.ni.fixed := by
  unfold updateMainTable
  by_cases hmain : s.ni.mainTableBa = 0
  · rw [if_pos hmain, rebuildInfoTable_fixed]
  · rw [if_neg hmain]
    dsimp only
    split
    · split_ifs <;> simp
    · split_ifs <;> simp

@[simp] theorem updateInfoTableOnce_fixed (force : Bool) :
    (updateInfoTableOnce g flt force s).1.ni.fixed = s.ni.fixed := by
  unfold updateInfoTableOnce
  dsimp only
  split_ifs
  · simp
  · simp
  · split <;> simp

theorem updateLoop_fixed {fuel : ℕ} {r : Sys × Bool} (h : updateLoop g flt fuel s = some r) :
    r.1.ni.fixed = s.ni.fixed := by
  induction fuel generalizing s with
  | zero =>
    rw [updateLoop] at h
    split_ifs at h
    obtain rfl := Option.some.inj h
    rfl
  | succ fuel ih =>
    rw [updateLoop] at h
    dsimp only at h
    split_ifs at h
    · obtain rfl := Option.some.inj h
      rfl
    · rw [ih h, updateInfoTableOnce_fixed]
    · obtain rfl := Option.some.inj h
      exact updateInfoTableOnce_fixed false

theorem updateInfoTable_fixed {fuel : ℕ} {r : Sys × Bool}
    (h : updateInfoTable g flt fuel s = some r) : r.1.ni.fixed = s.ni.fixed := by
  rw [updateInfoTable] at h
  split_ifs at h
  · obtain rfl := Option.some.inj h
    rfl
  · exact updateLoop_fixed h

theorem mapBlock_true {fuel lb : ℕ} {s' : Sys} (h : mapBlock g flt fuel lb s = some (s', true)) :
    ∃ pb, s' = ⟨s.ni.takeSpare lb pb, s.chip⟩ := by
  rw [mapBlock] at h
  split_ifs at h
  · simp at h
  · split at h
    · obtain ⟨u, -, hu⟩ := Option.bind_eq_some_iff.mp h
      simp at hu
    · next pb _ => exact ⟨pb, (Prod.mk.inj (Option.some.inj h)).1.symm⟩

theorem getMappingBlockIndex_of_fixed {ni ni' : Ni} (h : ni'.fixed = ni.fixed) (block : ℕ) :
    getMappingBlockIndex ni' block = getMappingBlockIndex ni block := by
  have hcount : ni'.dataBlockCount = ni.dataBlockCount := congrArg Fixed.dataBlockCount h
  rw [getMappingBlockIndex, getMappingBlockIndex, hcount, mapping_of_fixed h]

/-- A remap leaves the physical blocks of other logical blocks alone, from any state. -/
theorem getMappingBlockIndex_remapBlock {fuel block mapped copyLen : ℕ} {s' : Sys}
    (h : remapBlock g flt fuel block mapped copyLen s = some (s', true)) {block' : ℕ}
    (hne : block' ≠ block) :
    getMappingBlockIndex s'.ni block' = getMappingBlockIndex s.ni block' := by
  rw [remapBlock] at h
  by_cases hlb : s.ni.dataBlockCount ≤ block
  · simp [hlb] at h
  rw [if_neg hlb] at h
  obtain ⟨⟨t, ok⟩, hmap, hrest⟩ := Option.bind_eq_some_iff.mp h
  cases ok with
  | false => simp at hrest
  | true =>
    obtain ⟨pb, rfl⟩ := mapBlock_true hmap
    obtain ⟨u, hupdate, hu⟩ := Option.bind_eq_some_iff.mp hrest
    obtain rfl := (Prod.mk.inj (Option.some.inj hu)).1
    rw [getMappingBlockIndex_of_fixed (updateInfoTable_fixed hupdate)]
    simp [getMappingBlockIndex, Ni.mapping, Ni.takeSpare, Ni.setState, List.getD_eq_getElem?_getD,
      List.getElem?_set_ne hne.symm]

end NeonWrt.Nmbm
