import NeonWrt.Nmbm.Layout

/-!
# Blocks that wear out

Writing and erasing only ever turn good blocks bad. Each block that does raises
`blockStateChanged`, so that between two calls of `nmbm_mark_tables_clean` the
counter tells whether a good block was lost.
-/

namespace NeonWrt.Nmbm

open Lib

variable {g : Geometry} {flt : Faults} {s : Sys} {ni ni' ni'' : Ni} {ba limit n : ℕ}

/-- Every good block is still good. -/
def NoLoss (ni ni' : Ni) : Prop := ∀ ba, ni.state ba = .good → ni'.state ba = .good

/-- What a picture of the instance in the cache depends on, apart from block states. -/
structure Picture where
  infoTableCache : Bytes
  infoTableSize : ℕ
  infoTable : InfoTableHeader
  blockMapping : List ℤ
  mappingBlocksTopBa : ℕ

/-- The part of an instance that its picture is taken from, apart from block states. -/
def Ni.picture (ni : Ni) : Picture :=
  ⟨ni.infoTableCache, ni.infoTableSize, ni.infoTable, ni.blockMapping, ni.mappingBlocksTopBa⟩

/-- The picture is the same, and block states differ only in good blocks that have turned bad. -/
structure Worn (ni ni' : Ni) : Prop where
  picture : ni'.picture = ni.picture
  length : ni'.blockState.length = ni.blockState.length
  good : ∀ ba, ni'.state ba = .good → ni.state ba = .good
  states : NoLoss ni ni' → ni'.blockState = ni.blockState

/-- The counters have changed only if a good block was lost. -/
structure WornCounted (ni ni' : Ni) : Prop extends Worn ni ni' where
  counters : NoLoss ni ni' → ni'.changed = ni.changed

/-- The tables count as changed only if a good block was lost. -/
structure WornClean (ni ni' : Ni) : Prop extends Worn ni ni' where
  clean : NoLoss ni ni' → ni'.changed = false

theorem Worn.refl (ni : Ni) : Worn ni ni := ⟨rfl, rfl, fun _ h => h, fun _ => rfl⟩

theorem Worn.noLoss_left (h : Worn ni' ni'') (hno : NoLoss ni ni'') : NoLoss ni ni' :=
  fun ba hba => h.good ba (hno ba hba)

theorem Worn.noLoss_right (h : Worn ni ni') (hno : NoLoss ni ni'') : NoLoss ni' ni'' :=
  fun ba hba => hno ba (h.good ba hba)

theorem Worn.trans (h : Worn ni ni') (h' : Worn ni' ni'') : Worn ni ni'' where
  picture := h'.picture.trans h.picture
  length := h'.length.trans h.length
  good := fun ba hba => h.good ba (h'.good ba hba)
  states := fun hno =>
    (h'.states (h.noLoss_right hno)).trans (h.states (h'.noLoss_left hno))

theorem WornCounted.refl (ni : Ni) : WornCounted ni ni := ⟨.refl ni, fun _ => rfl⟩

theorem WornCounted.trans (h : WornCounted ni ni') (h' : WornCounted ni' ni'') :
    WornCounted ni ni'' where
  toWorn := h.toWorn.trans h'.toWorn
  counters := fun hno => (h'.counters (h.noLoss_right hno)).trans
    (h.counters (h'.noLoss_left hno))

theorem WornClean.trans (h : WornClean ni ni') (h' : WornCounted ni' ni'') : WornClean ni ni'' where
  toWorn := h.toWorn.trans h'.toWorn
  clean := fun hno => (h'.counters (h.noLoss_right hno)).trans
    (h.clean (h'.noLoss_left hno))

/-- From clean tables on, the counters are enough. -/
theorem WornCounted.clean (h : WornCounted ni ni') (hclean : ni.changed = false) :
    WornClean ni ni' :=
  ⟨h.toWorn, fun hno => (h.counters hno).trans hclean⟩

/-- Bookkeeping that changes neither states nor counters. -/
theorem wornCounted_of_eq (hpicture : ni'.picture = ni.picture)
    (hstates : ni'.blockState = ni.blockState) (hchanged : ni'.changed = ni.changed) :
    WornCounted ni ni' where
  picture := hpicture
  length := congrArg List.length hstates
  good := fun ba hba => by rwa [Ni.state, ← hstates]
  states := fun _ => hstates
  counters := fun _ => hchanged

theorem Worn.mark (h : Worn ni ni') : WornClean ni ni'.markTablesClean where
  picture := h.picture
  length := h.length
  good := h.good
  states := h.states
  clean := fun _ => rfl

theorem setState_worn (hgood : ni.state ba = .good) (hlt : ba < ni.blockState.length) :
    WornCounted ni (ni.setState ba .bad) := by
  have hbad : (ni.setState ba .bad).state ba = .bad := by
    simp [Ni.setState, Ni.state, List.getD_eq_getElem?_getD, hlt]
  have hloss : ¬ NoLoss ni (ni.setState ba .bad) := fun hno => by
    have hstill := hno ba hgood
    rw [hbad] at hstill
    cases hstill
  refine ⟨⟨rfl, List.length_set, fun ba' hba' => ?_, fun hno => absurd hno hloss⟩,
    fun hno => absurd hno hloss⟩
  by_cases heq : ba' = ba
  · rw [heq]
    exact hgood
  · rwa [show (ni.setState ba .bad).state ba' = ni.state ba' by
      simp [Ni.setState, Ni.state, List.getD_eq_getElem?_getD, Ne.symm heq]] at hba'

/-- A block that is prepared is good, and nothing has changed. -/
theorem prepareBlock_true (h : (prepareBlock g flt ba s).2 = true) :
    (prepareBlock g flt ba s).1.ni = s.ni ∧ s.ni.state ba = .good := by
  unfold prepareBlock at h ⊢
  dsimp only at h ⊢
  split_ifs at h ⊢ with hstate hbad herase
  exact ⟨rfl, not_not.mp hstate⟩

theorem prepareBlock_worn (hlt : ba < s.ni.blockState.length) :
    WornCounted s.ni (prepareBlock g flt ba s).1.ni := by
  unfold prepareBlock
  dsimp only
  split_ifs with hstate hbad herase
  · exact .refl _
  · exact setState_worn (not_not.mp hstate) hlt
  · exact .refl _
  · exact setState_worn (not_not.mp hstate) hlt

theorem writeMgmtBlock_worn (chunk : Bytes) (hlt : ba < s.ni.blockState.length) :
    WornCounted s.ni (writeMgmtBlock g flt ba chunk s).1.ni := by
  have hprep := @prepareBlock_worn g flt s ba hlt
  unfold writeMgmtBlock
  dsimp only
  split_ifs with hready hwritten
  · exact hprep
  · exact hprep
  · obtain ⟨hsame, hgood⟩ := prepareBlock_true (by simpa using hready)
    rw [hsame]
    exact setState_worn hgood hlt

theorem writeMgmtLoop_worn (data : Bytes) (blocks : List ℕ)
    (hlt : ba + n ≤ s.ni.blockState.length) :
    WornCounted s.ni (writeMgmtLoop g flt n ba data blocks s).1.ni := by
  induction n generalizing ba data blocks s with
  | zero => exact .refl _
  | succ n ih =>
    have hfirst := @writeMgmtBlock_worn g flt s ba (data.take g.blkSize) (by omega)
    have hlength := hfirst.length
    unfold writeMgmtLoop
    dsimp only
    split_ifs
    · exact .refl _
    · exact hfirst.trans (ih _ _ (by omega))
    · exact hfirst.trans (ih _ _ (by omega))

theorem writeInfoTable_worn (hlimit : limit ≤ s.ni.blockState.length) :
    WornCounted s.ni (writeInfoTable g flt ba limit s).1.ni := by
  unfold writeInfoTable writeMgmtRange
  by_cases hle : ba ≤ limit
  · exact writeMgmtLoop_worn _ _ (by omega)
  · rw [show limit - ba = 0 by omega]
    exact .refl _

theorem eraseLoop_worn (hlt : ba + n ≤ s.ni.blockState.length) :
    WornCounted s.ni (eraseLoop g flt n ba s).ni := by
  induction n generalizing ba s with
  | zero => exact .refl _
  | succ n ih =>
    have hfirst := @prepareBlock_worn g flt s ba (by omega)
    have hlength := hfirst.length
    exact hfirst.trans (ih (by omega))

theorem eraseRange_worn (hlimit : limit ≤ s.ni.blockState.length) :
    WornCounted s.ni (eraseRange g flt ba limit s).ni := by
  unfold eraseRange
  by_cases hle : ba ≤ limit
  · exact eraseLoop_worn (by omega)
  · rw [show limit - ba = 0 by omega]
    exact .refl _

theorem writeTableDown_worn (htop : s.ni.mappingBlocksTopBa ≤ s.ni.blockState.length) :
    WornCounted s.ni (writeTableDown g flt n ba s).1.ni := by
  induction n generalizing ba s with
  | zero => exact .refl _
  | succ n ih =>
    have hwrite := @writeInfoTable_worn g flt s ba s.ni.mappingBlocksTopBa htop
    have hlength := hwrite.length
    have htop' := congrArg Picture.mappingBlocksTopBa hwrite.picture
    change _ = s.ni.mappingBlocksTopBa at htop'
    unfold writeTableDown
    dsimp only
    split
    · exact hwrite
    · exact hwrite.trans (ih (by rw [hlength]; exact htop'.le.trans htop))

end NeonWrt.Nmbm
