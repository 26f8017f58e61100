import NeonWrt.Nmbm.Layout
import NeonWrt.Nmbm.Attach

/-!
# The mapping of logical blocks

A logical block is mapped into the data area, or to a spare block between
`mappingBlocksTopBa` and the signature that has been handed out before. `Mapped`
states this, together with the injectivity of the mapping, and it is kept as long
as every block that is handed out is the one at `mappingBlocksTopBa`.

`nmbm_map_block` takes the first good block from there downwards, but lowers the
boundary by one only. If the block at the boundary is not good, the block it takes
stays among the free ones. `SpareTopGood` excludes that.
-/

namespace NeonWrt.Nmbm

open Lib

variable (g : Geometry) (flt : Faults) {s s' s'' : Sys} {ni ni' : Ni} {lb fuel : ℕ} {b : Bool}

/-- Logical blocks are mapped to data blocks or to spare blocks that are not free any
more, and no two of them to the same one. -/
structure Mapped (ni : Ni) : Prop where
  count_le : ni.dataBlockCount ≤ ni.mgmtStartBa
  mgmt_le : ni.mgmtStartBa ≤ ni.blockMapping.length
  target : ∀ lb < ni.dataBlockCount, 0 ≤ ni.mapping lb → ni.mapping lb < ni.mgmtStartBa ∨
    ni.mappingBlocksTopBa < ni.mapping lb ∧ ni.mapping lb ≠ ni.signatureBa
  injective : ∀ lb < ni.dataBlockCount, ∀ lb' < ni.dataBlockCount, 0 ≤ ni.mapping lb →
    ni.mapping lb = ni.mapping lb' → lb = lb'

/-- The next spare block to be handed out is the topmost one, or there is none. -/
def SpareTopGood (ni : Ni) : Prop :=
  ni.state ni.mappingBlocksTopBa = .good ∨
    ∀ ba ≤ ni.mappingBlocksTopBa, ni.mappingBlocksBa < ba → ni.state ba ≠ .good

instance (ni : Ni) : Decidable (SpareTopGood ni) := by
  unfold SpareTopGood
  infer_instance

/-- The areas are in order and the mapping respects them. -/
structure Settled (ni : Ni) : Prop where
  layout : Layout ni
  mapped : Mapped ni

theorem mapping_of_fixed (h : ni'.fixed = ni.fixed) (lb : ℕ) : ni'.mapping lb = ni.mapping lb := by
  rw [Ni.mapping, show ni'.blockMapping = ni.blockMapping from congrArg Fixed.blockMapping h,
    Ni.mapping]

theorem Mapped.of_fixed (h : Mapped ni) (hfixed : ni'.fixed = ni.fixed) : Mapped ni' := by
  have htable : ni'.blockMapping = ni.blockMapping := congrArg Fixed.blockMapping hfixed
  have hmapping := mapping_of_fixed hfixed
  have hcount : ni'.dataBlockCount = ni.dataBlockCount := congrArg Fixed.dataBlockCount hfixed
  have hsig : ni'.signatureBa = ni.signatureBa := congrArg Fixed.signatureBa hfixed
  refine ⟨?_, ?_, fun lb hlb hpos => ?_, fun lb hlb lb' hlb' hpos heq => ?_⟩
  · rw [hcount, mgmtStartBa_of_fixed hfixed]
    exact h.count_le
  · rw [mgmtStartBa_of_fixed hfixed, htable]
    exact h.mgmt_le
  · rw [hmapping] at hpos ⊢
    rw [mgmtStartBa_of_fixed hfixed, mappingBlocksTopBa_of_fixed hfixed, hsig]
    exact h.target lb (hcount ▸ hlb) hpos
  · rw [hmapping] at hpos heq
    rw [hmapping] at heq
    exact h.injective lb (hcount ▸ hlb) lb' (hcount ▸ hlb') hpos heq

theorem Updated.settled (hupdated : Updated s s') (h : Settled s.ni) : Settled s'.ni :=
  ⟨hupdated.layout, h.mapped.of_fixed hupdated.fixed⟩

/-- The boundary of the free spare blocks moves down to the tables. -/
theorem Layout.dropSpares (h : Layout ni) :
    Layout { ni with mappingBlocksTopBa := ni.mappingBlocksBa } :=
  ⟨⟨h.cache, h.mgmt_le, h.le_top.trans_lt h.top_lt, h.signature_lt⟩, h.mgmt_le,
    le_refl ni.mappingBlocksBa, h.main, h.mainBlocks, h.backup, h.backupBlocks⟩

theorem Settled.dropSpares (h : Settled ni) :
    Settled { ni with mappingBlocksTopBa := ni.mappingBlocksBa } := by
  have hle := h.layout.le_top
  refine ⟨h.layout.dropSpares, h.mapped.count_le, h.mapped.mgmt_le, ?_, h.mapped.injective⟩
  intro lb hlb hpos
  refine (h.mapped.target lb hlb hpos).imp_right fun htop => ⟨?_, htop.2⟩
  have hlt := htop.1
  change (ni.mappingBlocksBa : ℤ) < ni.mapping lb
  omega

theorem takeSpare_mapping (hlb : lb < ni.blockMapping.length) (pb i : ℕ) :
    (ni.takeSpare lb pb).mapping i = if i = lb then (pb : ℤ) else ni.mapping i := by
  unfold Ni.takeSpare Ni.mapping
  split_ifs with hi
  · simp [List.getD_eq_getElem?_getD, hi, hlb]
  · simp [List.getD_eq_getElem?_getD, Ne.symm hi]

/-- The topmost free spare block is handed out. The number of logical blocks may grow by
the one that is mapped. -/
theorem Mapped.takeSpare {count : ℕ} (h : Mapped ni) (hmgmt : ni.mgmtStartBa < ni.mappingBlocksTopBa)
    (hsig : ni.mappingBlocksTopBa < ni.signatureBa) (hlb : lb < ni.mgmtStartBa)
    (hle : count ≤ ni.mgmtStartBa) (hcount : ∀ i < count, i ≠ lb → i < ni.dataBlockCount) :
    Mapped { ni.takeSpare lb ni.mappingBlocksTopBa with dataBlockCount := count } := by
  have hmapping : ∀ i, { ni.takeSpare lb ni.mappingBlocksTopBa with
      dataBlockCount := count }.mapping i =
        if i = lb then (ni.mappingBlocksTopBa : ℤ) else ni.mapping i :=
    takeSpare_mapping (hlb.trans_le h.mgmt_le) _
  -- what was mapped before lies below the management area or above the free spare blocks
  have hold : ∀ i < count, i ≠ lb → 0 ≤ ni.mapping i →
      ni.mapping i < ni.mgmtStartBa ∨ ni.mappingBlocksTopBa < ni.mapping i ∧
        ni.mapping i ≠ ni.signatureBa :=
    fun i hi hne hpos => h.target i (hcount i hi hne) hpos
  refine ⟨hle, by simpa [Ni.takeSpare] using h.mgmt_le, fun i hi hpos => ?_,
    fun i hi j hj hpos heq => ?_⟩
  · rw [hmapping] at hpos ⊢
    change _ < (ni.mgmtStartBa : ℤ) ∨ ((ni.mappingBlocksTopBa - 1 : ℕ) : ℤ) < _ ∧
      _ ≠ (ni.signatureBa : ℤ)
    split_ifs at hpos ⊢ with hne
    · omega
    · have htarget := hold i hi hne hpos
      omega
  · rw [hmapping] at hpos heq
    rw [hmapping] at heq
    split_ifs at hpos heq with hi' hj' hj'
    · exact hi'.trans hj'.symm
    · -- the other block would be mapped to a free spare block
      have htarget := hold j hj hj' (heq ▸ hpos)
      omega
    · have htarget := hold i hi hi' hpos
      omega
    · exact h.injective i (hcount i hi hi') j (hcount j hj hj') hpos heq

/-- A spare block is taken; the boundary moves down by one. -/
theorem Layout.takeSpare (h : Layout ni) (hlt : ni.mappingBlocksBa < ni.mappingBlocksTopBa)
    (lb pb count : ℕ) : Layout { ni.takeSpare lb pb with dataBlockCount := count } := by
  have hmgmt := h.mgmt_le
  have htop := h.top_lt
  refine ⟨⟨h.cache, ?_, ?_, h.signature_lt⟩, hmgmt, Nat.le_sub_one_of_lt hlt, h.main, h.mainBlocks,
    h.backup, h.backupBlocks⟩
  · change ni.mgmtStartBa ≤ ni.mappingBlocksTopBa - 1
    omega
  · change ni.mappingBlocksTopBa - 1 < ni.signatureBa
    omega

theorem Settled.takeSpare {count : ℕ} (h : Settled ni)
    (hlt : ni.mappingBlocksBa < ni.mappingBlocksTopBa) (hlb : lb < ni.mgmtStartBa)
    (hle : count ≤ ni.mgmtStartBa) (hcount : ∀ i < count, i ≠ lb → i < ni.dataBlockCount) :
    Settled { ni.takeSpare lb ni.mappingBlocksTopBa with dataBlockCount := count } :=
  ⟨h.layout.takeSpare hlt lb _ count,
    h.mapped.takeSpare (h.layout.mgmt_le.trans_lt hlt) h.layout.top_lt hlb hle hcount⟩

/-- The walk for a spare block ends at the topmost one. -/
theorem SpareTopGood.walkDesc {pb : ℕ} (h : SpareTopGood ni) (hlayout : Layout ni)
    (hwalk : walkDesc ni ni.mappingBlocksTopBa 0 ni.mappingBlocksBa = some pb) :
    pb = ni.mappingBlocksTopBa ∧ ni.mappingBlocksBa < pb := by
  have hlimit : walkLimit ni ni.mappingBlocksBa = ni.mappingBlocksBa := by
    apply walkLimit_of_lt
    exact hlayout.le_top.trans_lt (hlayout.top_lt.trans hlayout.signature_lt)
  have hbounds := walkDesc_bounds hwalk
  rw [hlimit] at hbounds
  obtain hgood | hnone := h
  · exact ⟨walkDesc_of_good hgood hwalk, hbounds.2⟩
  · exact absurd (walkDesc_good hwalk) (hnone pb hbounds.1 hbounds.2)

/-- What `nmbm_map_block` does when it only hands out topmost blocks: nothing, taking the
topmost block, or updating the tables and giving up the spare blocks that are left. -/
theorem mapBlock_cases (h : Settled s.ni) (hgood : SpareTopGood s.ni)
    (hrun : mapBlock g flt fuel lb s = some (s', b)) :
    b = false ∧ s' = s ∨
    b = true ∧ s.ni.mappingBlocksBa < s.ni.mappingBlocksTopBa ∧
      s' = ⟨s.ni.takeSpare lb s.ni.mappingBlocksTopBa, s.chip⟩ ∨
    b = false ∧ ∃ t, Updated s t ∧
      s' = ⟨{ t.ni with mappingBlocksTopBa := t.ni.mappingBlocksBa }, t.chip⟩ := by
  unfold mapBlock at hrun
  split_ifs at hrun with hfull
  · obtain ⟨rfl, rfl⟩ := Prod.mk.inj (Option.some_inj.mp hrun)
    exact .inl ⟨rfl, rfl⟩
  · split at hrun
    next hwalk =>
      obtain ⟨⟨t, ok⟩, hupdate, hres⟩ := Option.bind_eq_some_iff.mp hrun
      obtain ⟨rfl, rfl⟩ := Prod.mk.inj (Option.some_inj.mp hres)
      exact .inr (.inr ⟨rfl, t, updateInfoTable_updated g flt h.layout hupdate, rfl⟩)
    next pb hwalk =>
      obtain ⟨rfl, rfl⟩ := Prod.mk.inj (Option.some_inj.mp hrun)
      obtain ⟨rfl, hlt⟩ := hgood.walkDesc h.layout hwalk
      exact .inr (.inl ⟨rfl, hlt, rfl⟩)

/-- An operation keeps both invariants, changes no contents outside the tables and free
spare blocks, and maps logical blocks to the topmost free spare block only. -/
structure Moved (s s' : Sys) : Prop where
  settled : Settled s'.ni
  chip : SameOutside s.ni.mgmtStartBa (s.ni.mappingBlocksTopBa + 1) s.chip s'.chip
  fresh : ∀ lb, s'.ni.mapping lb = s.ni.mapping lb ∨
    s'.ni.mapping lb = s.ni.mappingBlocksTopBa ∧ s.ni.mappingBlocksBa < s.ni.mappingBlocksTopBa

theorem Updated.moved (hupdated : Updated s s') (h : Settled s.ni) : Moved s s' where
  settled := hupdated.settled h
  chip := hupdated.chip.mono (le_refl _) (Nat.le_succ _)
  fresh := fun lb => .inl (mapping_of_fixed hupdated.fixed lb)

theorem setState_updated (h : Layout s.ni) (ba : ℕ) (st : BlockState) :
    Updated s ⟨s.ni.setState ba st, s.chip⟩ :=
  ⟨h.states (sameButStates_setState _ _ _), rfl, .refl _ _ _⟩

theorem Updated.dropSpares (hupdated : Updated s s') (h : Settled s.ni) :
    Moved s ⟨{ s'.ni with mappingBlocksTopBa := s'.ni.mappingBlocksBa }, s'.chip⟩ := by
  have hmoved := hupdated.moved h
  exact ⟨hmoved.settled.dropSpares, hmoved.chip, hmoved.fresh⟩

theorem takeSpare_fresh (h : Settled ni) (hlb : lb < ni.mgmtStartBa)
    (hspare : ni.mappingBlocksBa < ni.mappingBlocksTopBa) (i : ℕ) :
    (ni.takeSpare lb ni.mappingBlocksTopBa).mapping i = ni.mapping i ∨
      (ni.takeSpare lb ni.mappingBlocksTopBa).mapping i = ni.mappingBlocksTopBa ∧
        ni.mappingBlocksBa < ni.mappingBlocksTopBa := by
  rw [takeSpare_mapping (hlb.trans_le h.mapped.mgmt_le)]
  split_ifs
  · exact .inr ⟨rfl, hspare⟩
  · exact .inl rfl

/-- The next logical block is mapped during creation. -/
theorem mapNext_moved (h : Settled s.ni) (hgood : SpareTopGood s.ni)
    (hlt : s.ni.dataBlockCount < s.ni.mgmtStartBa)
    (hrun : mapNext g flt fuel s = some (s', b)) : Moved s s' := by
  obtain ⟨⟨t, ok⟩, hmap, hrest⟩ := Option.bind_eq_some_iff.mp hrun
  obtain ⟨rfl, rfl⟩ | ⟨rfl, hspare, rfl⟩ | ⟨rfl, u, hupdated, rfl⟩ :=
    mapBlock_cases g flt h hgood hmap
  · obtain ⟨rfl, rfl⟩ := Prod.mk.inj (Option.some_inj.mp hrest)
    exact (Updated.refl h.layout).moved h
  · obtain ⟨rfl, rfl⟩ := Prod.mk.inj (Option.some_inj.mp hrest)
    refine ⟨h.takeSpare hspare hlt hlt fun i hi hne => ?_, .refl _ _ _, fun lb => ?_⟩
    · change i < s.ni.dataBlockCount + 1 at hi
      omega
    · exact takeSpare_fresh h hlt hspare lb
  · obtain ⟨rfl, rfl⟩ := Prod.mk.inj (Option.some_inj.mp hrest)
    exact hupdated.dropSpares h

theorem setState_state {ba ba' : ℕ} (st : BlockState) (hne : ba' ≠ ba) :
    (ni.setState ba st).state ba' = ni.state ba' := by
  simp [Ni.setState, Ni.state, List.getD_eq_getElem?_getD, hne.symm]

/-- Marking the old target of a logical block bad does not touch the free spare blocks. -/
theorem SpareTopGood.setState {ba : ℕ} (h : SpareTopGood ni) (hlayout : Layout ni)
    (hba : ba < ni.mgmtStartBa ∨ ni.mappingBlocksTopBa < ba) (st : BlockState) :
    SpareTopGood (ni.setState ba st) := by
  have hmgmt := hlayout.mgmt_le
  have htop := hlayout.le_top
  have hstate : ∀ ba' ≤ ni.mappingBlocksTopBa, ni.mappingBlocksBa ≤ ba' →
      (ni.setState ba st).state ba' = ni.state ba' :=
    fun ba' hle hge => setState_state st (by omega)
  refine h.imp (fun hgood => ?_) fun hnone ba' hle hlt => ?_
  · exact (hstate _ (le_refl _) htop).trans hgood
  · exact (hstate ba' hle (Nat.le_of_lt hlt)).trans_ne (hnone ba' hle hlt)

/-- After a remap has filled its new block, the tables are updated. -/
theorem takeSpare_update_moved {chip : Chip} (h : Settled s.ni)
    (hspare : s.ni.mappingBlocksBa < s.ni.mappingBlocksTopBa) (hlb : lb < s.ni.dataBlockCount)
    (hchip : SameOutside s.ni.mappingBlocksTopBa (s.ni.mappingBlocksTopBa + 1) s.chip chip)
    (hupdate : updateInfoTable g flt fuel
      ⟨s.ni.takeSpare lb s.ni.mappingBlocksTopBa, chip⟩ = some (s', b)) : Moved s s' := by
  have hmgmt := h.layout.mgmt_le
  have hlb' : lb < s.ni.mgmtStartBa := hlb.trans_le h.mapped.count_le
  have htaken : Settled (s.ni.takeSpare lb s.ni.mappingBlocksTopBa) :=
    h.takeSpare hspare hlb' h.mapped.count_le fun i hi _ => hi
  have hupdated := updateInfoTable_updated g flt htaken.layout hupdate
  refine ⟨hupdated.settled htaken, ?_, fun i => ?_⟩
  · have htables : SameOutside s.ni.mgmtStartBa (s.ni.mappingBlocksTopBa - 1) chip s'.chip :=
      hupdated.chip
    exact (hchip.mono (by omega) (le_refl _)).trans (htables.mono (le_refl _) (by omega))
  · rw [mapping_of_fixed hupdated.fixed]
    exact takeSpare_fresh h hlb' hspare i

theorem Moved.of_sameButStates (hs : SameButStates ni ni') {chip : Chip}
    (h : Moved ⟨ni', chip⟩ s') : Moved ⟨ni, chip⟩ s' := by
  obtain ⟨states, changed, rfl⟩ := hs
  exact ⟨h.settled, h.chip, h.fresh⟩

/-- Erasing the new block and copying to it leaves the other blocks alone. -/
theorem fillBlock_sameOutside (newBlock mapped copyLen : ℕ) (c : Chip) :
    SameOutside newBlock (newBlock + 1) c
      (if 0 < copyLen then bbtNandCopy g flt newBlock mapped copyLen (bbtNandErase g flt newBlock c)
      else bbtNandErase g flt newBlock c) := by
  have herase := @erase_sameOutside g flt newBlock c
  split_ifs
  · exact herase.trans (bbtNandCopy_sameOutside newBlock mapped copyLen _)
  · exact herase

/-- What `remap_block_nmbm` does to a mapped block when only topmost blocks are handed out: it finds
no spare block, or fills the topmost one and updates the tables. -/
theorem remapBlock_cases {mapped copyLen : ℕ} (h : Settled s.ni) (hgood : SpareTopGood s.ni)
    (hlb : lb < s.ni.dataBlockCount) (hmapped : s.ni.mapping lb = mapped)
    (hrun : remapBlock g flt fuel lb mapped copyLen s = some (s', b)) :
    (b = false ∧ (s' = ⟨s.ni.setState mapped .bad, s.chip⟩ ∨
      ∃ t, Updated ⟨s.ni.setState mapped .bad, s.chip⟩ t ∧
        s' = ⟨{ t.ni with mappingBlocksTopBa := t.ni.mappingBlocksBa }, t.chip⟩)) ∨
    (b = true ∧ s.ni.mappingBlocksBa < s.ni.mappingBlocksTopBa ∧ ∃ ok, updateInfoTable g flt fuel
      ⟨(s.ni.setState mapped .bad).takeSpare lb s.ni.mappingBlocksTopBa,
        if 0 < copyLen then bbtNandCopy g flt s.ni.mappingBlocksTopBa mapped copyLen
          (bbtNandErase g flt s.ni.mappingBlocksTopBa s.chip)
        else bbtNandErase g flt s.ni.mappingBlocksTopBa s.chip⟩ = some (s', ok)) := by
  rw [remapBlock, if_neg (Nat.not_le.mpr hlb)] at hrun
  have htarget := h.mapped.target lb hlb (by omega)
  have hgood' : SpareTopGood (s.ni.setState mapped .bad) := hgood.setState h.layout (by omega) .bad
  have hsettled : Settled (s.ni.setState mapped .bad) :=
    (setState_updated h.layout mapped .bad).settled h
  obtain ⟨⟨t, ok⟩, hmap, hrest⟩ := Option.bind_eq_some_iff.mp hrun
  obtain ⟨rfl, rfl⟩ | ⟨rfl, hspare, rfl⟩ | ⟨rfl, u, hupdated, rfl⟩ :=
    mapBlock_cases g flt hsettled hgood' hmap
  · obtain ⟨rfl, rfl⟩ := Prod.mk.inj (Option.some_inj.mp hrest)
    exact .inl ⟨rfl, .inl rfl⟩
  · obtain ⟨⟨u, ok⟩, hupdate, hres⟩ := Option.bind_eq_some_iff.mp hrest
    obtain ⟨rfl, rfl⟩ := Prod.mk.inj (Option.some_inj.mp hres)
    have hlen : lb < (s.ni.setState mapped .bad).blockMapping.length :=
      hlb.trans_le (h.mapped.count_le.trans h.mapped.mgmt_le)
    have hnew : (((s.ni.setState mapped .bad).takeSpare lb
        (s.ni.setState mapped .bad).mappingBlocksTopBa).mapping lb).toNat =
        s.ni.mappingBlocksTopBa := by
      rw [takeSpare_mapping hlen, if_pos rfl, Int.toNat_natCast]
      rfl
    dsimp only at hupdate
    rw [hnew] at hupdate
    exact .inr ⟨rfl, hspare, ok, hupdate⟩
  · obtain ⟨rfl, rfl⟩ := Prod.mk.inj (Option.some_inj.mp hrest)
    exact .inl ⟨rfl, .inr ⟨u, hupdated, rfl⟩⟩

/-- A logical block is remapped away from its current block. -/
theorem remapBlock_moved {mapped copyLen : ℕ} (h : Settled s.ni) (hgood : SpareTopGood s.ni)
    (hmapped : getMappingBlockIndex s.ni lb = mapped)
    (hrun : remapBlock g flt fuel lb mapped copyLen s = some (s', b)) : Moved s s' := by
  by_cases hlb : s.ni.dataBlockCount ≤ lb
  · rw [remapBlock, if_pos hlb] at hrun
    obtain ⟨rfl, rfl⟩ := Prod.mk.inj (Option.some_inj.mp hrun)
    exact (Updated.refl h.layout).moved h
  · rw [getMappingBlockIndex, if_neg hlb] at hmapped
    have hsettled : Settled (s.ni.setState mapped .bad) :=
      (setState_updated h.layout mapped .bad).settled h
    apply Moved.of_sameButStates (sameButStates_setState s.ni mapped .bad)
    obtain ⟨-, rfl | ⟨u, hupdated, rfl⟩⟩ | ⟨-, hspare, ok, hupdate⟩ :=
      remapBlock_cases g flt h hgood (Nat.lt_of_not_le hlb) hmapped hrun
    · exact (Updated.refl hsettled.layout).moved hsettled
    · exact hupdated.dropSpares hsettled
    · exact takeSpare_update_moved g flt hsettled hspare (Nat.lt_of_not_le hlb)
        (fillBlock_sameOutside g flt _ mapped copyLen s.chip) hupdate

end NeonWrt.Nmbm
