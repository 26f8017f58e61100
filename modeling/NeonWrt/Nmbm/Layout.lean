import NeonWrt.Nmbm.Table

/-!
# The order of the areas

The areas of the chip are kept apart by the order of a few boundaries: the data
area ends at `mgmtStartBa`, the main table ends before the backup table, the
tables end at `mappingBlocksBa`, and the spare blocks that are still free end at
`mappingBlocksTopBa`, below the signature. `Layout` states that order. Every
routine for the tables keeps it, under every pattern of failures, and writes
only to the blocks from `mgmtStartBa` up to `mappingBlocksTopBa`.
-/

namespace NeonWrt.Nmbm

open Lib

variable (g : Geometry) (flt : Faults) {s s' s'' : Sys} {lo hi lo' hi' : ℕ}

/-- The instance with other block states. -/
def Ni.withStates (ni : Ni) (states : List BlockState) (changed : ℕ) : Ni :=
  { ni with blockState := states, blockStateChanged := changed }

/-- The instance differs in its block states only. -/
def SameButStates (ni ni' : Ni) : Prop := ∃ states changed, ni' = ni.withStates states changed

/-- Only block states, and the contents of the blocks of a range, have changed. -/
structure Touched (lo hi : ℕ) (s s' : Sys) : Prop where
  ni : SameButStates s.ni s'.ni
  chip : SameOutside lo hi s.chip s'.chip

theorem SameButStates.refl (ni : Ni) : SameButStates ni ni := ⟨_, _, rfl⟩

theorem SameButStates.trans {ni ni' ni'' : Ni} (h : SameButStates ni ni')
    (h' : SameButStates ni' ni'') : SameButStates ni ni'' := by
  obtain ⟨states, changed, rfl⟩ := h
  obtain ⟨states', changed', rfl⟩ := h'
  exact ⟨states', changed', rfl⟩

theorem sameButStates_setState (ni : Ni) (ba : ℕ) (st : BlockState) :
    SameButStates ni (ni.setState ba st) := ⟨_, _, rfl⟩

theorem Touched.refl (lo hi : ℕ) (s : Sys) : Touched lo hi s s := ⟨.refl _, .refl _ _ _⟩

theorem Touched.trans (h : Touched lo hi s s') (h' : Touched lo hi s' s'') :
    Touched lo hi s s'' := ⟨h.ni.trans h'.ni, h.chip.trans h'.chip⟩

theorem Touched.mono (h : Touched lo hi s s') (hlo : lo' ≤ lo) (hhi : hi ≤ hi') :
    Touched lo' hi' s s' := ⟨h.ni, h.chip.mono hlo hhi⟩

theorem prepareBlock_touched (ba : ℕ) (s : Sys) :
    Touched ba (ba + 1) s (prepareBlock g flt ba s).1 := by
  have herase := @eraseBlockAndCheck_sameOutside g flt ba s.ni.emptyPageEccOk
    (checkBadPhysBlock flt ba s.chip).1
  have hmark : SameButStates s.ni (s.ni.setState ba .bad) := sameButStates_setState _ _ _
  unfold prepareBlock
  dsimp only
  split_ifs
  · exact .refl _ _ _
  · exact ⟨hmark, fun _ _ => rfl⟩
  · exact ⟨.refl _, herase⟩
  · exact ⟨hmark, herase⟩

theorem eraseLoop_touched (n ba : ℕ) (s : Sys) :
    Touched ba (ba + n) s (eraseLoop g flt n ba s) := by
  induction n generalizing ba s with
  | zero => exact .refl _ _ _
  | succ n ih =>
    have hfirst := (prepareBlock_touched g flt ba s).mono (le_refl ba)
      (show ba + 1 ≤ ba + (n + 1) by omega)
    have hrest := (ih (ba + 1) (prepareBlock g flt ba s).1).mono (show ba ≤ ba + 1 by omega)
      (show ba + 1 + n ≤ ba + (n + 1) by omega)
    exact hfirst.trans hrest

theorem eraseRange_touched (ba limit : ℕ) (s : Sys) :
    Touched ba limit s (eraseRange g flt ba limit s) := by
  by_cases h : ba ≤ limit
  · exact (eraseLoop_touched g flt _ _ _).mono (le_refl ba) (by omega)
  · rw [eraseRange, show limit - ba = 0 by omega]
    exact .refl _ _ _

theorem writeMgmtBlock_touched (ba : ℕ) (chunk : Bytes) (s : Sys) :
    Touched ba (ba + 1) s (writeMgmtBlock g flt ba chunk s).1 := by
  have hprep := prepareBlock_touched g flt ba s
  have hwrite := @writeVerifyData_sameOutside g flt ba chunk (prepareBlock g flt ba s).1.chip
  unfold writeMgmtBlock
  dsimp only
  split_ifs
  · exact hprep
  · exact ⟨hprep.ni, hprep.chip.trans hwrite⟩
  · exact ⟨hprep.ni.trans (sameButStates_setState _ _ _), hprep.chip.trans hwrite⟩

theorem writeMgmtLoop_touched (n ba : ℕ) (data : Bytes) (blocks : List ℕ) (s : Sys) :
    Touched ba (ba + n) s (writeMgmtLoop g flt n ba data blocks s).1 := by
  induction n generalizing ba data blocks s with
  | zero => exact .refl _ _ _
  | succ n ih =>
    have hfirst := (writeMgmtBlock_touched g flt ba (data.take g.blkSize) s).mono (le_refl ba)
      (show ba + 1 ≤ ba + (n + 1) by omega)
    unfold writeMgmtLoop
    dsimp only
    split_ifs
    · exact .refl _ _ _
    · exact hfirst.trans ((ih _ _ _ _).mono (by omega) (by omega))
    · exact hfirst.trans ((ih _ _ _ _).mono (by omega) (by omega))

theorem writeInfoTable_touched (ba limit : ℕ) (s : Sys) :
    Touched ba limit s (writeInfoTable g flt ba limit s).1 := by
  unfold writeInfoTable writeMgmtRange
  by_cases h : ba ≤ limit
  · exact (writeMgmtLoop_touched g flt _ _ _ _ _).mono (le_refl ba) (by omega)
  · rw [show limit - ba = 0 by omega]
    exact .refl _ _ _

/-- A table that was written lies within a range, and its blocks within it. -/
structure Placed.Within (lo hi : ℕ) (p : Placed) : Prop where
  lo_le : lo ≤ p.start
  start_lt : p.start < p.stop
  stop_le : p.stop ≤ hi
  blocks : ∀ b ∈ p.blocks, p.start ≤ b ∧ b < p.stop

theorem Placed.Within.mono {p : Placed} (h : p.Within lo hi) (hlo : lo' ≤ lo) (hhi : hi ≤ hi') :
    p.Within lo' hi' :=
  ⟨hlo.trans h.lo_le, h.start_lt, h.stop_le.trans hhi, h.blocks⟩

/-- The blocks written so far lie between the first of them and the current block. -/
def WrittenFrom (lo ba : ℕ) (blocks : List ℕ) : Prop :=
  lo ≤ blocks.headD ba ∧ ∀ b ∈ blocks, blocks.headD ba ≤ b ∧ b < ba

theorem WrittenFrom.skip {ba : ℕ} {blocks : List ℕ} (h : WrittenFrom lo ba blocks) :
    WrittenFrom lo (ba + 1) blocks := by
  cases blocks with
  | nil => exact ⟨Nat.le_succ_of_le h.1, by simp⟩
  | cons b blocks => exact ⟨h.1, fun b' hb' => ⟨(h.2 b' hb').1, Nat.lt_succ_of_lt (h.2 b' hb').2⟩⟩

theorem WrittenFrom.concat {ba : ℕ} {blocks : List ℕ} (h : WrittenFrom lo ba blocks) :
    WrittenFrom lo (ba + 1) (blocks ++ [ba]) := by
  cases blocks with
  | nil => exact ⟨h.1, by simp⟩
  | cons b blocks =>
    have hb : b < ba := (h.2 b (List.mem_cons_self ..)).2
    refine ⟨h.1, fun b' hb' => ?_⟩
    obtain hold | hnew := List.mem_append.mp hb'
    · exact ⟨(h.2 b' hold).1, Nat.lt_succ_of_lt (h.2 b' hold).2⟩
    · obtain rfl := List.mem_singleton.mp hnew
      exact ⟨hb.le, Nat.lt_succ_self _⟩

theorem WrittenFrom.within {ba : ℕ} {blocks : List ℕ} (h : WrittenFrom lo ba blocks)
    (hne : blocks ≠ []) (m : ℕ) : Placed.Within lo (ba + m) ⟨blocks.headD ba, ba, blocks⟩ := by
  obtain ⟨b, rest, rfl⟩ := List.exists_cons_of_ne_nil hne
  exact ⟨h.1, (h.2 b (List.mem_cons_self ..)).2, Nat.le_add_right ba m, h.2⟩

theorem writeMgmtLoop_placed {n ba : ℕ} {data : Bytes} {blocks : List ℕ} {p : Placed}
    (hinv : WrittenFrom lo ba blocks) (hsome : data ≠ [] ∨ blocks ≠ [])
    (h : (writeMgmtLoop g flt n ba data blocks s).2 = some p) : p.Within lo (ba + n) := by
  induction n generalizing ba data blocks s with
  | zero =>
    unfold writeMgmtLoop at h
    split_ifs at h with hdata
    exact Option.some_inj.mp h ▸ hinv.within (hsome.resolve_left (not_not.mpr hdata)) 0
  | succ n ih =>
    unfold writeMgmtLoop at h
    dsimp only at h
    split_ifs at h with hdata hwritten
    · exact Option.some_inj.mp h ▸ hinv.within (hsome.resolve_left (not_not.mpr hdata)) _
    · exact (ih hinv.concat (.inr (by simp)) h).mono (le_refl lo) (by omega)
    · exact (ih hinv.skip (.inl hdata) h).mono (le_refl lo) (by omega)

/-- A table that was written lies in the range it was written to. -/
theorem writeInfoTable_placed {ba limit : ℕ} {p : Placed} (hcache : s.ni.infoTableCache ≠ [])
    (h : (writeInfoTable g flt ba limit s).2 = some p) : p.Within ba limit := by
  have hinv : WrittenFrom ba ba [] := ⟨le_refl ba, by simp⟩
  have hplaced := writeMgmtLoop_placed g flt hinv (.inl hcache) h
  by_cases hle : ba ≤ limit
  · exact hplaced.mono (le_refl ba) (by omega)
  · -- no block fits into an empty range
    have hlo := hplaced.lo_le
    have hlt := hplaced.start_lt
    have hhi := hplaced.stop_le
    omega

theorem writeTableDown_touched {n ba : ℕ} (h : lo + n ≤ ba + 1) :
    Touched lo s.ni.mappingBlocksTopBa s (writeTableDown g flt n ba s).1 := by
  induction n generalizing ba s with
  | zero => exact .refl _ _ _
  | succ n ih =>
    have hwrite := (writeInfoTable_touched g flt ba s.ni.mappingBlocksTopBa s).mono
      (show lo ≤ ba by omega) (le_refl _)
    unfold writeTableDown
    dsimp only
    split
    · exact hwrite
    · have htop : (writeInfoTable g flt ba s.ni.mappingBlocksTopBa s).1.ni.mappingBlocksTopBa =
          s.ni.mappingBlocksTopBa := by
        obtain ⟨states, changed, hni⟩ := hwrite.ni
        rw [hni]
        rfl
      have hrest := @ih (writeInfoTable g flt ba s.ni.mappingBlocksTopBa s).1 (ba - 1) (by omega)
      rw [htop] at hrest
      exact hwrite.trans hrest

theorem writeTableDown_placed {n ba : ℕ} {p : Placed} (h : lo + n ≤ ba + 1)
    (hcache : s.ni.infoTableCache ≠ []) (hp : (writeTableDown g flt n ba s).2 = some p) :
    p.Within lo s.ni.mappingBlocksTopBa := by
  induction n generalizing ba s with
  | zero => simp [writeTableDown] at hp
  | succ n ih =>
    obtain ⟨states, changed, hni⟩ :=
      (writeInfoTable_touched g flt ba s.ni.mappingBlocksTopBa s).ni
    unfold writeTableDown at hp
    dsimp only at hp
    split at hp
    next q hq =>
      obtain rfl := Option.some_inj.mp hp
      exact (writeInfoTable_placed g flt hcache hq).mono (by omega) (le_refl _)
    next =>
      have hrest := ih (by omega) (by rw [hni]; exact hcache) hp
      rwa [hni] at hrest

/-- The area for tables and free spare blocks lies below the signature. -/
structure Area (ni : Ni) : Prop where
  cache : ni.infoTableCache ≠ []
  mgmt_le_top : ni.mgmtStartBa ≤ ni.mappingBlocksTopBa
  top_lt : ni.mappingBlocksTopBa < ni.signatureBa
  signature_lt : ni.signatureBa < ni.blockCount

/-- Where the main table has to end: before the backup table, if there is one. -/
def Ni.mainLimit (ni : Ni) : ℕ :=
  if ni.backupTableBa = 0 then ni.mappingBlocksBa else ni.backupTableBa

/-- The order of the boundaries. A table address of zero stands for no table. -/
structure Layout (ni : Ni) : Prop extends Area ni where
  mgmt_le : ni.mgmtStartBa ≤ ni.mappingBlocksBa
  le_top : ni.mappingBlocksBa ≤ ni.mappingBlocksTopBa
  main : ni.mainTableBa = 0 ∨ ni.mgmtStartBa ≤ ni.mainTableBa ∧ ni.mainTableBa ≤ ni.mainLimit
  mainBlocks : ∀ b ∈ ni.mainBlocks, ni.mgmtStartBa ≤ b ∧ ni.mainTableBa ≤ b ∧ b < ni.mainLimit
  backup : ni.backupTableBa = 0 ∨
    ni.mgmtStartBa ≤ ni.backupTableBa ∧ ni.backupTableBa ≤ ni.mappingBlocksBa
  backupBlocks : ∀ b ∈ ni.backupBlocks,
    ni.backupTableBa ≠ 0 ∧ ni.backupTableBa ≤ b ∧ b < ni.mappingBlocksBa

/-- What the routines for the tables leave alone. -/
structure Fixed where
  blockMapping : List ℤ
  dataBlockCount : ℕ
  mgmtStartBa : ℕ
  mappingBlocksTopBa : ℕ
  signatureBa : ℕ

/-- The part of the instance that the routines for the tables leave alone. -/
def Ni.fixed (ni : Ni) : Fixed :=
  ⟨ni.blockMapping, ni.dataBlockCount, ni.mgmtStartBa, ni.mappingBlocksTopBa, ni.signatureBa⟩

/-- A routine for the tables ends with a layout and has changed contents in the area
for tables and free spare blocks only. -/
structure Updated (s s' : Sys) : Prop where
  layout : Layout s'.ni
  fixed : s'.ni.fixed = s.ni.fixed
  chip : SameOutside s.ni.mgmtStartBa s.ni.mappingBlocksTopBa s.chip s'.chip

theorem mgmtStartBa_of_fixed {ni ni' : Ni} (h : ni'.fixed = ni.fixed) :
    ni'.mgmtStartBa = ni.mgmtStartBa := congrArg Fixed.mgmtStartBa h

theorem mappingBlocksTopBa_of_fixed {ni ni' : Ni} (h : ni'.fixed = ni.fixed) :
    ni'.mappingBlocksTopBa = ni.mappingBlocksTopBa := congrArg Fixed.mappingBlocksTopBa h

theorem Updated.trans (h : Updated s s') (h' : Updated s' s'') : Updated s s'' where
  layout := h'.layout
  fixed := h'.fixed.trans h.fixed
  chip := by
    have hchip := h'.chip
    rw [mgmtStartBa_of_fixed h.fixed, mappingBlocksTopBa_of_fixed h.fixed] at hchip
    exact h.chip.trans hchip

variable {ni : Ni} {p q : Placed}

theorem Layout.mainLimit_le (h : Layout ni) : ni.mainLimit ≤ ni.mappingBlocksBa := by
  have := h.backup
  unfold Ni.mainLimit
  split_ifs <;> omega

theorem Area.empty (h : Area ni) :
    Layout ((ni.dropMain.dropBackup).endTables ni.mappingBlocksTopBa) where
  toArea := ⟨h.cache, h.mgmt_le_top, h.top_lt, h.signature_lt⟩
  mgmt_le := h.mgmt_le_top
  le_top := le_refl ni.mappingBlocksTopBa
  main := .inl rfl
  mainBlocks := by simp [Ni.dropMain, Ni.dropBackup, Ni.endTables]
  backup := .inl rfl
  backupBlocks := by simp [Ni.dropMain, Ni.dropBackup, Ni.endTables]

/-- A single table anywhere in the area is a layout. -/
theorem Area.single (h : Area ni) (hp : p.Within ni.mgmtStartBa ni.mappingBlocksTopBa) :
    Layout (((ni.placeMain p).dropBackup).endTables p.stop) where
  toArea := ⟨h.cache, h.mgmt_le_top, h.top_lt, h.signature_lt⟩
  mgmt_le := hp.lo_le.trans hp.start_lt.le
  le_top := hp.stop_le
  main := .inr ⟨hp.lo_le, hp.start_lt.le⟩
  mainBlocks := fun b hb =>
    ⟨hp.lo_le.trans (hp.blocks b hb).1, (hp.blocks b hb).1, (hp.blocks b hb).2⟩
  backup := .inl rfl
  backupBlocks := by simp [Ni.placeMain, Ni.dropBackup, Ni.endTables]

/-- Two tables in the area, one before the other, are a layout. -/
theorem Area.both (h : Area ni) (hp : p.Within ni.mgmtStartBa q.start)
    (hq : q.Within ni.mgmtStartBa ni.mappingBlocksTopBa) :
    Layout (((ni.placeMain p).placeBackup q).endTables q.stop) := by
  have hne : q.start ≠ 0 := Nat.ne_of_gt (Nat.lt_of_lt_of_le (Nat.zero_lt_of_lt hp.start_lt) hp.stop_le)
  have hlimit : (((ni.placeMain p).placeBackup q).endTables q.stop).mainLimit = q.start := if_neg hne
  refine ⟨⟨h.cache, h.mgmt_le_top, h.top_lt, h.signature_lt⟩, hq.lo_le.trans hq.start_lt.le,
    hq.stop_le, .inr ⟨hp.lo_le, ?_⟩, fun b hb => ?_, .inr ⟨hq.lo_le, hq.start_lt.le⟩, fun b hb => ?_⟩
  · rw [hlimit]
    exact hp.start_lt.le.trans hp.stop_le
  · have := hp.blocks b hb
    rw [hlimit]
    exact ⟨hp.lo_le.trans this.1, this.1, this.2.trans_le hp.stop_le⟩
  · exact ⟨hne, (hq.blocks b hb).1, (hq.blocks b hb).2⟩

theorem Area.states {ni' : Ni} (h : Area ni) (hs : SameButStates ni ni') : Area ni' := by
  obtain ⟨states, changed, rfl⟩ := hs
  exact ⟨h.cache, h.mgmt_le_top, h.top_lt, h.signature_lt⟩

theorem Layout.states {ni' : Ni} (h : Layout ni) (hs : SameButStates ni ni') : Layout ni' := by
  have harea := h.toArea.states hs
  obtain ⟨states, changed, rfl⟩ := hs
  exact ⟨harea, h.mgmt_le, h.le_top, h.main, h.mainBlocks, h.backup, h.backupBlocks⟩

theorem Layout.markTablesClean (h : Layout ni) : Layout ni.markTablesClean :=
  ⟨⟨h.cache, h.mgmt_le_top, h.top_lt, h.signature_lt⟩, h.mgmt_le, h.le_top, h.main, h.mainBlocks,
    h.backup, h.backupBlocks⟩

theorem Layout.protect (h : Layout ni) (b : Bool) : Layout { ni with isProtected := b } :=
  ⟨⟨h.cache, h.mgmt_le_top, h.top_lt, h.signature_lt⟩, h.mgmt_le, h.le_top, h.main, h.mainBlocks,
    h.backup, h.backupBlocks⟩

theorem overwrite_header_ne_nil (b : Bytes) (off : ℕ) (h : Header) :
    overwrite b off h.bytes ≠ [] := by
  simp [overwrite, Header.bytes, u32le]

theorem generateInfoTableCache_ne_nil (ni : Ni) :
    (generateInfoTableCache ni).1.infoTableCache ≠ [] := by
  unfold generateInfoTableCache
  exact overwrite_header_ne_nil _ _ _

theorem Layout.generate (h : Layout ni) : Layout (generateInfoTableCache ni).1 :=
  ⟨⟨generateInfoTableCache_ne_nil ni, h.mgmt_le_top, h.top_lt, h.signature_lt⟩, h.mgmt_le,
    h.le_top, h.main, h.mainBlocks, h.backup, h.backupBlocks⟩

theorem Layout.mgmt_le_mainLimit (h : Layout ni) : ni.mgmtStartBa ≤ ni.mainLimit := by
  have hmgmt := h.mgmt_le
  have hbackup := h.backup
  unfold Ni.mainLimit
  split_ifs <;> omega

theorem Layout.backupBlocks_eq_nil (h : Layout ni) (hnone : ni.backupTableBa = 0) :
    ni.backupBlocks = [] := by
  apply List.eq_nil_iff_forall_not_mem.mpr
  intro b hb
  exact (h.backupBlocks b hb).1 hnone

theorem Layout.endTables {ba : ℕ} (h : Layout ni) (hle : ni.mappingBlocksBa ≤ ba)
    (htop : ba ≤ ni.mappingBlocksTopBa) : Layout (ni.endTables ba) := by
  have hlimit : ni.mainLimit ≤ (ni.endTables ba).mainLimit := by
    unfold Ni.mainLimit Ni.endTables
    dsimp only
    split_ifs <;> omega
  refine ⟨⟨h.cache, h.mgmt_le_top, h.top_lt, h.signature_lt⟩, h.mgmt_le.trans hle, htop, ?_,
    fun b hb => ?_, ?_, fun b hb => ?_⟩
  · exact h.main.imp_right fun hmain => ⟨hmain.1, hmain.2.trans hlimit⟩
  · have hmain := h.mainBlocks b hb
    exact ⟨hmain.1, hmain.2.1, hmain.2.2.trans_le hlimit⟩
  · exact h.backup.imp_right fun hbackup => ⟨hbackup.1, hbackup.2.trans hle⟩
  · have hbackup := h.backupBlocks b hb
    exact ⟨hbackup.1, hbackup.2.1, hbackup.2.2.trans_le hle⟩

theorem Layout.of_endTables {ba : ℕ} (h : Layout (ni.endTables ba))
    (heq : ni.mappingBlocksBa = ba) : Layout ni := by
  subst heq
  exact h

theorem Layout.placeMain (h : Layout ni) (hp : p.Within ni.mgmtStartBa ni.mainLimit) :
    Layout (ni.placeMain p) where
  toArea := ⟨h.cache, h.mgmt_le_top, h.top_lt, h.signature_lt⟩
  mgmt_le := h.mgmt_le
  le_top := h.le_top
  main := .inr ⟨hp.lo_le, hp.start_lt.le.trans hp.stop_le⟩
  mainBlocks := fun b hb =>
    ⟨hp.lo_le.trans (hp.blocks b hb).1, (hp.blocks b hb).1, (hp.blocks b hb).2.trans_le hp.stop_le⟩
  backup := h.backup
  backupBlocks := h.backupBlocks

/-- The only table moves, and the end of the tables with it. -/
theorem Layout.placeOnly (h : Layout ni) (hnone : ni.backupTableBa = 0)
    (hp : p.Within ni.mgmtStartBa ni.mappingBlocksTopBa) :
    Layout ((ni.placeMain p).endTables p.stop) := by
  have hsingle := h.toArea.single hp
  rwa [show (ni.placeMain p).dropBackup = ni.placeMain p by
    rw [Ni.dropBackup, ← hnone, ← h.backupBlocks_eq_nil hnone]
    rfl] at hsingle

/-- A backup table is written behind the main table. -/
theorem Layout.placeBackup (h : Layout ni) (hp : p.Within ni.mainLimit ni.mappingBlocksTopBa)
    (hpos : 0 < p.start) : Layout ((ni.placeBackup p).endTables p.stop) := by
  have hmgmt : ni.mgmtStartBa ≤ p.start := h.mgmt_le_mainLimit.trans hp.lo_le
  have hlimit : ((ni.placeBackup p).endTables p.stop).mainLimit = p.start :=
    if_neg (Nat.ne_of_gt hpos)
  refine ⟨⟨h.cache, h.mgmt_le_top, h.top_lt, h.signature_lt⟩, hmgmt.trans hp.start_lt.le,
    hp.stop_le, ?_, fun b hb => ?_, .inr ⟨hmgmt, hp.start_lt.le⟩, fun b hb => ?_⟩
  · rw [hlimit]
    exact h.main.imp_right fun hmain => ⟨hmain.1, hmain.2.trans hp.lo_le⟩
  · have hmain := h.mainBlocks b hb
    rw [hlimit]
    exact ⟨hmain.1, hmain.2.1, hmain.2.2.trans_le hp.lo_le⟩
  · exact ⟨Nat.ne_of_gt hpos, (hp.blocks b hb).1, (hp.blocks b hb).2⟩

theorem Layout.dropBackup (h : Layout ni) (hsome : ni.backupTableBa ≠ 0) :
    Layout ((ni.endTables ni.backupTableBa).dropBackup) := by
  have hbackup := h.backup.resolve_left hsome
  have hlimit : ni.mainLimit = ni.backupTableBa := if_neg hsome
  have hmain := h.main
  have hblocks := h.mainBlocks
  rw [hlimit] at hmain hblocks
  exact ⟨⟨h.cache, h.mgmt_le_top, h.top_lt, h.signature_lt⟩, hbackup.1, hbackup.2.trans h.le_top,
    hmain, hblocks, .inl rfl, by simp [Ni.dropBackup, Ni.endTables]⟩

/-- The backup table takes the place of the main table. -/
theorem Layout.promoteBackup (h : Layout ni) : Layout ni.promoteBackup where
  toArea := ⟨h.cache, h.mgmt_le_top, h.top_lt, h.signature_lt⟩
  mgmt_le := h.mgmt_le
  le_top := h.le_top
  main := h.backup
  mainBlocks := fun b hb => by
    have hbackup := h.backupBlocks b hb
    have hstart := h.backup.resolve_left hbackup.1
    exact ⟨hstart.1.trans hbackup.2.1, hbackup.2⟩
  backup := .inl rfl
  backupBlocks := by simp [Ni.promoteBackup, Ni.dropBackup]

/-- The only table becomes the backup table of a table in front of it. -/
theorem Layout.demoteMain (h : Layout ni) (hnone : ni.backupTableBa = 0)
    (hp : p.Within ni.mgmtStartBa ni.mainTableBa) : Layout (ni.demoteMain.placeMain p) := by
  have hpos : ni.mainTableBa ≠ 0 :=
    Nat.ne_of_gt ((Nat.zero_lt_of_lt hp.start_lt).trans_le hp.stop_le)
  have hlimit : ni.mainLimit = ni.mappingBlocksBa := if_pos hnone
  have hmain := h.main.resolve_left hpos
  have hblocks := h.mainBlocks
  rw [hlimit] at hmain hblocks
  have hdemoted : Layout (ni.dropMain.placeBackup ⟨ni.mainTableBa, 0, ni.mainBlocks⟩) := by
    refine ⟨⟨h.cache, h.mgmt_le_top, h.top_lt, h.signature_lt⟩, h.mgmt_le, h.le_top, .inl rfl,
      by simp [Ni.dropMain, Ni.placeBackup], .inr hmain, fun b hb => ?_⟩
    exact ⟨hpos, (hblocks b hb).2⟩
  exact hdemoted.placeMain (hp.mono (le_refl _) (if_neg hpos).ge)

section Fixed

variable (ni : Ni) (p : Placed) (ba : ℕ)

@[simp] theorem fixed_withStates (states : List BlockState) (changed : ℕ) :
    (ni.withStates states changed).fixed = ni.fixed := rfl

@[simp] theorem fixed_markTablesClean : ni.markTablesClean.fixed = ni.fixed := rfl

@[simp] theorem fixed_placeMain : (ni.placeMain p).fixed = ni.fixed := rfl

@[simp] theorem fixed_placeBackup : (ni.placeBackup p).fixed = ni.fixed := rfl

@[simp] theorem fixed_endTables : (ni.endTables ba).fixed = ni.fixed := rfl

@[simp] theorem fixed_dropMain : ni.dropMain.fixed = ni.fixed := rfl

@[simp] theorem fixed_dropBackup : ni.dropBackup.fixed = ni.fixed := rfl

@[simp] theorem fixed_demoteMain : ni.demoteMain.fixed = ni.fixed := rfl

@[simp] theorem fixed_promoteBackup : ni.promoteBackup.fixed = ni.fixed := rfl

@[simp] theorem fixed_protect (b : Bool) : { ni with isProtected := b }.fixed = ni.fixed := rfl

@[simp] theorem fixed_generate : (generateInfoTableCache ni).1.fixed = ni.fixed := rfl

end Fixed

theorem SameButStates.fixed {ni ni' : Ni} (h : SameButStates ni ni') : ni'.fixed = ni.fixed := by
  obtain ⟨states, changed, rfl⟩ := h
  exact fixed_withStates ni states changed

theorem SameButStates.mainTableBa {ni ni' : Ni} (h : SameButStates ni ni') :
    ni'.mainTableBa = ni.mainTableBa := by
  obtain ⟨states, changed, rfl⟩ := h
  rfl

theorem SameButStates.backupTableBa {ni ni' : Ni} (h : SameButStates ni ni') :
    ni'.backupTableBa = ni.backupTableBa := by
  obtain ⟨states, changed, rfl⟩ := h
  rfl

theorem SameButStates.mappingBlocksBa {ni ni' : Ni} (h : SameButStates ni ni') :
    ni'.mappingBlocksBa = ni.mappingBlocksBa := by
  obtain ⟨states, changed, rfl⟩ := h
  rfl

theorem SameButStates.mainLimit {ni ni' : Ni} (h : SameButStates ni ni') :
    ni'.mainLimit = ni.mainLimit := by
  obtain ⟨states, changed, rfl⟩ := h
  rfl

theorem Updated.refl (h : Layout s.ni) : Updated s s := ⟨h, rfl, .refl _ _ _⟩

theorem Updated.book (h : Updated s s') (hlayout : Layout ni) (hfixed : ni.fixed = s'.ni.fixed) :
    Updated s ⟨ni, s'.chip⟩ :=
  ⟨hlayout, hfixed.trans h.fixed, h.chip⟩

theorem Updated.touch (h : Updated s s') (ht : Touched lo hi s' s'')
    (hlo : s'.ni.mgmtStartBa ≤ lo) (hhi : hi ≤ s'.ni.mappingBlocksTopBa) : Updated s s'' := by
  have hchip := ht.chip
  rw [mgmtStartBa_of_fixed h.fixed] at hlo
  rw [mappingBlocksTopBa_of_fixed h.fixed] at hhi
  exact ⟨h.layout.states ht.ni, ht.ni.fixed.trans h.fixed, h.chip.trans (hchip.mono hlo hhi)⟩

theorem Updated.mgmtStartBa (h : Updated s s') : s'.ni.mgmtStartBa = s.ni.mgmtStartBa :=
  mgmtStartBa_of_fixed h.fixed

theorem Updated.mappingBlocksTopBa (h : Updated s s') :
    s'.ni.mappingBlocksTopBa = s.ni.mappingBlocksTopBa :=
  mappingBlocksTopBa_of_fixed h.fixed

/-- A table is written within the area, or fails to be. -/
theorem Updated.write {ba limit : ℕ} {w : Sys × Option Placed} (h : Updated s s')
    (hw : writeInfoTable g flt ba limit s' = w) (hba : s'.ni.mgmtStartBa ≤ ba)
    (hlimit : limit ≤ s'.ni.mappingBlocksTopBa) :
    ∃ ni chip o, w = (⟨ni, chip⟩, o) ∧ Updated s ⟨ni, chip⟩ ∧ SameButStates s'.ni ni ∧
      ∀ p, o = some p → p.Within ba limit := by
  subst hw
  have htouched := writeInfoTable_touched g flt ba limit s'
  exact ⟨_, _, _, rfl, h.touch htouched hba hlimit, htouched.ni,
    fun p hp => writeInfoTable_placed g flt h.layout.cache hp⟩

/-- Building both tables from scratch needs no table to be there. -/
theorem rebuildInfoTable_updated (h : Area s.ni) : Updated s (rebuildInfoTable g flt s).1 := by
  have hempty : Updated s ⟨(s.ni.dropMain.dropBackup).endTables s.ni.mappingBlocksTopBa, s.chip⟩ :=
    ⟨h.empty, by simp, .refl _ _ _⟩
  unfold rebuildInfoTable
  dsimp only
  generalize hw : writeInfoTable g flt _ _ _ = w
  obtain ⟨ni, chip, o, rfl, hfailed, hsame, hp⟩ := hempty.write g flt hw (le_refl _) (le_refl _)
  have hnone : ni.backupTableBa = 0 := hsame.backupTableBa
  have hmgmt : ni.mgmtStartBa = s.ni.mgmtStartBa := hfailed.mgmtStartBa
  cases o with
  | none => exact hfailed.book (hfailed.layout.protect true) rfl
  | some main =>
    have hmain := (hp main rfl).mono hmgmt.le hfailed.mappingBlocksTopBa.ge
    have hlo : ni.mgmtStartBa ≤ main.stop := hmain.lo_le.trans hmain.start_lt.le
    have hsingle := hfailed.book (hfailed.layout.placeOnly hnone hmain).markTablesClean (by simp)
    dsimp only
    split
    · exact hsingle
    next nextStart hreserve =>
      have hnext : main.stop ≤ nextStart := tryReserveBlocks_le hreserve
      generalize hw : writeInfoTable g flt _ _ _ = w
      obtain ⟨ni', chip', o, rfl, hfailed', hsame', hq⟩ :=
        hsingle.write g flt hw (hlo.trans hnext) (le_refl _)
      cases o with
      | none => exact hfailed'
      | some backup =>
        have hlimit : ni'.mainLimit = main.stop := by
          have hnone' : ni'.backupTableBa = 0 := hsame'.backupTableBa.trans hnone
          rw [Ni.mainLimit, if_pos hnone', hsame'.mappingBlocksBa]
          rfl
        have hbackup : backup.Within ni'.mainLimit ni'.mappingBlocksTopBa :=
          (hq backup rfl).mono (hlimit.le.trans hnext) (hfailed'.mappingBlocksTopBa.trans
            hsingle.mappingBlocksTopBa.symm).ge
        have hpos : 0 < backup.start :=
          (Nat.zero_lt_of_lt hmain.start_lt).trans_le (hnext.trans (hq backup rfl).lo_le)
        have hboth := hfailed'.book (hfailed'.layout.placeBackup hbackup hpos) (by simp)
        have hmgmt' : ni'.mgmtStartBa = s.ni.mgmtStartBa := hfailed'.mgmtStartBa
        exact hboth.touch (eraseRange_touched g flt _ _ _) (hmgmt'.trans hmgmt.symm |>.le.trans hlo)
          (hbackup.start_lt.le.trans hbackup.stop_le)

/-- A table is written from one of several blocks on, or fails to be. -/
theorem Updated.writeDown {n ba : ℕ} {w : Sys × Option Placed} (h : Updated s s')
    (hw : writeTableDown g flt n ba s' = w) (hlo : s'.ni.mgmtStartBa ≤ lo)
    (hn : lo + n ≤ ba + 1) :
    ∃ ni chip o, w = (⟨ni, chip⟩, o) ∧ Updated s ⟨ni, chip⟩ ∧ SameButStates s'.ni ni ∧
      ∀ p, o = some p → p.Within lo s'.ni.mappingBlocksTopBa := by
  subst hw
  have htouched := @writeTableDown_touched g flt s' lo n ba hn
  exact ⟨_, _, _, rfl, h.touch htouched hlo (le_refl _), htouched.ni,
    fun p hp => writeTableDown_placed g flt hn h.layout.cache hp⟩

theorem Layout.main_le_top (h : Layout ni) : ni.mainTableBa ≤ ni.mappingBlocksTopBa := by
  have hmain := h.main
  have hlimit := h.mainLimit_le
  have htop := h.le_top
  omega

/-- The second table is written again when there is only one. -/
theorem rescueSingleInfoTable_updated (h : Layout s.ni) (hnone : s.ni.backupTableBa = 0)
    (hpos : 0 < s.ni.mappingBlocksBa) : Updated s (rescueSingleInfoTable g flt s).1 := by
  unfold rescueSingleInfoTable
  dsimp only
  generalize hw : writeInfoTable g flt _ _ _ = w
  obtain ⟨ni, chip, o, rfl, hfailed, hsame, hp⟩ :=
    (Updated.refl h).write g flt hw (le_refl _) h.main_le_top
  have hnone' : ni.backupTableBa = 0 := hsame.backupTableBa.trans hnone
  have hmgmt : ni.mgmtStartBa = s.ni.mgmtStartBa := hfailed.mgmtStartBa
  cases o with
  | some p =>
    have hp : p.Within ni.mgmtStartBa ni.mainTableBa :=
      (hp p rfl).mono hmgmt.le hsame.mainTableBa.ge
    have hboth := hfailed.book (hfailed.layout.demoteMain hnone' hp).markTablesClean (by simp)
    have hlo : ni.mgmtStartBa ≤ p.stop := hp.lo_le.trans hp.start_lt.le
    exact hboth.touch (eraseRange_touched g flt _ _ _) hlo hfailed.layout.main_le_top
  | none =>
    dsimp only
    split
    · exact hfailed
    next writeBa hreserve =>
      have hle : ni.mappingBlocksBa ≤ writeBa := tryReserveBlocks_le hreserve
      have hn : ni.mappingBlocksBa + (writeBa + 1 - ni.mappingBlocksBa) ≤ writeBa + 1 := by omega
      generalize hw : writeTableDown g flt _ _ _ = w
      obtain ⟨ni', chip', o, rfl, hfailed', hsame', hq⟩ :=
        hfailed.writeDown g flt hw hfailed.layout.mgmt_le hn
      cases o with
      | none => exact hfailed'
      | some q =>
        have hmapping : ni'.mappingBlocksBa = ni.mappingBlocksBa := hsame'.mappingBlocksBa
        have htop : ni'.mappingBlocksTopBa = ni.mappingBlocksTopBa :=
          hfailed'.mappingBlocksTopBa.trans hfailed.mappingBlocksTopBa.symm
        have hq : q.Within ni'.mappingBlocksBa ni'.mappingBlocksTopBa :=
          (hq q rfl).mono hmapping.le htop.ge
        have hpos' : 0 < q.start :=
          (hsame.mappingBlocksBa ▸ hpos).trans_le (hmapping.ge.trans hq.lo_le)
        have herase := eraseRange_touched g flt ni'.mappingBlocksBa q.start ⟨ni', chip'⟩
        have herased := hfailed'.touch herase hfailed'.layout.mgmt_le
          (hq.start_lt.le.trans hq.stop_le)
        have hq' := hq.mono (herased.layout.mainLimit_le.trans herase.ni.mappingBlocksBa.le)
          (mappingBlocksTopBa_of_fixed herase.ni.fixed).ge
        exact herased.book (herased.layout.placeBackup hq' hpos').markTablesClean (by simp)

theorem updateSingleInfoTable_updated {updateMain : Bool} (h : Layout s.ni)
    (hmain : s.ni.mgmtStartBa ≤ s.ni.mainTableBa) (hsome : s.ni.backupTableBa ≠ 0) :
    Updated s (updateSingleInfoTable g flt updateMain s).1 := by
  have hbackup := h.backup.resolve_left hsome
  have hlimit : s.ni.mainLimit = s.ni.backupTableBa := if_neg hsome
  unfold updateSingleInfoTable
  split
  · dsimp only
    generalize hw : writeInfoTable g flt _ _ _ = w
    obtain ⟨ni, chip, o, rfl, hfailed, hsame, hp⟩ :=
      (Updated.refl h).write g flt hw hmain (hbackup.2.trans h.le_top)
    cases o with
    | some p =>
      have hmgmt : ni.mgmtStartBa = s.ni.mgmtStartBa := hfailed.mgmtStartBa
      have hp : p.Within ni.mgmtStartBa ni.mainLimit :=
        (hp p rfl).mono (hmgmt.le.trans hmain) (hsame.mainLimit.trans hlimit).ge
      exact hfailed.book (hfailed.layout.placeMain hp).markTablesClean (by simp)
    | none =>
      have hpromoted := hfailed.book hfailed.layout.promoteBackup (by simp)
      have hpos : 0 < ni.mappingBlocksBa :=
        hsame.mappingBlocksBa ▸ (Nat.pos_of_ne_zero hsome).trans_le hbackup.2
      exact hpromoted.trans (rescueSingleInfoTable_updated g flt hpromoted.layout rfl hpos)
  · dsimp only
    generalize hw : writeInfoTable g flt _ _ _ = w
    obtain ⟨ni, chip, o, rfl, hfailed, hsame, hp⟩ :=
      (Updated.refl h).write g flt hw hbackup.1 (le_refl _)
    cases o with
    | some p =>
      have hpos : 0 < p.start := (Nat.pos_of_ne_zero hsome).trans_le (hp p rfl).lo_le
      have hp : p.Within ni.mainLimit ni.mappingBlocksTopBa :=
        (hp p rfl).mono (hsame.mainLimit.trans hlimit).le hfailed.mappingBlocksTopBa.ge
      exact hfailed.book (hfailed.layout.placeBackup hp hpos).markTablesClean (by simp)
    | none =>
      have hsome' : ni.backupTableBa ≠ 0 := hsame.backupTableBa.trans_ne hsome
      exact hfailed.book (hfailed.layout.dropBackup hsome') (by simp)

/-- A main table that could not be written is rescued over the backup table. The tables
never overlap: the new main table ends before the temporary one. -/
theorem rescueMainInfoTable_updated (h : Layout s.ni) :
    Updated s (rescueMainInfoTable g flt s).1 := by
  have hrefl := Updated.refl h
  unfold rescueMainInfoTable
  dsimp only
  split
  · exact hrefl.book h.promoteBackup (by simp)
  next writeBa hreserve =>
    have hle := tryReserveBlocks_le hreserve
    have hn : s.ni.mappingBlocksBa + (writeBa + 1 - s.ni.mappingBlocksBa) ≤ writeBa + 1 := by omega
    generalize hw : writeTableDown g flt _ _ _ = w
    obtain ⟨ni, chip, o, rfl, hfailed, hsame, hq⟩ := hrefl.writeDown g flt hw h.mgmt_le hn
    cases o with
    | none => exact hfailed.book hfailed.layout.promoteBackup (by simp)
    | some tmp =>
      have htmp := hq tmp rfl
      have hmapping : ni.mappingBlocksBa ≤ tmp.stop :=
        hsame.mappingBlocksBa.le.trans (htmp.lo_le.trans htmp.start_lt.le)
      have htop : ni.mappingBlocksTopBa = s.ni.mappingBlocksTopBa := hfailed.mappingBlocksTopBa
      have hended := hfailed.book (hfailed.layout.endTables hmapping (htmp.stop_le.trans htop.ge))
        (by simp)
      have hmgmt : ni.mgmtStartBa = s.ni.mgmtStartBa := hfailed.mgmtStartBa
      dsimp only
      generalize hw : writeInfoTable g flt _ _ _ = w
      obtain ⟨ni', chip', o, rfl, hfailed', hsame', hp⟩ := hended.write g flt hw (le_refl _)
        (htmp.start_lt.le.trans (htmp.stop_le.trans htop.ge))
      have hmgmt' : ni'.mgmtStartBa = s.ni.mgmtStartBa := hfailed'.mgmtStartBa
      have hstop : ni'.mappingBlocksBa = tmp.stop := hsame'.mappingBlocksBa
      have htmp' : tmp.Within ni'.mgmtStartBa ni'.mappingBlocksTopBa :=
        htmp.mono (hmgmt'.le.trans h.mgmt_le) hfailed'.mappingBlocksTopBa.ge
      cases o with
      | none =>
        have hsingle := (hfailed'.layout.toArea.single htmp').of_endTables hstop
        exact hfailed'.book hsingle.markTablesClean (by simp)
      | some main =>
        have hmain := (hp main rfl).mono (hmgmt'.trans hmgmt.symm).le (le_refl _)
        have hboth := (hfailed'.layout.toArea.both hmain htmp').of_endTables hstop
        dsimp only
        rw [if_pos hmain.stop_le]
        exact hfailed'.book hboth.markTablesClean (by simp)

theorem updateMainTable_updated {limit : ℕ} (h : Layout s.ni)
    (hlimit : limit = if s.ni.backupTableBa = 0 then s.ni.mappingBlocksTopBa
      else s.ni.backupTableBa) : Updated s (updateMainTable g flt limit s).1 := by
  have hrefl := Updated.refl h
  have hle : limit ≤ s.ni.mappingBlocksTopBa := by
    have hbackup := h.backup
    have htop := h.le_top
    split_ifs at hlimit <;> omega
  unfold updateMainTable
  split_ifs with hmain
  · exact rebuildInfoTable_updated g flt h.toArea
  · have hmain := (h.main.resolve_left hmain).1
    dsimp only
    generalize hw : writeInfoTable g flt _ _ _ = w
    obtain ⟨ni, chip, o, rfl, hfailed, hsame, hp⟩ := hrefl.write g flt hw hmain hle
    have hbackup : ni.backupTableBa = s.ni.backupTableBa := hsame.backupTableBa
    have hmgmt : ni.mgmtStartBa = s.ni.mgmtStartBa := hfailed.mgmtStartBa
    cases o with
    | none =>
      dsimp only
      split_ifs
      · exact hfailed.trans (rebuildInfoTable_updated g flt hfailed.layout.toArea)
      · exact hfailed.trans (rescueMainInfoTable_updated g flt hfailed.layout)
    | some p =>
      have hp := (hp p rfl).mono (hmgmt.le.trans hmain) (le_refl _)
      by_cases hnone : ni.backupTableBa = 0
      · rw [if_pos (hbackup.symm.trans hnone)] at hlimit
        have hp' := hp.mono (le_refl _) (hlimit.le.trans hfailed.mappingBlocksTopBa.ge)
        have hplaced := hfailed.book (hfailed.layout.placeOnly hnone hp').markTablesClean (by simp)
        dsimp only
        rwa [if_pos (show (ni.placeMain p).backupTableBa = 0 from hnone)]
      · rw [if_neg (hbackup.symm.trans_ne hnone)] at hlimit
        have hlimit' : limit = ni.mainLimit := by
          rw [Ni.mainLimit, if_neg hnone, hlimit, hbackup]
        have hp' := hp.mono (le_refl _) hlimit'.le
        have hplaced := hfailed.book (hfailed.layout.placeMain hp').markTablesClean (by simp)
        dsimp only
        rwa [if_neg (show (ni.placeMain p).backupTableBa ≠ 0 from hnone)]

/-- One update of the tables keeps the layout. -/
theorem updateInfoTableOnce_updated {force : Bool} (h : Layout s.ni) :
    Updated s (updateInfoTableOnce g flt force s).1 := by
  have hcache := (Updated.refl h).book h.generate (by simp)
  have hlayout := hcache.layout
  unfold updateInfoTableOnce
  dsimp only
  generalize (generateInfoTableCache s.ni).2 = changed at hcache hlayout ⊢
  generalize (generateInfoTableCache s.ni).1 = ni at hcache hlayout ⊢
  split_ifs with hforce hnone
  · exact hcache
  · exact hcache.trans (updateMainTable_updated g flt hlayout (if_pos hnone).symm)
  · have hbackup := hlayout.backup.resolve_left hnone
    generalize hw : writeInfoTable g flt _ _ _ = w
    obtain ⟨ni', chip, o, rfl, hfailed, hsame, hp⟩ :=
      hcache.write g flt hw hbackup.1 (le_refl _)
    have hbackup' : ni'.backupTableBa = ni.backupTableBa := hsame.backupTableBa
    cases o with
    | none =>
      have hdropped := hfailed.book (hfailed.layout.dropBackup (hbackup'.trans_ne hnone)) (by simp)
      exact hdropped.trans (updateMainTable_updated g flt hdropped.layout (if_pos rfl).symm)
    | some p =>
      have hp := hp p rfl
      have hpos : 0 < p.start := (Nat.pos_of_ne_zero hnone).trans_le hp.lo_le
      have hlimit : ni'.mainLimit = ni.backupTableBa := hsame.mainLimit.trans (if_neg hnone)
      have htop : ni'.mappingBlocksTopBa = ni.mappingBlocksTopBa :=
        hfailed.mappingBlocksTopBa.trans hcache.mappingBlocksTopBa.symm
      have hplaced := hfailed.book (hfailed.layout.placeBackup (hp.mono hlimit.le htop.ge)
        hpos).markTablesClean (by simp)
      exact hplaced.trans (updateMainTable_updated g flt hplaced.layout
        (if_neg (Nat.ne_of_gt hpos)).symm)

theorem updateLoop_updated {fuel : ℕ} {b : Bool} (h : Layout s.ni)
    (hrun : updateLoop g flt fuel s = some (s', b)) : Updated s s' := by
  induction fuel generalizing s with
  | zero =>
    unfold updateLoop at hrun
    split_ifs at hrun
    obtain ⟨rfl, -⟩ := Prod.mk.inj (Option.some_inj.mp hrun)
    exact .refl h
  | succ fuel ih =>
    unfold updateLoop at hrun
    have honce := @updateInfoTableOnce_updated g flt s false h
    dsimp only at hrun
    split_ifs at hrun
    · obtain ⟨rfl, -⟩ := Prod.mk.inj (Option.some_inj.mp hrun)
      exact .refl h
    · exact honce.trans (ih honce.layout hrun)
    · obtain ⟨rfl, -⟩ := Prod.mk.inj (Option.some_inj.mp hrun)
      exact honce

/-- The update keeps the layout, however often it is repeated. -/
theorem updateInfoTable_updated {fuel : ℕ} {b : Bool} (h : Layout s.ni)
    (hrun : updateInfoTable g flt fuel s = some (s', b)) : Updated s s' := by
  unfold updateInfoTable at hrun
  split_ifs at hrun
  · obtain ⟨rfl, -⟩ := Prod.mk.inj (Option.some_inj.mp hrun)
    exact .refl h
  · exact updateLoop_updated g flt h hrun

end NeonWrt.Nmbm
