import NeonWrt.Nmbm.Instance

/-!
# Writing and updating the info tables

The info table is kept twice, as main and backup table, in the management area
between `mgmtStartBa` and `mappingBlocksTopBa`. A table is written to the next
good blocks from a given block on; blocks that fail are marked bad and skipped.
This file models that and what the driver makes of it: building both tables,
updating them in place, and rescuing when one of them cannot be written.
-/

namespace NeonWrt.Nmbm

open Lib

variable (g : Geometry) (flt : Faults)

/-- The start of every write: the block is good, not marked by the user, and erased.
A block that fails the erasure is marked bad. -/
def prepareBlock (ba : ℕ) (s : Sys) : Sys × Bool :=
  let b := checkBadPhysBlock flt ba s.chip
  let e := eraseBlockAndCheck g flt s.ni.emptyPageEccOk ba b.1
  if s.ni.state ba ≠ .good then (s, false)
  else if b.2 then (⟨s.ni.setState ba .bad, b.1⟩, false)
  else if e.2 then (⟨s.ni, e.1⟩, true)
  else (⟨s.ni.setState ba .bad, markPhysBadBlock ba e.1⟩, false)

/-- The loop of `nmbm_erase_range`. -/
def eraseLoop : ℕ → ℕ → Sys → Sys
  | 0, _, s => s
  | n + 1, ba, s => eraseLoop n (ba + 1) (prepareBlock g flt ba s).1

/-- `nmbm_erase_range`. -/
def eraseRange (ba limit : ℕ) (s : Sys) : Sys := eraseLoop g flt (limit - ba) ba s

/-- The loop body of `nmbm_write_mgmt_range`: whether the chunk was written. -/
def writeMgmtBlock (ba : ℕ) (chunk : Bytes) (s : Sys) : Sys × Bool :=
  let p := prepareBlock g flt ba s
  let w := writeVerifyData g flt ba chunk p.1.chip
  if !p.2 then (p.1, false)
  else if w.2 then (⟨p.1.ni, w.1⟩, true)
  else (⟨p.1.ni.setState ba .bad, markPhysBadBlock ba w.1⟩, false)

/-- Where a table was written: its first block, the block after its end, and all
blocks that hold it. -/
structure Placed where
  start : ℕ
  stop : ℕ
  blocks : List ℕ

/-- The loop of `nmbm_write_mgmt_range`, with the blocks written so far. -/
def writeMgmtLoop : ℕ → ℕ → Bytes → List ℕ → Sys → Sys × Option Placed
  | 0, ba, data, blocks, s =>
    (s, if data = [] then some ⟨blocks.headD ba, ba, blocks⟩ else none)
  | n + 1, ba, data, blocks, s =>
    if data = [] then (s, some ⟨blocks.headD ba, ba, blocks⟩)
    else
      let w := writeMgmtBlock g flt ba (data.take g.blkSize) s
      if w.2 then writeMgmtLoop n (ba + 1) (data.drop g.blkSize) (blocks ++ [ba]) w.1
      else writeMgmtLoop n (ba + 1) data blocks w.1

/-- `nmbm_write_mgmt_range`. -/
def writeMgmtRange (ba limit : ℕ) (data : Bytes) (s : Sys) : Sys × Option Placed :=
  writeMgmtLoop g flt (limit - ba) ba data [] s

/-- `nmbm_write_info_table`. -/
def writeInfoTable (ba limit : ℕ) (s : Sys) : Sys × Option Placed :=
  writeMgmtRange g flt ba limit s.ni.infoTableCache s

/-- The loops of the rescue functions, which try one block earlier each time. -/
def writeTableDown : ℕ → ℕ → Sys → Sys × Option Placed
  | 0, _, s => (s, none)
  | n + 1, ba, s =>
    let w := writeInfoTable g flt ba s.ni.mappingBlocksTopBa s
    match w.2 with
    | some p => (w.1, some p)
    | none => writeTableDown n (ba - 1) w.1

/-- `nmbm_mark_tables_clean`. -/
def Ni.markTablesClean (ni : Ni) : Ni :=
  { ni with blockStateChanged := 0, blockMappingChanged := 0 }

/-- The table becomes the main table. -/
def Ni.placeMain (ni : Ni) (p : Placed) : Ni :=
  { ni with mainTableBa := p.start, mainBlocks := p.blocks }

/-- The table becomes the backup table. -/
def Ni.placeBackup (ni : Ni) (p : Placed) : Ni :=
  { ni with backupTableBa := p.start, backupBlocks := p.blocks }

/-- The end of the tables is moved. -/
def Ni.endTables (ni : Ni) (ba : ℕ) : Ni := { ni with mappingBlocksBa := ba }

/-- There is no main table any more. -/
def Ni.dropMain (ni : Ni) : Ni := { ni with mainTableBa := 0, mainBlocks := [] }

/-- There is no backup table any more. -/
def Ni.dropBackup (ni : Ni) : Ni := { ni with backupTableBa := 0, backupBlocks := [] }

/-- The main table becomes the backup table. -/
def Ni.demoteMain (ni : Ni) : Ni :=
  { ni with backupTableBa := ni.mainTableBa, backupBlocks := ni.mainBlocks }

/-- The backup table becomes the main table. -/
def Ni.promoteBackup (ni : Ni) : Ni :=
  { ni with mainTableBa := ni.backupTableBa, mainBlocks := ni.backupBlocks }.dropBackup

/-- The limit up to which blocks are reserved before a table: one more table fits. -/
def reserveLimit (ni : Ni) : ℕ := u32Sub ni.mappingBlocksTopBa (size2blk g ni.infoTableSize)

/-- `nmbm_rebuild_info_table`. -/
def rebuildInfoTable (s : Sys) : Sys × Bool :=
  let ni := (s.ni.dropMain.dropBackup).endTables s.ni.mappingBlocksTopBa
  let w := writeInfoTable g flt ni.mgmtStartBa ni.mappingBlocksTopBa ⟨ni, s.chip⟩
  match w.2 with
  | none => (⟨{ w.1.ni with isProtected := true }, w.1.chip⟩, false)
  | some main =>
    let ni := ((w.1.ni.placeMain main).endTables main.stop).markTablesClean
    match tryReserveBlocks ni main.stop ni.infoTableSpareBlocks (reserveLimit g ni) with
    | none => (⟨ni, w.1.chip⟩, true)
    | some nextStart =>
      let w := writeInfoTable g flt nextStart ni.mappingBlocksTopBa ⟨ni, w.1.chip⟩
      match w.2 with
      | none => (w.1, true)
      | some backup =>
        let ni := (w.1.ni.placeBackup backup).endTables backup.stop
        (eraseRange g flt main.stop backup.start ⟨ni, w.1.chip⟩, true)

/-- `nmbm_rescue_single_info_table`. -/
def rescueSingleInfoTable (s : Sys) : Sys × Bool :=
  let w := writeInfoTable g flt s.ni.mgmtStartBa s.ni.mainTableBa s
  match w.2 with
  | some p =>
    let ni := (w.1.ni.demoteMain.placeMain p).markTablesClean
    (eraseRange g flt p.stop ni.backupTableBa ⟨ni, w.1.chip⟩, true)
  | none =>
    let s := w.1
    match tryReserveBlocks s.ni s.ni.mappingBlocksBa s.ni.infoTableSpareBlocks
        (reserveLimit g s.ni) with
    | none => (s, false)
    | some writeBa =>
      let w := writeTableDown g flt (writeBa + 1 - s.ni.mappingBlocksBa) writeBa s
      match w.2 with
      | none => (w.1, false)
      | some p =>
        let s := eraseRange g flt w.1.ni.mappingBlocksBa p.start w.1
        (⟨((s.ni.placeBackup p).endTables p.stop).markTablesClean, s.chip⟩, true)

/-- `nmbm_update_single_info_table`. -/
def updateSingleInfoTable (updateMain : Bool) (s : Sys) : Sys × Bool :=
  if updateMain then
    let w := writeInfoTable g flt s.ni.mainTableBa s.ni.backupTableBa s
    match w.2 with
    | some p => (⟨(w.1.ni.placeMain p).markTablesClean, w.1.chip⟩, true)
    | none => rescueSingleInfoTable g flt ⟨w.1.ni.promoteBackup, w.1.chip⟩
  else
    let w := writeInfoTable g flt s.ni.backupTableBa s.ni.mappingBlocksTopBa s
    match w.2 with
    | some p => (⟨((w.1.ni.placeBackup p).endTables p.stop).markTablesClean, w.1.chip⟩, true)
    | none => (⟨(w.1.ni.endTables w.1.ni.backupTableBa).dropBackup, w.1.chip⟩, false)

/-- The end of `nmbm_rescue_main_info_table`, for a main table that has overwritten the
temporary one: a new backup table is written behind it. -/
def rescueBackup (main : Placed) (s : Sys) : Sys :=
  let ni := s.ni.endTables main.stop
  match tryReserveBlocks ni main.stop ni.infoTableSpareBlocks (reserveLimit g ni) with
  | none => ⟨ni.dropBackup, s.chip⟩
  | some writeBa =>
    let w := writeTableDown g flt (writeBa + 1 - main.stop) writeBa ⟨ni, s.chip⟩
    match w.2 with
    | none => ⟨w.1.ni.dropBackup, w.1.chip⟩
    | some p =>
      eraseRange g flt main.stop p.start
        ⟨(w.1.ni.placeBackup p).endTables p.stop, w.1.chip⟩

/-- `nmbm_rescue_main_info_table`. -/
def rescueMainInfoTable (s : Sys) : Sys × Bool :=
  match tryReserveBlocks s.ni s.ni.mappingBlocksBa s.ni.infoTableSpareBlocks
      (reserveLimit g s.ni) with
  | none => (⟨s.ni.promoteBackup, s.chip⟩, true)
  | some writeBa =>
    let w := writeTableDown g flt (writeBa + 1 - s.ni.mappingBlocksBa) writeBa s
    match w.2 with
    | none => (⟨w.1.ni.promoteBackup, w.1.chip⟩, true)
    | some tmp =>
      let s := ⟨w.1.ni.endTables tmp.stop, w.1.chip⟩
      let w := writeInfoTable g flt s.ni.mgmtStartBa tmp.start s
      match w.2 with
      | none => (⟨((w.1.ni.placeMain tmp).dropBackup).markTablesClean, w.1.chip⟩, true)
      | some main =>
        let s := ⟨(w.1.ni.placeMain main).markTablesClean, w.1.chip⟩
        if main.stop ≤ tmp.start then (⟨s.ni.placeBackup tmp, s.chip⟩, true)
        else (rescueBackup g flt main s, true)

/-- The part of `nmbm_update_info_table_once` from `write_main_table` on. -/
def updateMainTable (limit : ℕ) (s : Sys) : Sys × Bool :=
  if s.ni.mainTableBa = 0 then rebuildInfoTable g flt s
  else
    let w := writeInfoTable g flt s.ni.mainTableBa limit s
    match w.2 with
    | none =>
      if w.1.ni.backupTableBa = 0 then rebuildInfoTable g flt w.1
      else rescueMainInfoTable g flt w.1
    | some p =>
      let ni := w.1.ni.placeMain p
      let ni := if ni.backupTableBa = 0 then ni.endTables p.stop else ni
      (⟨ni.markTablesClean, w.1.chip⟩, true)

/-- `nmbm_update_info_table_once`. -/
def updateInfoTableOnce (force : Bool) (s : Sys) : Sys × Bool :=
  let c := generateInfoTableCache s.ni
  let s : Sys := ⟨c.1, s.chip⟩
  if !c.2 && !force then (s, true)
  else if s.ni.backupTableBa = 0 then updateMainTable g flt s.ni.mappingBlocksTopBa s
  else
    let w := writeInfoTable g flt s.ni.backupTableBa s.ni.mappingBlocksTopBa s
    match w.2 with
    | none =>
      let ni := (w.1.ni.endTables w.1.ni.backupTableBa).dropBackup
      updateMainTable g flt ni.mappingBlocksTopBa ⟨ni, w.1.chip⟩
    | some p =>
      let ni := ((w.1.ni.placeBackup p).endTables p.stop).markTablesClean
      updateMainTable g flt ni.backupTableBa ⟨ni, w.1.chip⟩

/-- The state or the mapping table has changed. -/
def Ni.changed (ni : Ni) : Bool := ni.blockStateChanged ≠ 0 || ni.blockMappingChanged ≠ 0

/-- The loop of `nmbm_update_info_table`; `none` when the fuel runs out. -/
def updateLoop : ℕ → Sys → Option (Sys × Bool)
  | 0, s => if s.ni.changed then none else some (s, true)
  | fuel + 1, s =>
    if !s.ni.changed then some (s, true)
    else
      let u := updateInfoTableOnce g flt false s
      if u.2 then updateLoop fuel u.1 else some (u.1, false)

/-- `nmbm_update_info_table`. -/
def updateInfoTable (fuel : ℕ) (s : Sys) : Option (Sys × Bool) :=
  if s.ni.isProtected then some (s, true) else updateLoop g flt fuel s

/-- The block of `nmbm_map_block` is taken. -/
def Ni.takeSpare (ni : Ni) (lb pb : ℕ) : Ni :=
  { ni with
    blockMapping := ni.blockMapping.set lb pb
    mappingBlocksTopBa := ni.mappingBlocksTopBa - 1
    blockMappingChanged := u32Inc ni.blockMappingChanged }

/-- `nmbm_map_block`. -/
def mapBlock (fuel lb : ℕ) (s : Sys) : Option (Sys × Bool) :=
  if s.ni.mappingBlocksBa = s.ni.mappingBlocksTopBa then some (s, false)
  else
    match walkDesc s.ni s.ni.mappingBlocksTopBa 0 s.ni.mappingBlocksBa with
    | none => do
      let u ← updateInfoTable g flt fuel s
      some (⟨{ u.1.ni with mappingBlocksTopBa := u.1.ni.mappingBlocksBa }, u.1.chip⟩, false)
    | some pb => some (⟨s.ni.takeSpare lb pb, s.chip⟩, true)

end NeonWrt.Nmbm
