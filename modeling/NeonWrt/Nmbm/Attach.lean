import NeonWrt.Nmbm.Table

/-!
# Attaching to a chip and remapping blocks

`nmbm_attach` looks for a signature near the end of the chip. Without one, and if
it may, it creates NMBM anew: it scans for bad blocks, maps the logical blocks to
the good data blocks, writes the signature and the info tables, and maps the
logical blocks left over to spare blocks. With a signature it loads the info
tables and repairs what it finds. Afterwards blocks are remapped on demand.

Creation has a last part, `nmbm_create_info_table`, that both paths share;
`attachStart` models the driver up to that part, and `attach` all of it.
-/

namespace NeonWrt.Nmbm

open Lib

variable (g : Geometry) (flt : Faults)

/-- The properties of the device tree node. -/
structure Config where
  maxRatio : ℕ
  maxReservedBlocks : ℕ
  emptyPageEccOk : Bool
  forceCreate : Bool

/-- `ALIGN`. -/
def align (n a : ℕ) : ℕ := (n + a - 1) / a * a

/-- `nmbm_init_structure`, on the zeroed instance of `mtk_bmt_init_nmbm`. -/
def initStructure (cfg : Config) : Ni :=
  let units := (g.totalBlks + 15) / 16
  let stateTableOff := align infoTableHeaderSize g.pgSize
  let mappingTableOff := stateTableOff + align (4 * units) g.pgSize
  let infoTableSize := mappingTableOff + align (4 * g.totalBlks) g.pgSize
  { signature := ⟨⟨0, 0, 0, 0⟩, 0, 0, 0, 0, 0, 0⟩
    infoTableCache := List.replicate infoTableSize 0
    infoTableSize := infoTableSize
    infoTableSpareBlocks := getSpareBlockCount (size2blk g infoTableSize)
    infoTable := ⟨⟨0, 0, 0, 0⟩, 0, stateTableOff, mappingTableOff⟩
    blockState := List.replicate (16 * units) .good
    blockStateChanged := 0
    stateTableSize := 4 * units
    blockMapping := List.replicate g.totalBlks 0
    blockMappingChanged := 0
    mappingTableSize := 4 * g.totalBlks
    isProtected := false
    blockCount := g.totalBlks
    dataBlockCount := 0
    mgmtStartBa := 0
    mainTableBa := 0
    backupTableBa := 0
    mappingBlocksBa := 0
    mappingBlocksTopBa := 0
    signatureBa := 0
    maxRatio := cfg.maxRatio
    maxReservedBlocks := cfg.maxReservedBlocks
    emptyPageEccOk := cfg.emptyPageEccOk
    forceCreate := cfg.forceCreate
    mainBlocks := []
    backupBlocks := [] }

/-- The loop of `nmbm_scan_badblocks`. -/
def scanLoop : ℕ → ℕ → Sys → Sys
  | 0, _, s => s
  | n + 1, ba, s =>
    let b := checkBadPhysBlock flt ba s.chip
    scanLoop n (ba + 1) ⟨if b.2 then s.ni.setState ba .bad else s.ni, b.1⟩

/-- `nmbm_scan_badblocks`. -/
def scanBadblocks (s : Sys) : Sys := scanLoop flt s.ni.blockCount 0 s

/-- The blocks that `nmbm_build_mapping_table` maps to, in order. -/
def dataBlocks (ni : Ni) : List ℕ := (List.range ni.mgmtStartBa).filter fun pb => ni.state pb ≠ .bad

/-- `nmbm_build_mapping_table`. -/
def buildMappingTable (ni : Ni) : Ni :=
  let blocks := dataBlocks ni
  { ni with
    blockMapping := blocks.map (fun pb : ℕ => (pb : ℤ)) ++
      List.replicate (ni.blockCount - blocks.length) (-1)
    dataBlockCount := blocks.length }

/-- The loop of `nmbm_write_signature`. -/
def writeSignatureLoop (data : Bytes) : ℕ → ℕ → Sys → Sys × Option ℕ
  | 0, _, s => (s, none)
  | n + 1, ba, s =>
    let p := prepareBlock g flt ba s
    let w := writeRepeatedData g flt ba data p.1.chip
    if !p.2 then writeSignatureLoop data n (ba - 1) p.1
    else if w.2 then (⟨p.1.ni, w.1⟩, some ba)
    else writeSignatureLoop data n (ba - 1) ⟨p.1.ni.setState ba .bad, markPhysBadBlock ba w.1⟩

/-- `nmbm_write_signature`. -/
def writeSignature (limit : ℕ) (sig : Signature) (s : Sys) : Sys × Option ℕ :=
  let top := s.ni.blockCount - 1
  writeSignatureLoop g flt sig.bytes (top - limit) top s

/-- The first part of `nmbm_create_info_table`: the tables are built. -/
def createInfoTableStart (s : Sys) : Sys × Bool :=
  match walkDesc s.ni s.ni.signatureBa 1 s.ni.mgmtStartBa with
  | none => (s, false)
  | some top =>
    let c := generateInfoTableCache { s.ni with mappingBlocksTopBa := top }
    rebuildInfoTable g flt ⟨c.1, s.chip⟩

/-- The loop body of `nmbm_create_info_table`: the next logical block is mapped. -/
def mapNext (fuel : ℕ) (s : Sys) : Option (Sys × Bool) := do
  let m ← mapBlock g flt fuel s.ni.dataBlockCount s
  if m.2 then some (⟨{ m.1.ni with dataBlockCount := m.1.ni.dataBlockCount + 1 }, m.1.chip⟩, true)
  else some (m.1, false)

/-- The loop of `nmbm_create_info_table`. -/
def createMapLoop (fuel : ℕ) : ℕ → Sys → Option Sys
  | 0, s => some s
  | n + 1, s => do
    let m ← mapNext g flt fuel s
    if m.2 then createMapLoop fuel n m.1 else some m.1

/-- `nmbm_create_info_table`. -/
def createInfoTable (fuel : ℕ) (s : Sys) : Option (Sys × Bool) :=
  let c := createInfoTableStart g flt s
  if !c.2 then some (c.1, false)
  else do
    let s ← createMapLoop g flt fuel (c.1.ni.mgmtStartBa - c.1.ni.dataBlockCount) c.1
    updateInfoTable g flt fuel s

/-- The boundary that `nmbm_create_new` computes, in `uint32_t`. -/
def mgmtStart (ni : Ni) : ℕ :=
  let start := ni.blockCount * u32Sub 16 ni.maxRatio % 4294967296 / 16
  if ni.maxReservedBlocks ≠ 0 ∧ ni.maxReservedBlocks < u32Sub ni.blockCount start then
    u32Sub ni.blockCount ni.maxReservedBlocks
  else start

/-- The signature that `nmbm_create_new` writes. -/
def newSignature (mgmtStartPb : ℕ) : Signature :=
  let sig : Signature :=
    ⟨⟨magicSignature, nmbmVer, signatureSize, 0⟩, g.totalBlks * g.blkSize, g.blkSize, g.pgSize,
      g.oobSize, mgmtStartPb, tryCount⟩
  { sig with header := { sig.header with
    checksum := checksumOf sig.header (sig.bytes.drop headerSize) } }

/-- `nmbm_create_new`, up to the creation of the info tables. -/
def createNewStart (s : Sys) : Sys × Bool :=
  let s := scanBadblocks flt ⟨{ s.ni with mgmtStartBa := mgmtStart s.ni }, s.chip⟩
  let ni := buildMappingTable s.ni
  let sig := newSignature g ni.mgmtStartBa
  let w := writeSignature g flt ni.mgmtStartBa sig ⟨{ ni with signature := sig }, s.chip⟩
  match w.2 with
  | none => (w.1, false)
  | some ba => (⟨{ w.1.ni with signatureBa := ba }, w.1.chip⟩, true)

/-- An `int32_t` as it compares with a `uint32_t`. -/
def toU32 (n : ℤ) : ℕ := (n % 4294967296).toNat

/-- The lowest target behind a table, as `nmbm_check_info_table` finds it. -/
def minimumMappingPb (endBa : ℕ) (targets : List ℕ) (low : ℕ) : ℕ :=
  targets.foldl (fun low m => if endBa ≤ m ∧ m < low then m else low) low

/-- `nmbm_check_info_table`: the top spare block by the mapping of the table. -/
def checkInfoTable (ni : Ni) (startBa endBa : ℕ) (data : Bytes) : Option ℕ :=
  let targets := ((tableMapping ni data).take ni.dataBlockCount).map toU32
  let states := tableStates ni data
  if targets.any fun m => (ni.dataBlockCount ≤ m && m < endBa) || m == ni.signatureBa then none
  else if (List.range' startBa (endBa - startBa)).any fun ba =>
      ni.state ba = .good && states.getD ba .good ≠ .good then none
  else some (u32Sub (minimumMappingPb endBa targets ni.signatureBa) 1)

/-- The loop of `nmbm_try_load_info_table`: the first block read, the size still to be
read and the data, or `none` when a header is not one of an info table. -/
def tryLoadLoop : ℕ → ℕ → Option ℕ → ℕ → Bytes → Sys → Sys × Option (ℕ × Option ℕ × ℕ × Bytes)
  | 0, ba, start, remain, data, s => (s, some (ba, start, remain, data))
  | n + 1, ba, start, remain, data, s =>
    let b := checkBadPhysBlock flt ba s.chip
    let chunk := min remain g.blkSize
    let r := readData g flt ba 0 chunk b.1
    if remain = 0 then (s, some (ba, start, remain, data))
    else if s.ni.state ba ≠ .good then tryLoadLoop n (ba + 1) start remain data s
    else if b.2 then tryLoadLoop n (ba + 1) start remain data ⟨s.ni.setState ba .bad, b.1⟩
    else if r.2.1 < 0 then
      tryLoadLoop n (ba + 1) start remain data ⟨s.ni.setState ba .bad, r.1⟩
    else if start = none ∧ !checkInfoTableHeader s.ni r.2.2 then (⟨s.ni, r.1⟩, none)
    else tryLoadLoop n (ba + 1) (some (start.getD ba)) (remain - chunk) (data ++ r.2.2) ⟨s.ni, r.1⟩

/-- What is found out about a table that is loaded. -/
structure Loaded where
  stop : ℕ
  writeCount : ℕ
  top : ℕ

/-- The copies at the end of `nmbm_try_load_info_table`. -/
def Ni.adopt (ni : Ni) (data : Bytes) : Ni :=
  { ni with
    infoTable := .ofBytes data
    blockState := tableStates ni data
    blockMapping := tableMapping ni data }

/-- The data read is in the cache. -/
def Ni.cacheRead (ni : Ni) (data : Bytes) : Ni :=
  { ni with infoTableCache := overwrite ni.infoTableCache 0 data }

/-- The checks at the end of `nmbm_try_load_info_table`, for a table that was read. -/
def acceptTable (tableLoaded : Bool) (start stop : ℕ) (data : Bytes) (ni : Ni) :
    Ni × Option Loaded :=
  if !checkHeader data ni.infoTableSize then (ni, none)
  else
    match checkInfoTable ni start stop data with
    | none => (ni, none)
    | some top =>
      let count := (InfoTableHeader.ofBytes data).writeCount
      (if !tableLoaded || ni.infoTable.writeCount < count then ni.adopt data else ni,
        some ⟨stop, count, top⟩)

/-- `nmbm_try_load_info_table`. -/
def tryLoadInfoTable (ba : ℕ) (tableLoaded : Bool) (s : Sys) : Sys × Option Loaded :=
  let l := tryLoadLoop g flt (size2blk g s.ni.infoTableSize) ba none s.ni.infoTableSize [] s
  match l.2 with
  | none => (l.1, none)
  | some (stop, start, remain, data) =>
    let ni := l.1.ni.cacheRead data
    if remain ≠ 0 then (⟨ni, l.1.chip⟩, none)
    else
      let a := acceptTable tableLoaded (start.getD 0) stop data ni
      (⟨a.1, l.1.chip⟩, a.2)

/-- The loop of `nmbm_search_info_table`. -/
def searchLoop (tableLoaded : Bool) : ℕ → ℕ → Sys → Sys × Option (ℕ × Loaded)
  | 0, _, s => (s, none)
  | n + 1, ba, s =>
    let t := tryLoadInfoTable g flt ba tableLoaded s
    match t.2 with
    | some l => (t.1, some (ba, l))
    | none => searchLoop tableLoaded n (ba + 1) t.1

/-- `nmbm_search_info_table`. -/
def searchInfoTable (ba limit : ℕ) (tableLoaded : Bool) (s : Sys) : Sys × Option (ℕ × Loaded) :=
  searchLoop g flt tableLoaded (u32Sub limit (size2blk g s.ni.infoTableSize) - ba) ba s

/-- A table that was found where it is. -/
def Loaded.placed (l : Loaded) (ba : ℕ) : Placed := ⟨ba, l.stop, List.range' ba (l.stop - ba)⟩

/-- The final `data_block_count`: the logical blocks up to the last that is mapped. -/
def countMapped (ni : Ni) : ℕ → ℕ → ℕ
  | 0, dflt => dflt
  | n + 1, dflt => if 0 ≤ ni.mapping n then n + 1 else countMapped ni n dflt

/-- The choices of `nmbm_load_info_table` once the tables are found: the boundaries, the
data blocks and a fresh cache. -/
def Ni.settle (ni : Ni) (main : Loaded) (backup : Option Loaded) : Ni :=
  let ni := match backup with
    | none => { ni with mappingBlocksTopBa := main.top, mappingBlocksBa := main.stop }
    | some b => { ni with
        mappingBlocksTopBa := if b.writeCount ≤ main.writeCount then main.top else b.top
        mappingBlocksBa := b.stop }
  let ni := { ni with
    dataBlockCount := countMapped ni ni.signature.mgmtStartPb ni.dataBlockCount }
  (generateInfoTableCache ni).1

/-- State and mapping tables count as changed. -/
def Ni.markTablesChanged (ni : Ni) : Ni :=
  { ni with blockStateChanged := 1, blockMappingChanged := 1 }

/-- The repairs of `nmbm_load_info_table`. -/
def repairTables (main : Loaded) (backup : Option Loaded) (s : Sys) : Sys × Bool :=
  match backup with
  | none => rescueSingleInfoTable g flt s
  | some b =>
    if main.writeCount ≠ b.writeCount then
      updateSingleInfoTable g flt (main.writeCount < b.writeCount)
        ⟨s.ni.markTablesChanged, s.chip⟩
    else (s, true)

/-- The initial values of `nmbm_load_info_table`. -/
def Ni.beginLoad (ni : Ni) : Ni :=
  { (ni.dropMain.dropBackup) with
    infoTable := { ni.infoTable with writeCount := 0 }
    mappingBlocksTopBa := u32Sub ni.signatureBa 1
    dataBlockCount := ni.signature.mgmtStartPb }

/-- The device is made read-only under a condition. -/
def Ni.protectIf (ni : Ni) (b : Bool) : Ni := { ni with isProtected := ni.isProtected || b }

/-- The end of `nmbm_load_info_table`: the choice between the tables, the repairs and the
write protection. -/
def finishLoad (main : Loaded) (backup : Option (ℕ × Loaded)) (s : Sys) : Sys :=
  let ni := match backup with
    | none => s.ni
    | some (backupBa, b) => s.ni.placeBackup (b.placed backupBa)
  let r := repairTables g flt main (backup.map Prod.snd)
    ⟨ni.settle main (backup.map Prod.snd), s.chip⟩
  ⟨r.1.ni.protectIf (r.1.ni.mappingBlocksBa == r.1.ni.mappingBlocksTopBa || !r.2), r.1.chip⟩

/-- The part of `nmbm_load_info_table` after the first table is found. -/
def loadSecond (limit mainBa : ℕ) (main : Loaded) (s : Sys) : Sys :=
  let b := searchInfoTable g flt main.stop limit true
    ⟨s.ni.placeMain (main.placed mainBa), s.chip⟩
  finishLoad g flt main b.2 b.1

/-- `nmbm_load_info_table`. -/
def loadInfoTable (ba limit : ℕ) (s : Sys) : Sys × Bool :=
  let m := searchInfoTable g flt ba limit false ⟨s.ni.beginLoad, s.chip⟩
  match m.2 with
  | none => (m.1, false)
  | some (mainBa, main) => (loadSecond g flt limit mainBa main m.1, true)

/-- The lower limit of the search for the signature. -/
def signatureLimit (ni : Ni) : ℕ :=
  let limit := ni.blockCount / 16 * u32Sub 16 ni.maxRatio % 4294967296
  if ni.maxReservedBlocks ≠ 0 ∧ ni.maxReservedBlocks < u32Sub ni.blockCount limit then
    u32Sub ni.blockCount ni.maxReservedBlocks
  else limit

/-- The pages of a block, searched for a signature. -/
def findInPages (ba : ℕ) : ℕ → ℕ → Chip → Chip × Option Signature
  | 0, _, c => (c, none)
  | n + 1, page, c =>
    let r := readData g flt ba page signatureSize c
    if r.2.1 = 0 ∧ checkHeader r.2.2 signatureSize = true ∧
        (Signature.ofBytes r.2.2).header.magic = magicSignature then
      (r.1, some (.ofBytes r.2.2))
    else findInPages ba n (page + 1) r.1

/-- The loop of `nmbm_find_signature`, from the block below `ba` downwards. -/
def findLoop : ℕ → ℕ → Chip → Chip × Option (Signature × ℕ)
  | 0, _, c => (c, none)
  | n + 1, ba, c =>
    let b := checkBadPhysBlock flt (ba - 1) c
    let f := findInPages g flt (ba - 1) (pagesPerBlock g) 0 b.1
    if b.2 then findLoop n (ba - 1) b.1
    else
      match f.2 with
      | some sig => (f.1, some (sig, ba - 1))
      | none => findLoop n (ba - 1) f.1

/-- `nmbm_find_signature`. The search includes the block below its limit. -/
def findSignature (s : Sys) : Chip × Option (Signature × ℕ) :=
  findLoop g flt (s.ni.blockCount + 1 - signatureLimit s.ni) s.ni.blockCount s.chip

/-- Where `nmbm_attach` gets without `nmbm_create_info_table`. -/
inductive Started where
  | failed
  | attached (s : Sys)
  | creating (s : Sys)

/-- `nmbm_load_existing`, up to the creation of info tables. -/
def loadExisting (s : Sys) : Started :=
  let ni := { s.ni with mgmtStartBa := s.ni.signature.mgmtStartPb }
  let l := loadInfoTable g flt ni.mgmtStartBa ni.signatureBa ⟨ni, s.chip⟩
  if l.2 then .attached l.1
  else if !l.1.ni.forceCreate then .failed
  else
    let s := scanBadblocks flt l.1
    .creating ⟨buildMappingTable s.ni, s.chip⟩

/-- `nmbm_attach`, up to the creation of info tables. -/
def attachStart (cfg : Config) (chip : Chip) : Started :=
  let s : Sys := ⟨initStructure g cfg, chip⟩
  let f := findSignature g flt s
  match f.2 with
  | none =>
    if !cfg.forceCreate then .failed
    else
      let c := createNewStart g flt ⟨s.ni, f.1⟩
      if c.2 then .creating c.1 else .failed
  | some (sig, ba) =>
    if sig.header.version ≠ nmbmVer then .failed
    else if sig.nandSize ≠ g.totalBlks * g.blkSize ∨ sig.blockSize ≠ g.blkSize ∨
        sig.pageSize ≠ g.pgSize ∨ sig.spareSize ≠ g.oobSize then .failed
    else loadExisting g flt ⟨{ s.ni with signature := sig, signatureBa := ba }, f.1⟩

/-- `nmbm_attach`; the attached instance if it succeeds, and `none` when the fuel of an
update runs out. -/
def attach (fuel : ℕ) (cfg : Config) (chip : Chip) : Option (Option Sys) :=
  match attachStart g flt cfg chip with
  | .failed => some none
  | .attached s => some (some s)
  | .creating s => do
    let c ← createInfoTable g flt fuel s
    some (if c.2 then some c.1 else none)

/-- `get_mapping_block_index_nmbm`. -/
def getMappingBlockIndex (ni : Ni) (block : ℕ) : ℤ :=
  if ni.dataBlockCount ≤ block then -1 else ni.mapping block

/-- `remap_block_nmbm`. -/
def remapBlock (fuel block mapped copyLen : ℕ) (s : Sys) : Option (Sys × Bool) :=
  if s.ni.dataBlockCount ≤ block then some (s, false)
  else do
    let m ← mapBlock g flt fuel block ⟨s.ni.setState mapped .bad, s.chip⟩
    if !m.2 then some (m.1, false)
    else
      let newBlock := (m.1.ni.mapping block).toNat
      let chip := bbtNandErase g flt newBlock m.1.chip
      let chip := if 0 < copyLen then bbtNandCopy g flt newBlock mapped copyLen chip else chip
      let u ← updateInfoTable g flt fuel ⟨m.1.ni, chip⟩
      some (u.1, true)

end NeonWrt.Nmbm
