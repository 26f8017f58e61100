import NeonWrt.Nmbm.Chip

/-!
# The NMBM instance

The state of the driver (`struct nmbm_instance`) and the functions that only look
at it: block states, the walks over good blocks, and the layout of the info table
in memory and on flash.

The physical blocks are divided by boundaries. Data blocks lie below
`mgmtStartBa`; the info tables grow upwards from there to `mappingBlocksBa`;
the spare blocks that logical blocks are remapped to grow downwards from the
signature block, and `mappingBlocksTopBa` is the next one to be handed out.
-/

namespace NeonWrt.Nmbm

open Lib

/-- The two-bit state of a block. -/
inductive BlockState where
  | bad
  | unused
  | needRemap
  | good
  deriving DecidableEq

/-- The value of a state in the state table. -/
def BlockState.code : BlockState → ℕ
  | .bad => 0
  | .unused => 1
  | .needRemap => 2
  | .good => 3

/-- The state of a value, by its lowest two bits. -/
def BlockState.ofCode (n : ℕ) : BlockState :=
  match n % 4 with
  | 0 => .bad
  | 1 => .unused
  | 2 => .needRemap
  | _ => .good

/-- `struct nmbm_header`. -/
structure Header where
  magic : ℕ
  version : ℕ
  size : ℕ
  checksum : ℕ
  deriving DecidableEq

/-- `struct nmbm_signature`. -/
structure Signature where
  header : Header
  nandSize : ℕ
  blockSize : ℕ
  pageSize : ℕ
  spareSize : ℕ
  mgmtStartPb : ℕ
  maxTryCount : ℕ
  deriving DecidableEq

/-- `struct nmbm_info_table_header`. -/
structure InfoTableHeader where
  header : Header
  writeCount : ℕ
  stateTableOff : ℕ
  mappingTableOff : ℕ
  deriving DecidableEq

/-- `struct nmbm_instance`. The driver keeps the first block of a table only;
`mainBlocks` and `backupBlocks` are ghost fields for all blocks it was written to. -/
structure Ni where
  signature : Signature
  infoTableCache : Bytes
  infoTableSize : ℕ
  infoTableSpareBlocks : ℕ
  infoTable : InfoTableHeader
  blockState : List BlockState
  blockStateChanged : ℕ
  stateTableSize : ℕ
  blockMapping : List ℤ
  blockMappingChanged : ℕ
  mappingTableSize : ℕ
  isProtected : Bool
  blockCount : ℕ
  dataBlockCount : ℕ
  mgmtStartBa : ℕ
  mainTableBa : ℕ
  backupTableBa : ℕ
  mappingBlocksBa : ℕ
  mappingBlocksTopBa : ℕ
  signatureBa : ℕ
  maxRatio : ℕ
  maxReservedBlocks : ℕ
  emptyPageEccOk : Bool
  forceCreate : Bool
  mainBlocks : List ℕ
  backupBlocks : List ℕ

/-- The instance and the chip below it. -/
structure Sys where
  ni : Ni
  chip : Chip

variable (g : Geometry) (flt : Faults)

/-- `NMBM_MAGIC_SIGNATURE`. -/
def magicSignature : ℕ := 0x304d4d4e

/-- `NMBM_MAGIC_INFO_TABLE`. -/
def magicInfoTable : ℕ := 0x314d4d4e

/-- `NMBM_VER`, version 1.0. -/
def nmbmVer : ℕ := 1

/-- `nmbm_get_block_state`. -/
def Ni.state (ni : Ni) (ba : ℕ) : BlockState := ni.blockState.getD ba .good

/-- `nmbm_set_block_state`. -/
def Ni.setState (ni : Ni) (ba : ℕ) (st : BlockState) : Ni :=
  { ni with
    blockState := ni.blockState.set ba st
    blockStateChanged :=
      if ni.state ba ≠ st then u32Inc ni.blockStateChanged else ni.blockStateChanged }

/-- The physical block of a logical block, negative if there is none. -/
def Ni.mapping (ni : Ni) (lb : ℕ) : ℤ := ni.blockMapping.getD lb (-1)

/-- `nmbm_get_spare_block_count`. -/
def getSpareBlockCount (blockCount : ℕ) : ℕ := max ((blockCount + 1) / 2) 2

/-- The loop of `nmbm_block_walk_asc`. -/
def walkAscLoop (ni : Ni) : ℕ → ℕ → ℕ → Option ℕ
  | 0, _, _ => none
  | n + 1, ba, count =>
    if ni.state ba = .good then
      match count with
      | 0 => some ba
      | count + 1 => walkAscLoop ni n (ba + 1) count
    else walkAscLoop ni n (ba + 1) count

/-- The limit of a walk, which stays on the chip. -/
def walkLimit (ni : Ni) (limit : ℕ) : ℕ :=
  if ni.blockCount ≤ limit then ni.blockCount - 1 else limit

/-- `nmbm_block_walk_asc`. -/
def walkAsc (ni : Ni) (ba count limit : ℕ) : Option ℕ :=
  walkAscLoop ni (walkLimit ni limit - ba) ba count

/-- The loop of `nmbm_block_walk_desc`. -/
def walkDescLoop (ni : Ni) : ℕ → ℕ → ℕ → Option ℕ
  | 0, _, _ => none
  | n + 1, ba, count =>
    if ni.state ba = .good then
      match count with
      | 0 => some ba
      | count + 1 => walkDescLoop ni n (ba - 1) count
    else walkDescLoop ni n (ba - 1) count

/-- `nmbm_block_walk_desc`. -/
def walkDesc (ni : Ni) (ba count limit : ℕ) : Option ℕ :=
  walkDescLoop ni (ba - walkLimit ni limit) ba count

/-- `nmbm_try_reserve_blocks`, whose callers all accept no spare block at all. -/
def tryReserveBlocks (ni : Ni) (ba : ℕ) : ℕ → ℕ → Option ℕ
  | 0, limit => walkAsc ni ba 0 limit
  | count + 1, limit =>
    match walkAsc ni ba (count + 1) limit with
    | some nba => some nba
    | none => tryReserveBlocks ni ba count limit

/-- A header as it is stored. -/
def Header.bytes (h : Header) : Bytes :=
  u32le h.magic ++ u32le h.version ++ u32le h.size ++ u32le h.checksum

/-- The header at the start of a buffer. -/
def Header.ofBytes (b : Bytes) : Header := ⟨getU32 b 0, getU32 b 4, getU32 b 8, getU32 b 12⟩

/-- The size of a header. -/
def headerSize : ℕ := 16

/-- A signature as it is stored, with its padding. -/
def Signature.bytes (s : Signature) : Bytes :=
  s.header.bytes ++ u32le s.nandSize ++ u32le (s.nandSize / 4294967296) ++ u32le s.blockSize ++
    u32le s.pageSize ++ u32le s.spareSize ++ u32le s.mgmtStartPb ++
    [UInt8.ofNat s.maxTryCount, 0, 0, 0, 0, 0, 0, 0]

/-- The size of a signature. -/
def signatureSize : ℕ := 48

/-- The signature at the start of a buffer. -/
def Signature.ofBytes (b : Bytes) : Signature where
  header := .ofBytes b
  nandSize := getU32 b 16 + 4294967296 * getU32 b 20
  blockSize := getU32 b 24
  pageSize := getU32 b 28
  spareSize := getU32 b 32
  mgmtStartPb := getU32 b 36
  maxTryCount := (b.getD 40 0).toNat

/-- The header of an info table as it is stored, with its padding. -/
def InfoTableHeader.bytes (h : InfoTableHeader) : Bytes :=
  h.header.bytes ++ u32le h.writeCount ++ u32le h.stateTableOff ++ u32le h.mappingTableOff ++
    u32le 0

/-- The size of the header of an info table. -/
def infoTableHeaderSize : ℕ := 32

/-- The header at the start of an info table. -/
def InfoTableHeader.ofBytes (b : Bytes) : InfoTableHeader where
  header := .ofBytes b
  writeCount := getU32 b 16
  stateTableOff := getU32 b 20
  mappingTableOff := getU32 b 24

/-- The checksum of a structure with the given header: that of the structure with a
zero in its place. -/
def checksumOf (h : Header) (rest : Bytes) : ℕ :=
  crc32le (crc32le 0 { h with checksum := 0 }.bytes) rest

/-- `nmbm_check_header`. -/
def checkHeader (data : Bytes) (size : ℕ) : Bool :=
  let h := Header.ofBytes data
  if size < h.size then false
  else h.checksum == checksumOf h ((data.drop headerSize).take (h.size - headerSize))

/-- The state table, four blocks to a byte. -/
def packStates : List BlockState → Bytes
  | a :: b :: c :: d :: rest =>
    UInt8.ofNat (a.code + 4 * b.code + 16 * c.code + 64 * d.code) :: packStates rest
  | _ => []

/-- The states of a state table. -/
def unpackStates (b : Bytes) : List BlockState :=
  b.flatMap fun c => [.ofCode c.toNat, .ofCode (c.toNat / 4), .ofCode (c.toNat / 16),
    .ofCode (c.toNat / 64)]

/-- The mapping table. -/
def packMapping (m : List ℤ) : Bytes := m.flatMap i32le

/-- The first entries of a mapping table. -/
def unpackMapping (b : Bytes) (count : ℕ) : List ℤ :=
  (List.range count).map fun k => getI32 b (4 * k)

/-- `nmbm_generate_info_table_cache`: whether anything changed, with the new cache. -/
def generateInfoTableCache (ni : Ni) : Ni × Bool :=
  let changed := ni.blockStateChanged ≠ 0 || ni.blockMappingChanged ≠ 0
  let header : Header :=
    ⟨magicInfoTable, nmbmVer, ni.infoTableSize, ni.infoTable.header.checksum⟩
  let table : InfoTableHeader := { ni.infoTable with
    header := header
    writeCount := if changed then u32Inc ni.infoTable.writeCount else ni.infoTable.writeCount }
  let blank := List.replicate ni.infoTableSize 0xff
  let cache := overwrite blank table.stateTableOff (packStates ni.blockState)
  let cache := overwrite cache table.mappingTableOff (packMapping ni.blockMapping)
  let cache := overwrite cache 0 table.bytes
  let checksum := checksumOf header (cache.drop headerSize)
  ({ ni with
    infoTable := table
    infoTableCache := overwrite cache 0 { header with checksum := checksum }.bytes }, changed)

/-- `nmbm_check_info_table_header`. -/
def checkInfoTableHeader (ni : Ni) (data : Bytes) : Bool :=
  let h := InfoTableHeader.ofBytes data
  h.header.magic == magicInfoTable && h.header.size == ni.infoTableSize &&
    ni.stateTableSize ≤ u32Sub h.mappingTableOff h.stateTableOff &&
    ni.mappingTableSize ≤ u32Sub ni.infoTableSize h.mappingTableOff

/-- The mapping in an info table. -/
def tableMapping (ni : Ni) (data : Bytes) : List ℤ :=
  unpackMapping (data.drop (InfoTableHeader.ofBytes data).mappingTableOff) ni.blockCount

/-- The states in an info table. -/
def tableStates (ni : Ni) (data : Bytes) : List BlockState :=
  unpackStates ((data.drop (InfoTableHeader.ofBytes data).stateTableOff).take ni.stateTableSize)

variable {ni : Ni} {ba nba count limit n : ℕ}

theorem walkAscLoop_bounds (h : walkAscLoop ni n ba count = some nba) :
    ba ≤ nba ∧ nba < ba + n := by
  induction n generalizing ba count with
  | zero => simp [walkAscLoop] at h
  | succ n ih =>
    unfold walkAscLoop at h
    split_ifs at h
    · split at h
      · obtain rfl := Option.some_inj.mp h
        omega
      · have := ih h
        omega
    · have := ih h
      omega

theorem walkAsc_le (h : walkAsc ni ba count limit = some nba) : ba ≤ nba :=
  (walkAscLoop_bounds h).1

theorem walkDescLoop_bounds (h : walkDescLoop ni n ba count = some nba) (hn : n ≤ ba) :
    nba ≤ ba ∧ ba < nba + n := by
  induction n generalizing ba count with
  | zero => simp [walkDescLoop] at h
  | succ n ih =>
    unfold walkDescLoop at h
    split_ifs at h
    · split at h
      · obtain rfl := Option.some_inj.mp h
        omega
      · have := ih h (by omega)
        omega
    · have := ih h (by omega)
      omega

theorem walkDesc_bounds (h : walkDesc ni ba count limit = some nba) :
    nba ≤ ba ∧ walkLimit ni limit < nba := by
  have := walkDescLoop_bounds h (by omega)
  by_cases hba : walkLimit ni limit ≤ ba
  · omega
  · rw [walkDesc, show ba - walkLimit ni limit = 0 by omega] at h
    simp [walkDescLoop] at h

theorem walkLimit_of_lt (h : limit < ni.blockCount) : walkLimit ni limit = limit := by
  rw [walkLimit, if_neg (by omega)]

theorem walkDescLoop_good (h : walkDescLoop ni n ba count = some nba) : ni.state nba = .good := by
  induction n generalizing ba count with
  | zero => simp [walkDescLoop] at h
  | succ n ih =>
    unfold walkDescLoop at h
    split_ifs at h with hgood
    · split at h
      · exact Option.some_inj.mp h ▸ hgood
      · exact ih h
    · exact ih h

theorem walkDesc_good (h : walkDesc ni ba count limit = some nba) : ni.state nba = .good :=
  walkDescLoop_good h

/-- A descending walk that starts at a good block stays there. -/
theorem walkDesc_of_good (hgood : ni.state ba = .good) (h : walkDesc ni ba 0 limit = some nba) :
    nba = ba := by
  unfold walkDesc at h
  generalize ba - walkLimit ni limit = n at h
  cases n with
  | zero => simp [walkDescLoop] at h
  | succ n => simpa [walkDescLoop, hgood, eq_comm] using h

theorem tryReserveBlocks_le (h : tryReserveBlocks ni ba count limit = some nba) : ba ≤ nba := by
  induction count with
  | zero => exact walkAsc_le h
  | succ count ih =>
    unfold tryReserveBlocks at h
    split at h
    next nba' hwalk => exact Option.some_inj.mp h ▸ walkAsc_le hwalk
    next => exact ih h

end NeonWrt.Nmbm
