import NeonWrt.Bmt.Device

/-!
# The BMT v2 backend

`mtk_bmt_v2.c` keeps the physical block of every logical block in `bb_tbl`, and
the blocks of a pool at the end of the chip, with a flag for each, in `bmt_tbl`
behind it. Both lie in one buffer of 16-bit words, which is written to a block of
the pool.
-/

namespace NeonWrt.Bmt

open Lib Nmbm

/-- The board with the properties of the device tree that `mtk_bmt_init_v2` reads. The pool leaves
room for data blocks, and the buffer has an entry for each logical block and each block of the
pool. -/
structure V2Board where
  bd : Board
  poolSize : ℕ
  tableSize : ℕ
  oobOffset : ℕ
  pool_lt : poolSize + 2 < bd.g.totalBlks
  table_le : bd.g.totalBlks - poolSize ≤ tableSize
  pool_le : 2 * poolSize ≤ tableSize

namespace V2Board

variable (vb : V2Board)

/-- The number of blocks of the MTD device, `mtd->size >> blk_shift`. -/
def mainBlocks : ℕ := vb.bd.g.totalBlks - vb.poolSize - 2

/-- `bmtd.pool_lba`. -/
def poolLba : ℕ := vb.bd.g.totalBlks - vb.poolSize

/-- `bmtd.bb_max`. -/
def bbMax : ℕ := vb.bd.g.totalBlks * 2 / 100

/-- `bmtd.bmt_pgs`: the pages of the header and of `bmt_table_size` entries of `struct bbmt`. -/
def bmtPgs : ℕ := (4 + vb.tableSize * 4 + vb.bd.g.pgSize - 1) / vb.bd.g.pgSize

end V2Board

/-- The state of the backend: the words from `bb_tbl` on, `bmtd.bmt_blk_idx` and the chip. -/
structure V2 where
  tbl : ℕ → ℕ
  bmtBlkIdx : ℕ
  chip : Chip

/-- `NO_MAPPED`. -/
def noMapped : ℕ := 0

/-- `NORMAL_MAPPED`. -/
def normalMapped : ℕ := 1

/-- `BMT_MAPPED`. -/
def bmtMapped : ℕ := 2

/-- The value of `(u16)-1`. -/
def noIndex : ℕ := 65535

section Table

variable (vb : V2Board)

/-- `bmt_tbl(bbt)[i].block`. -/
def blockAt (tbl : ℕ → ℕ) (i : ℕ) : ℕ := tbl (vb.tableSize + 2 * i)

/-- `bmt_tbl(bbt)[i].mapped`. -/
def mappedAt (tbl : ℕ → ℕ) (i : ℕ) : ℕ := tbl (vb.tableSize + 2 * i + 1)

/-- `bmt_tbl(bbt)[i].block = v`. -/
def setBlockAt (i v : ℕ) (tbl : ℕ → ℕ) : ℕ → ℕ := Function.update tbl (vb.tableSize + 2 * i) v

/-- `bmt_tbl(bbt)[i].mapped = v`. -/
def setMappedAt (i v : ℕ) (tbl : ℕ → ℕ) : ℕ → ℕ := Function.update tbl (vb.tableSize + 2 * i + 1) v

end Table

/-- The buffer of a table: signature, version and the words. -/
def bbtBuf (tbl : ℕ → ℕ) (j : ℕ) : UInt8 :=
  if j < 4 then (ascii "BMT" ++ [2]).getD j 0
  else if j % 2 = 0 then UInt8.ofNat (tbl ((j - 4) / 2))
  else UInt8.ofNat (tbl ((j - 4) / 2) / 256)

/-- The words of a buffer. -/
def bufTbl (buf : ℕ → UInt8) (i : ℕ) : ℕ := (buf (4 + 2 * i)).toNat + 256 * (buf (5 + 2 * i)).toNat

variable (vb : V2Board) (flt : Faults)

/-- `upload_bmt`, from entry `n` of the pool downwards, for `n + 1`. -/
def uploadBmt : ℕ → V2 → V2 × ℕ
  | 0, s => (s, noIndex)
  | n + 1, s =>
    if mappedAt vb s.tbl n = normalMapped then (s, noIndex)
    else
      let block := blockAt vb s.tbl n
      let e := s.chip.erase vb.bd.g flt block
      let w := writeBmt vb.bd.g flt (ascii "bmt") vb.oobOffset vb.bmtPgs block (bbtBuf s.tbl) e.1
      -- a block that fails is dropped from the pool, and the one before it is tried
      if e.2 ≠ 0 then uploadBmt n { s with tbl := setBlockAt vb n 0 s.tbl, chip := e.1 }
      else if w.2 ≠ 0 then uploadBmt n { s with tbl := setBlockAt vb n 0 s.tbl, chip := w.1 }
      else ({ s with chip := w.1 }, n)

/-- The table is written and its index kept, as all callers do. -/
def V2.upload (s : V2) : V2 :=
  let r := uploadBmt vb flt (s.bmtBlkIdx + 1) s
  { r.1 with bmtBlkIdx := r.2 }

/-- `find_valid_block_in_pool`: the entry taken. -/
def findValidBlockInPool (s : V2) : Option ℕ :=
  (List.range s.bmtBlkIdx).find? fun i =>
    blockAt vb s.tbl i ≠ 0 ∧ mappedAt vb s.tbl i = noMapped

/-- The entry of a block of the pool is taken for a logical block. -/
def V2.take (block i : ℕ) (s : V2) : V2 :=
  { s with
    tbl := Function.update (setMappedAt vb i normalMapped s.tbl) block (blockAt vb s.tbl i) }

/-- The new block is erased and gets the data of the old one. -/
def V2.fill (newBlock mappedBlock copyLen : ℕ) (s : V2) : V2 :=
  let erased := bbtNandErase vb.bd.g flt newBlock s.chip
  { s with
    chip := if 0 < copyLen then bbtNandCopy vb.bd.g flt newBlock mappedBlock copyLen erased
      else erased }

/-- `remap_block_v2`. -/
def V2.remapBlock (block mappedBlock copyLen : ℕ) (s : V2) : V2 × Bool :=
  match findValidBlockInPool vb s with
  | none => (s, false)
  | some i =>
    (((s.take vb block i).fill vb flt (blockAt vb s.tbl i) mappedBlock copyLen).upload vb flt, true)

/-- `get_mapping_block_index_v2`. -/
def V2.getMappingBlockIndex (s : V2) (block : ℕ) : ℕ :=
  if vb.poolLba ≤ block then block
  else if mappingBlockInRange vb.bd block = none then block
  else s.tbl block

/-- `unmap_block_v2`. -/
def V2.unmapBlock (block : ℕ) (s : V2) : V2 :=
  V2.upload vb flt { s with tbl := Function.update s.tbl block block }

/-- `mtk_bmt_get_mapping_mask`. -/
def mappingMask (s : V2) (k : ℕ) : Bool :=
  (List.range vb.mainBlocks).any fun i => 1 ≤ i ∧ s.tbl i ≠ i ∧
    (List.range s.bmtBlkIdx).find? (fun k => s.tbl i = blockAt vb s.tbl k) = some k

/-- The entries that command `100` of `mtk_bmt_debug_v2` frees. -/
def freed (s : V2) : List ℕ :=
  (List.range (s.bmtBlkIdx + 1)).filter fun i =>
    mappedAt vb s.tbl i = normalMapped ∧ mappingMask vb s i = false

/-- Command `100` of `mtk_bmt_debug_v2`; no other command changes the state. -/
def V2.debugFree (s : V2) : V2 :=
  let tbl := (freed vb s).foldl (fun tbl i => setMappedAt vb i noMapped tbl) s.tbl
  if freed vb s = [] then s else V2.upload vb flt { s with tbl := tbl }

/-- `mtk_bmt_debug_repair`. -/
def V2.debugRepair (block : ℕ) (s : V2) : V2 :=
  let prev := s.getMappingBlockIndex vb block
  let s := s.unmapBlock vb flt block
  let new := s.getMappingBlockIndex vb block
  if prev = new then s else s.fill vb flt new prev vb.bd.g.blkSize

/-- `find_valid_block`, with the retries left. -/
def findValidBlock : ℕ → ℕ → Chip → Chip × ℕ
  | left, block, c =>
    if vb.bd.g.totalBlks ≤ block then (c, 0)
    else if 0 ≤ flt.read c.clock ∧ oobAt vb.bd.g c block vb.oobOffset = 0xff then (c.tick, block)
    else
      match left with
      | 0 => (c.tick, 0)
      | left + 1 => findValidBlock left (block + 1) c.tick

/-- The loop of `scan_bad_blocks` over the logical blocks. -/
def scanMain : ℕ → ℕ → V2 → V2 × Bool
  | 0, _, s => (s, true)
  | n + 1, i, s =>
    let r := findValidBlock vb flt vb.bbMax (s.tbl (i - 1) + 1) s.chip
    let s := { s with tbl := Function.update s.tbl i r.2, chip := r.1 }
    if r.2 = 0 then (s, false) else scanMain n (i + 1) s

/-- The loop of `scan_bad_blocks` over the pool: the number of blocks found. Each round moves on
by a block, so there are no more rounds than blocks. -/
def scanPool : ℕ → ℕ → ℕ → V2 → V2 × ℕ
  | 0, _, i, s => (s, i)
  | n + 1, block, i, s =>
    let r := findValidBlock vb flt vb.bbMax block s.chip
    if r.2 = 0 then ({ s with chip := r.1 }, i)
    else
      scanPool n (r.2 + 1) (i + 1)
        { s with tbl := setMappedAt vb i noMapped (setBlockAt vb i r.2 s.tbl), chip := r.1 }

/-- `scan_bad_blocks`. -/
def scanBadBlocks (s : V2) : Option V2 :=
  let r := scanMain vb flt (vb.poolLba - 1) 1 { s with tbl := Function.update s.tbl 0 0 }
  let poolPba := r.1.tbl (vb.poolLba - 1) + 1
  let p := scanPool vb flt vb.bd.g.totalBlks poolPba 0 r.1
  if !r.2 then none
  else if vb.bd.g.totalBlks - 2 ≤ poolPba then none
  else if p.2 < 1 then none
  else some { p.1 with
    tbl := setMappedAt vb (p.2 - 1) bmtMapped p.1.tbl, bmtBlkIdx := p.2 - 1 }

/-- `is_valid_bmt`. -/
def isValidBmt (c : Chip) (block : ℕ) : Bool :=
  (List.range 4).all (fun j => bufAt vb.bd.g c block j = (ascii "BMT" ++ [2]).getD j 0) &&
    (List.range 3).all fun j => oobAt vb.bd.g c block (vb.oobOffset + 1 + j) = (ascii "bmt").getD j 0

/-- `get_bmt_index`, over at most the given number of entries. -/
def getBmtIndex (tbl : ℕ → ℕ) : ℕ → ℕ → ℕ
  | 0, _ => 0
  | n + 1, i =>
    if blockAt vb tbl i = 0 then 0
    else if mappedAt vb tbl i = bmtMapped then i
    else getBmtIndex tbl n (i + 1)

/-- The words that are read from a block over what was in the buffer. -/
def readTbl (c : Chip) (block : ℕ) (tbl : ℕ → ℕ) (i : ℕ) : ℕ :=
  if 5 + 2 * i < vb.bmtPgs * vb.bd.g.pgSize then bufTbl (bufAt vb.bd.g c block) i else tbl i

/-- The scan of `mtk_bmt_init_v2` for a table, from block `pool_lba + n - 1` downwards. A table
without an index ends it. -/
def findBmt : ℕ → V2 → V2 × Bool
  | 0, s => (s, false)
  | n + 1, s =>
    let block := vb.poolLba + n
    let c := s.chip.tick
    if flt.read s.chip.clock < 0 then findBmt n { s with chip := c }
    else
      let tbl := readTbl vb s.chip block s.tbl
      let idx := getBmtIndex vb tbl vb.tableSize 0
      if !isValidBmt vb s.chip block then findBmt n { s with tbl := tbl, chip := c }
      else if idx = 0 then ({ s with tbl := tbl, bmtBlkIdx := idx, chip := c }, false)
      else ({ s with tbl := tbl, bmtBlkIdx := idx, chip := c }, true)

/-- `memset(bmt_tbl(bmtd.bbt), 0, ...)`. -/
def clearPool (tbl : ℕ → ℕ) (i : ℕ) : ℕ :=
  if vb.tableSize ≤ i ∧ i < vb.tableSize + 2 * vb.tableSize then 0 else tbl i

/-- A table is built and written. -/
def createBmt (s : V2) : Option V2 :=
  if vb.tableSize + vb.tableSize * 2 / 100 < vb.bd.g.totalBlks then none
  else do
    let s ← scanBadBlocks vb flt { s with tbl := clearPool vb s.tbl }
    let s := s.upload vb flt
    if s.bmtBlkIdx = noIndex then none else some s

/-- `mtk_bmt_init_v2` on a chip; the buffer is filled with `0xff` before. -/
def initV2 (chip : Chip) : Option V2 :=
  let r := findBmt vb flt vb.poolSize ⟨fun _ => 0xffff, 0, chip⟩
  if r.2 then some r.1 else createBmt vb flt r.1

end NeonWrt.Bmt
