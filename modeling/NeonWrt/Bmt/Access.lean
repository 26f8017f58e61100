import NeonWrt.Bmt.Backend

/-!
# Reading, writing and erasing through a backend

The accesses that `mtk_bmt.c` puts in place of those of the MTD device. Each
walks over the blocks of its range, looks up the physical block and uses the
chip; where the chip fails, the block is remapped and the access tried again.

Addresses and lengths are in pages. The remaps that a call makes are listed in
its result, with the state each was made in: the driver does not keep them, but
what a call leaves depends on them.
-/

namespace NeonWrt.Bmt

open Lib
open Nmbm (Faults Chip Geometry eUclean pagesPerBlock)

/-- `-EIO`. -/
def eIo : ℤ := -5

namespace Backend

/-- The chip below the backend. -/
def chip : Backend → Chip
  | v2 _ s => s.chip
  | bbt _ t => t.chip
  | nmbm _ s => s.chip

/-- The chip was used. -/
def withChip (c : Chip) : Backend → Backend
  | v2 vb s => v2 vb { s with chip := c }
  | bbt bd t => bbt bd { t with chip := c }
  | nmbm bd s => nmbm bd ⟨s.ni, c⟩

/-- `mtk_bmt_remap_block`. -/
def mtkBmtRemapBlock (flt : Faults) (fuel block mapped copyLen : ℕ) (s : Backend) :
    Option (Backend × Bool) :=
  if mappingBlockInRange s.board block = none then some (s, false)
  else s.remapBlock flt fuel block mapped copyLen

end Backend

/-- A remap: the state it was made in, its arguments, and the page of the block where the access
that failed ends. -/
structure Remap where
  before : Backend
  block : ℕ
  mapped : ℕ
  copyLen : ℕ
  stop : ℕ

/-- How the tries at a block ended: the state, the value of `ret`, the physical block and the result
of the last try unless it failed, and the remaps made. -/
structure Tried where
  state : Backend
  ret : ℤ
  got : Option (ℕ × ℤ)
  remaps : List Remap

/-- How an access ended. -/
structure Done where
  state : Backend
  ret : ℤ
  remaps : List Remap

/-- The chip's read of several pages. What it returns is in the pages. -/
def readPages (flt : Faults) (_cur : ℕ) (c : Chip) : Chip × ℤ := (c.tick, flt.read c.clock)

/-- The chip's write of several pages. -/
def writePages (flt : Faults) (page : ℕ) (data : List Bytes) (cur : ℕ) (c : Chip) : Chip × ℤ :=
  let ret := flt.write c.clock
  ((c.setBlock cur fun p =>
      if p < page ∨ page + data.length ≤ p then c.pages cur p
      else if ret < 0 then flt.residue c.clock p
      else data.getD (p - page) []).tick,
    ret)

section Access

variable (flt : Faults) (fuel : ℕ)

/-- The tries of an access at one block, with the retries left: `retry_count++ < 10` is only
reached after a remap that succeeded. `none` when the fuel of a remap runs out. -/
def tries (attempt : ℕ → Chip → Chip × ℤ) (good : ℤ → Bool) (block copyLen stop : ℕ) :
    ℕ → ℤ → Backend → Option Tried
  | n, ret, s =>
    let cur := s.getMappingBlock block
    if cur < 0 then some ⟨s, eIo, none, []⟩
    else
      let a := attempt cur.toNat s.chip
      let s := s.withChip a.1
      if good a.2 then some ⟨s, if a.2 < 0 then a.2 else ret, some (cur.toNat, a.2), []⟩
      else
        (s.mtkBmtRemapBlock flt fuel block cur.toNat copyLen).bind fun r =>
          let e : Remap := ⟨s, block, cur.toNat, copyLen, stop⟩
          match n with
          | 0 => some ⟨r.1, a.2, none, [e]⟩
          | n + 1 =>
            if r.2 then
              (tries attempt good block copyLen stop n a.2 r.1).map fun t =>
                { t with remaps := e :: t.remaps }
            else some ⟨r.1, a.2, none, [e]⟩

/-- The read has returned the data: no error, or bitflips that were corrected. -/
def readGood (ret : ℤ) : Bool := 0 ≤ ret || ret = eUclean

/-- The remap of `mtk_bmt_read` after too many bitflips, whose result is ignored. -/
def remapFlips (block cur : ℕ) (flips : ℤ) (s : Backend) : Option (Backend × List Remap) :=
  let g := s.board.g
  -- the threshold is unsigned, so `-EUCLEAN` is compared as a large number
  if g.bitflipThreshold ≠ 0 ∧ g.bitflipThreshold ≤ flips % 4294967296 then
    (s.mtkBmtRemapBlock flt fuel block cur g.blkSize).map fun r =>
      (r.1, [⟨s, block, cur, g.blkSize, pagesPerBlock g⟩])
  else some (s, [])

/-- The loop of `mtk_bmt_read`, with `n` pages to go: each round reads at least one. -/
def readBlocks : ℕ → ℕ → ℕ → ℤ → ℤ → List Bytes → Backend → Option (Done × List Bytes)
  | 0, _, _, ret, flips, data, s => some (⟨s, if ret < 0 then ret else flips, []⟩, data)
  | k + 1, addr, n, ret, flips, data, s =>
    if n = 0 then some (⟨s, if ret < 0 then ret else flips, []⟩, data)
    else
      let g := s.board.g
      let block := addr / pagesPerBlock g
      let page := addr % pagesPerBlock g
      let len := min (pagesPerBlock g - page) n
      (tries flt fuel (readPages flt) readGood block g.blkSize (pagesPerBlock g) 10 ret s).bind fun t =>
        match t.got with
        | none => some (⟨t.state, t.ret, t.remaps⟩, data)
        | some (cur, r) =>
          let got := (List.range' page len).map fun p => t.state.chip.pages cur p
          (remapFlips flt fuel block cur r t.state).bind fun u =>
            (readBlocks k (addr + len) (n - len) t.ret (max flips r) (data ++ got) u.1).map fun d =>
              ({ d.1 with remaps := t.remaps ++ u.2 ++ d.1.remaps }, d.2)

/-- `mtk_bmt_read` of `n` pages: the result with the pages read. -/
def mtkBmtRead (addr n : ℕ) (s : Backend) : Option (Done × List Bytes) :=
  readBlocks flt fuel n addr n 0 0 [] s

/-- The loop of `mtk_bmt_write`; each round writes at least one page. -/
def writeBlocks : ℕ → ℕ → List Bytes → Backend → Option Done
  | 0, _, _, s => some ⟨s, 0, []⟩
  | k + 1, addr, data, s =>
    if data = [] then some ⟨s, 0, []⟩
    else
      let g := s.board.g
      let block := addr / pagesPerBlock g
      let page := addr % pagesPerBlock g
      let chunk := data.take (pagesPerBlock g - page)
      (tries flt fuel (writePages flt page chunk) (fun ret => 0 ≤ ret) block (page * g.pgSize)
          (page + chunk.length) 10 0 s).bind fun t =>
        if t.got = none then some ⟨t.state, t.ret, t.remaps⟩
        else
          (writeBlocks k (addr + chunk.length) (data.drop chunk.length) t.state).map fun d =>
            { d with remaps := t.remaps ++ d.remaps }

/-- `mtk_bmt_write` of some pages. -/
def mtkBmtWrite (addr : ℕ) (data : List Bytes) (s : Backend) : Option Done :=
  writeBlocks flt fuel data.length addr data s

/-- The loop of `mtk_bmt_mtd_erase`. -/
def eraseBlocks : ℕ → ℕ → ℕ → Backend → Option Done
  | 0, _, _, s => some ⟨s, 0, []⟩
  | k + 1, addr, stop, s =>
    if stop ≤ addr then some ⟨s, 0, []⟩
    else
      let g := s.board.g
      (tries flt fuel (fun cur c => c.erase g flt cur) (fun ret => ret = 0) (addr / pagesPerBlock g) 0
          (pagesPerBlock g) 10 0 s).bind fun t =>
        if t.got = none then some ⟨t.state, t.ret, t.remaps⟩
        else
          (eraseBlocks k (addr + pagesPerBlock g) stop t.state).map fun d =>
            { d with remaps := t.remaps ++ d.remaps }

/-- `mtk_bmt_mtd_erase` of `n` pages, from the start of the block they lie in. Block numbers fit the
`u16` it keeps them in. -/
def mtkBmtMtdErase (addr n : ℕ) (s : Backend) : Option Done :=
  let start := addr / pagesPerBlock s.board.g * pagesPerBlock s.board.g
  eraseBlocks flt fuel (addr + n - start) start (addr + n) s

end Access

end NeonWrt.Bmt
