import NeonWrt.Nmbm.Chip
import Mathlib.Data.List.GetD

/-!
# The device below the remapping backends

What `mtk_bmt.c` and `mtk_bmt.h` share among the backends: the board with its
remap ranges, and the accesses to tables on the chip. A page holds its data
followed by its OOB bytes; OOB bytes that are not there read as `0xff`.
-/

namespace NeonWrt.Bmt

open Lib Nmbm

/-- The chip, whose blocks have a power of two of bytes, and `mediatek,bmt-remap-range`: pairs of
byte addresses on the chip. -/
structure Board where
  g : Geometry
  blkShift : ℕ
  remapRange : List (ℕ × ℕ)
  blkSize_eq : g.blkSize = 2 ^ blkShift
  range_le : ∀ r ∈ remapRange, r.2 ≤ g.totalBlks * g.blkSize

/-- `mapping_block_in_range`: the range of a block. Without a device tree property it ends at the
number of blocks, which is no byte address. -/
def mappingBlockInRange (bd : Board) (block : ℕ) : Option (ℕ × ℕ) :=
  let addr := (block <<< bd.blkShift) % 2 ^ 32
  if bd.remapRange = [] then some (0, bd.g.totalBlks)
  else bd.remapRange.find? fun r => !(addr < r.1 || r.2 ≤ addr)

/-- A byte of the data a block holds, over its pages. -/
def bufAt (g : Geometry) (c : Chip) (ba j : ℕ) : UInt8 :=
  (c.pages ba (j / g.pgSize)).getD (j % g.pgSize) 0xff

/-- A byte of the OOB area of a block's first page. -/
def oobAt (g : Geometry) (c : Chip) (ba i : ℕ) : UInt8 := (c.pages ba 0).getD (g.pgSize + i) 0xff

/-- A page of a table, with the signature in the OOB area of the first. -/
def bmtPage (g : Geometry) (sig : Bytes) (oobOffset : ℕ) (dat : ℕ → UInt8) (p : ℕ) : Bytes :=
  (List.range g.pgSize).map (fun k => dat (p * g.pgSize + k)) ++
    if p = 0 then List.replicate (1 + oobOffset) 0xff ++ sig else []

/-- `write_bmt`, one write of all pages of a table. Pages the write does not reach stay. -/
def writeBmt (g : Geometry) (flt : Faults) (sig : Bytes) (oobOffset pgs ba : ℕ) (dat : ℕ → UInt8)
    (c : Chip) : Chip × ℤ :=
  let ret := flt.write c.clock
  ((c.setBlock ba fun p =>
      if pgs ≤ p then c.pages ba p
      else if ret = 0 then bmtPage g sig oobOffset dat p
      else flt.residue c.clock p).tick,
    ret)

section Accesses

variable {g : Geometry} {flt : Faults} {sig : Bytes} {oobOffset pgs ba : ℕ} {dat : ℕ → UInt8}
  {c : Chip}

theorem writeBmt_pages_ne {ba' : ℕ} (h : ba' ≠ ba) :
    (writeBmt g flt sig oobOffset pgs ba dat c).1.pages ba' = c.pages ba' := by
  funext p
  exact if_neg h

theorem writeBmt_page {p : ℕ} (hp : p < pgs) (hret : flt.write c.clock = 0) :
    (writeBmt g flt sig oobOffset pgs ba dat c).1.pages ba p = bmtPage g sig oobOffset dat p := by
  simp [writeBmt, Chip.setBlock, Nat.not_le.mpr hp, hret]

theorem erase_pages_ne {ba' : ℕ} (h : ba' ≠ ba) : (c.erase g flt ba).1.pages ba' = c.pages ba' := by
  funext p
  exact if_neg h

theorem bmtPage_getD {p k : ℕ} (hk : k < g.pgSize) :
    (bmtPage g sig oobOffset dat p).getD k 0xff = dat (p * g.pgSize + k) := by
  rw [bmtPage, List.getD_append _ _ _ _ (by simpa using hk)]
  simp [hk]

theorem bufAt_writeBmt {j : ℕ} (hj : j < pgs * g.pgSize) (hret : flt.write c.clock = 0) :
    bufAt g (writeBmt g flt sig oobOffset pgs ba dat c).1 ba j = dat j := by
  have hp : j / g.pgSize < pgs := (Nat.div_lt_iff_lt_mul g.pgSize_pos).mpr hj
  have hk : j % g.pgSize < g.pgSize := Nat.mod_lt _ g.pgSize_pos
  rw [bufAt, writeBmt_page hp hret, bmtPage_getD hk, Nat.div_add_mod']

theorem oobAt_writeBmt {i : ℕ} (hpgs : 0 < pgs) (hret : flt.write c.clock = 0) :
    oobAt g (writeBmt g flt sig oobOffset pgs ba dat c).1 ba i =
      (List.replicate (1 + oobOffset) 0xff ++ sig).getD i 0xff := by
  rw [oobAt, writeBmt_page hpgs hret, bmtPage, if_pos rfl, List.getD_append_right _ _ _ _ (by simp)]
  simp

end Accesses

end NeonWrt.Bmt
