import NeonWrt.Bmt.Bbt
import NeonWrt.Bmt.V2
import NeonWrt.Nmbm.Frame

/-!
# The three backends

The operations that `mtk_bmt.c` reaches through `struct mtk_bmt_ops`, for the
backend the device tree selects, and what a remap does to the physical blocks of
other logical blocks. The tables of v2 and NMBM change in one place. The BBT
backend computes the mapping from the bad blocks, and one more bad block moves
other logical blocks of its range.
-/

namespace NeonWrt.Bmt

open Lib
open Nmbm (Faults Chip Geometry)

/-- A backend with its board and state. -/
inductive Backend where
  | v2 (vb : V2Board) (s : V2)
  | bbt (bd : Board) (t : Bbt)
  | nmbm (bd : Board) (s : Nmbm.Sys)

namespace Backend

/-- The board. -/
def board : Backend → Board
  | v2 vb _ => vb.bd
  | bbt bd _ => bd
  | nmbm bd _ => bd

/-- The number of blocks of the MTD device, as `init` sets it. -/
def logicalBlocks : Backend → ℕ
  | v2 vb _ => vb.mainBlocks
  | bbt bd _ => bd.g.totalBlks - 4
  | nmbm _ s => s.ni.dataBlockCount

/-- `get_mapping_block`. -/
def getMappingBlock : Backend → ℕ → ℤ
  | v2 vb s, block => s.getMappingBlockIndex vb block
  | bbt bd t, block => t.getMappingBlockIndex bd block
  | nmbm _ s, block => Nmbm.getMappingBlockIndex s.ni block

/-- `remap_block`; `none` when the fuel for the tables of NMBM runs out. -/
def remapBlock (flt : Faults) (fuel block mapped copyLen : ℕ) : Backend → Option (Backend × Bool)
  | v2 vb s =>
    let r := s.remapBlock vb flt block mapped copyLen
    some (v2 vb r.1, r.2)
  | bbt bd t =>
    let r := t.remapBlock bd flt block mapped copyLen
    some (bbt bd r.1, r.2)
  | nmbm bd s => (Nmbm.remapBlock bd.g flt fuel block mapped copyLen s).map fun r => (nmbm bd r.1, r.2)

/-- No other logical block lies where the retired physical block makes it move. -/
def ShiftFree (block mapped : ℕ) : Backend → Prop
  | bbt bd t => ∀ block' < bd.g.totalBlks - 4, block' ≠ block →
      ∀ r, blockRange bd block' = some r → Undisturbed t.isBad r.1 r.2 mapped block'
  | v2 _ _ | nmbm _ _ => True

end Backend

theorem uploadBmt_tbl (vb : V2Board) (flt : Faults) (n : ℕ) (s : V2) {i : ℕ}
    (hi : i < vb.tableSize) : (uploadBmt vb flt n s).1.tbl i = s.tbl i := by
  induction n generalizing s with
  | zero => rfl
  | succ n ih =>
    have hne : i ≠ vb.tableSize + 2 * n := by omega
    rw [uploadBmt]
    dsimp only
    split_ifs
    · rfl
    · rw [ih]
      exact Function.update_of_ne hne ..
    · rw [ih]
      exact Function.update_of_ne hne ..
    · rfl

theorem V2.getMappingBlockIndex_remapBlock {vb : V2Board} {flt : Faults} {s s' : V2}
    {block mapped copyLen : ℕ} (h : s.remapBlock vb flt block mapped copyLen = (s', true))
    {block' : ℕ} (hne : block' ≠ block) :
    s'.getMappingBlockIndex vb block' = s.getMappingBlockIndex vb block' := by
  rw [V2.remapBlock] at h
  split at h
  · cases h
  · obtain rfl := (Prod.mk.inj h).1
    rw [V2.getMappingBlockIndex, V2.getMappingBlockIndex]
    split_ifs with hpool hrange
    · rfl
    · rfl
    · -- an entry of `bb_tbl` lies below the pool's entries
      have hlt : block' < vb.tableSize := by
        have hle := vb.table_le
        rw [V2Board.poolLba] at hpool
        omega
      next i _ =>
      have hflag : block' ≠ vb.tableSize + 2 * i + 1 := by omega
      rw [V2.upload, uploadBmt_tbl vb flt _ _ hlt]
      simp [V2.fill, V2.take, setMappedAt, Function.update_of_ne hne, Function.update_of_ne hflag]

/-- A chip of eight blocks, the first four of them in a remap range. -/
def smallBoard : Board where
  g := ⟨256, 64, 8, 0, 0, 0, Nmbm.smallBlock_pos, Nmbm.smallPage_pos, by decide⟩
  blkShift := 8
  remapRange := [(0, 1024)]
  blkSize_eq := rfl
  range_le := by decide

/-- No operation on the chip fails. -/
def noFaults : Faults := ⟨fun _ => 0, fun _ => 0, fun _ => [], fun _ => 0, fun _ _ => [], fun _ _ => false⟩

/-- A chip whose table, in the last block, says that all blocks are good. -/
def goodChip : Chip :=
  ⟨fun ba p =>
    if ba = 7 then bmtPage smallBoard.g (ascii "mtknand") 0 (fun _ => 0) p else List.replicate 64 0xff,
    0⟩

end NeonWrt.Bmt
