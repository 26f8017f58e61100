import NeonWrt.Nmbm.Frame
import NeonWrt.Nmbm.Runs

/-!
# Taking a remap back

`unmap_block_nmbm` maps a remapped logical block to the data area again. Where it was before is
not noted: the driver goes back to the nearest logical block that is not remapped, and adds the
distance to the physical block of that one. Then the topmost free spare block is found anew.
-/

namespace NeonWrt.Nmbm

open Lib

variable (g : Geometry) (flt : Faults)

/-- The comparison of `unmap_block_nmbm` for a block that is remapped. It is one of `uint32_t`, so
that a negative target counts as well. -/
def Ni.isRemapped (ni : Ni) (lb : ℕ) : Bool := ni.mappingBlocksBa ≤ toU32 (ni.mapping lb)

/-- The loop of `unmap_block_nmbm` back to a logical block that is not remapped: that block, and the
offset. -/
def findHome (ni : Ni) : ℕ → ℕ → Option (ℕ × ℕ)
  | 0, offset => if ni.isRemapped 0 then none else some (0, offset)
  | start + 1, offset =>
    if ni.isRemapped (start + 1) then findHome ni start (offset + 1) else some (start + 1, offset)

/-- The body of the loop of `unmap_block_nmbm` for the boundary. -/
def lowerTop (ni : Ni) (newBlock : ℤ) (block : ℕ) : ℤ :=
  if !ni.isRemapped block then newBlock
  else if ni.mapping block ≤ newBlock then ni.mapping block - 1
  else newBlock

/-- The loop of `unmap_block_nmbm` over all logical blocks. -/
def spareTop (ni : Ni) : ℤ :=
  (List.range ni.dataBlockCount).foldl (lowerTop ni) (ni.signatureBa - 1)

/-- A logical block is mapped to a new block, which counts as good. -/
def Ni.putBack (ni : Ni) (block : ℕ) (newBlock : ℤ) : Ni :=
  let ni := ni.setState (toU32 newBlock) .good
  { ni with
    blockMapping := ni.blockMapping.set block newBlock
    blockMappingChanged := u32Inc ni.blockMappingChanged }

/-- The boundary of the free spare blocks is found anew. -/
def Ni.findTop (ni : Ni) : Ni := { ni with mappingBlocksTopBa := toU32 (spareTop ni) }

/-- `unmap_block_nmbm`. The number of blocks is a `u16`, so that its last loop ends. -/
def unmapBlock (fuel block : ℕ) (s : Sys) : Option Sys :=
  if s.ni.dataBlockCount ≤ block then some s
  else
    match findHome s.ni block 0 with
    | none => some s
    | some (start, offset) =>
      if offset = 0 then some s
      else
        (updateInfoTable g flt fuel
          ⟨(s.ni.putBack block (s.ni.mapping start + offset)).findTop, s.chip⟩).map Prod.fst

/-- `mtk_bmt_debug_repair`, for the block of its address. -/
def debugRepair (fuel block : ℕ) (s : Sys) : Option (Sys × ℤ) :=
  let prevBlock := getMappingBlockIndex s.ni block
  if prevBlock < 0 then some (s, -5)
  else
    -- `unmap_block` takes a `u16`
    (unmapBlock g flt fuel (block % 65536) s).map fun s =>
      let newBlock := getMappingBlockIndex s.ni block
      if newBlock < 0 then (s, -5)
      else if prevBlock = newBlock then (s, 0)
      else
        let chip := bbtNandErase g flt newBlock.toNat s.chip
        (⟨s.ni, bbtNandCopy g flt newBlock.toNat prevBlock.toNat g.blkSize chip⟩, 0)

/-- The operations of a run, with the two that take a remap back. -/
inductive UndoOp where
  | base (op : Op)
  | unmap (block : ℕ)
  | repair (block : ℕ)

/-- An operation; `none` when it is not possible or the fuel of an update runs out. -/
def execUndo (fuel : ℕ) (w : World) : UndoOp → Option World
  | .base op => exec g flt fuel w op
  | .unmap block =>
    if w.phase = .attached ∧ block < 65536 then
      (unmapBlock g flt fuel block w.sys).map fun s => ⟨s, .attached⟩
    else none
  | .repair block =>
    if w.phase = .attached then
      (debugRepair g flt fuel block w.sys).map fun r => ⟨r.1, .attached⟩
    else none

/-- A step of a run with these operations. -/
def UndoStep (w : World) (op : UndoOp) (w' : World) : Prop := ∃ fuel, execUndo g flt fuel w op = some w'

variable {g flt} {ni ni' : Ni} {s s' : Sys} {block start offset fuel k : ℕ}

/-- The search ends at a logical block that is not remapped, behind which all are. -/
theorem findHome_some (h : findHome ni k offset = some (start, fuel)) :
    start ≤ k ∧ fuel = offset + (k - start) ∧ ni.isRemapped start = false ∧
      ∀ i, start < i → i ≤ k → ni.isRemapped i = true := by
  induction k generalizing offset with
  | zero =>
    rw [findHome] at h
    split_ifs at h with hremapped
    obtain ⟨rfl, rfl⟩ := Prod.mk.inj (Option.some.inj h)
    exact ⟨le_rfl, by omega, Bool.eq_false_iff.mpr hremapped, fun i _ _ => by omega⟩
  | succ k ih =>
    rw [findHome] at h
    split_ifs at h with hremapped
    · obtain ⟨hle, heq, hhome, hbehind⟩ := ih h
      refine ⟨by omega, by omega, hhome, fun i hi hik => ?_⟩
      rcases hik.eq_or_lt with rfl | hlt
      · exact hremapped
      · exact hbehind i hi (by omega)
    · obtain ⟨rfl, rfl⟩ := Prod.mk.inj (Option.some.inj h)
      exact ⟨le_rfl, by omega, Bool.eq_false_iff.mpr hremapped, fun i _ _ => by omega⟩

theorem findHome_of (hle : start ≤ k) (hhome : ni.isRemapped start = false)
    (hbehind : ∀ i, start < i → i ≤ k → ni.isRemapped i = true) :
    findHome ni k offset = some (start, offset + (k - start)) := by
  induction k generalizing offset with
  | zero =>
    obtain rfl : start = 0 := by omega
    rw [findHome, hhome]
    rfl
  | succ k ih =>
    rcases hle.eq_or_lt with rfl | hlt
    · rw [findHome, hhome, Nat.sub_self]
      rfl
    · rw [findHome, hbehind (k + 1) hlt le_rfl, if_pos rfl,
        ih (by omega) fun i hi hik => hbehind i hi (by omega)]
      congr 2
      omega

theorem putBack_mapping (hblock : block < ni.blockMapping.length) (newBlock : ℤ) (i : ℕ) :
    (ni.putBack block newBlock).mapping i = if i = block then newBlock else ni.mapping i := by
  unfold Ni.putBack Ni.mapping
  split_ifs with hi
  · simp [Ni.setState, List.getD_eq_getElem?_getD, hi, hblock]
  · simp [Ni.setState, List.getD_eq_getElem?_getD, Ne.symm hi]

theorem foldl_lowerTop_bounds {lo top : ℤ} {blocks : List ℕ} (hlo : lo ≤ top)
    (habove : ∀ lb ∈ blocks, ni.isRemapped lb = true → lo < ni.mapping lb) :
    lo ≤ blocks.foldl (lowerTop ni) top ∧ blocks.foldl (lowerTop ni) top ≤ top := by
  induction blocks generalizing top with
  | nil => exact ⟨hlo, Int.le_refl _⟩
  | cons lb blocks ih =>
    have hlower : lo ≤ lowerTop ni top lb ∧ lowerTop ni top lb ≤ top := by
      have hlb := habove lb List.mem_cons_self
      unfold lowerTop
      split_ifs with hhome hle
      · exact ⟨hlo, Int.le_refl _⟩
      · have hlt := hlb (by simpa using hhome)
        omega
      · exact ⟨hlo, Int.le_refl _⟩
    obtain ⟨hge, hle⟩ := ih hlower.1 fun i hi => habove i (List.mem_cons_of_mem lb hi)
    exact ⟨hge, Int.le_trans hle hlower.2⟩

/-- The boundary stays above the tables, if all remapped blocks are mapped behind them. -/
theorem spareTop_bounds {lo : ℤ} (hlo : lo < ni.signatureBa)
    (habove : ∀ lb < ni.dataBlockCount, ni.isRemapped lb = true → lo < ni.mapping lb) :
    lo ≤ spareTop ni ∧ spareTop ni < ni.signatureBa := by
  obtain ⟨hge, hle⟩ := @foldl_lowerTop_bounds ni lo (ni.signatureBa - 1) _ (by omega)
    fun lb hlb => habove lb (List.mem_range.mp hlb)
  exact ⟨hge, by unfold spareTop; omega⟩

/-- A logical block is put back where a search leads to one before it, or nothing happens. -/
theorem unmapBlock_cases (hrun : unmapBlock g flt fuel block s = some s') :
    (s' = s ∧ (block < s.ni.dataBlockCount → ∀ start offset,
        findHome s.ni block 0 = some (start, offset) → offset = 0)) ∨
      block < s.ni.dataBlockCount ∧ ∃ start offset, offset ≠ 0 ∧
        findHome s.ni block 0 = some (start, offset) ∧
        s'.ni.fixed = (s.ni.putBack block (s.ni.mapping start + offset)).findTop.fixed ∧
        ∃ ok, updateInfoTable g flt fuel
          ⟨(s.ni.putBack block (s.ni.mapping start + offset)).findTop, s.chip⟩ = some (s', ok) := by
  rw [unmapBlock] at hrun
  by_cases hout : s.ni.dataBlockCount ≤ block
  · rw [if_pos hout] at hrun
    exact .inl ⟨(Option.some.inj hrun).symm, fun hlt => absurd hlt (Nat.not_lt.mpr hout)⟩
  · rw [if_neg hout] at hrun
    split at hrun
    next hfind =>
      refine .inl ⟨(Option.some.inj hrun).symm, fun _ start offset hsome => ?_⟩
      rw [hfind] at hsome
      cases hsome
    next start offset hfind =>
      split_ifs at hrun with hzero
      · refine .inl ⟨(Option.some.inj hrun).symm, fun _ start' offset' hsome => ?_⟩
        obtain ⟨-, rfl⟩ := Prod.mk.inj (Option.some.inj (hfind.symm.trans hsome))
        exact hzero
      · obtain ⟨⟨t, ok⟩, hupdate, rfl⟩ := Option.map_eq_some_iff.mp hrun
        exact .inr ⟨Nat.lt_of_not_le hout, start, offset, hzero, hfind,
          updateInfoTable_fixed hupdate, ok, hupdate⟩

/-- A repair leaves the instance alone, or as the unmap operation does. -/
theorem debugRepair_ni {r : Sys × ℤ} (hrun : debugRepair g flt fuel block s = some r) :
    (r.1.ni = s.ni ∧ getMappingBlockIndex s.ni block < 0) ∨
      0 ≤ getMappingBlockIndex s.ni block ∧
        ∃ t, unmapBlock g flt fuel (block % 65536) s = some t ∧ r.1.ni = t.ni := by
  rw [debugRepair] at hrun
  by_cases hneg : getMappingBlockIndex s.ni block < 0
  · rw [if_pos hneg] at hrun
    obtain rfl := Option.some.inj hrun
    exact .inl ⟨rfl, hneg⟩
  · rw [if_neg hneg] at hrun
    obtain ⟨t, hunmap, rfl⟩ := Option.map_eq_some_iff.mp hrun
    refine .inr ⟨by omega, t, hunmap, ?_⟩
    dsimp only
    split_ifs <;> rfl

end NeonWrt.Nmbm
