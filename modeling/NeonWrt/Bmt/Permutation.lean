import NeonWrt.Bmt.Backend
import Mathlib.Data.List.Sort

/-!
# Which mappings of the BBT backend are permutations

Within a remap range the backend should give the good blocks to the first logical
blocks, in order, and the bad ones to the rest. It does where the blocks that a
range serves are the blocks it counts. Without a range in the device tree it
counts to the number of blocks shifted as if it were an address, and then serves
blocks that it does not count.
-/

namespace NeonWrt.Bmt

open Lib Nmbm

/-- The ranges of a board, in the units they are looked up in. -/
def Board.ranges (bd : Board) : List (ℕ × ℕ) :=
  if bd.remapRange = [] then [(0, bd.g.totalBlks)] else bd.remapRange

/-- The logical blocks that a range serves. -/
def served (bd : Board) (r : ℕ × ℕ) : List ℕ :=
  (List.range bd.g.totalBlks).filter fun block => mappingBlockInRange bd block = some r

/-- The blocks among which the backend looks for good and bad ones. -/
def rangeBlocks (bd : Board) (r : ℕ × ℕ) : List ℕ :=
  List.range' (r.1 >>> bd.blkShift) (r.2 >>> bd.blkShift - r.1 >>> bd.blkShift)

/-- The ranges of the device tree start at blocks and do not overlap: a block of a range is
looked up in it. -/
def Board.Proper (bd : Board) : Prop :=
  ∀ r ∈ bd.remapRange, ∀ block ∈ rangeBlocks bd r, mappingBlockInRange bd block = some r

/-- The mapping permutes the blocks of a list: the good ones come first, in order. -/
def PermutedOn (bad : ℕ → Bool) (mapping : ℕ → ℕ) (blocks : List ℕ) : Prop :=
  ∃ rest, blocks.map mapping = (blocks.filter fun i => !bad i) ++ rest ∧
    List.Perm rest (blocks.filter bad)

/-- The mapping permutes every range and leaves the other blocks alone. -/
def Bbt.Permutes (bd : Board) (t : Bbt) : Prop :=
  (∀ r ∈ bd.ranges, PermutedOn t.isBad (t.getMappingBlockIndex bd) (served bd r)) ∧
    ∀ block < bd.g.totalBlks, mappingBlockInRange bd block = none →
      t.getMappingBlockIndex bd block = block

/-- The bad blocks of a list come after its good ones. -/
def BadLast (bad : ℕ → Bool) (blocks : List ℕ) : Prop :=
  (blocks.filter fun i => !bad i) ++ blocks.filter bad = blocks

section Ranges

variable {bd : Board} {r : ℕ × ℕ} {block : ℕ}

theorem mem_served : block ∈ served bd r ↔
    block < bd.g.totalBlks ∧ mappingBlockInRange bd block = some r := by
  rw [served, List.mem_filter, List.mem_range, decide_eq_true_eq]

theorem mem_rangeBlocks : block ∈ rangeBlocks bd r ↔
    r.1 >>> bd.blkShift ≤ block ∧ block < r.2 >>> bd.blkShift := by
  rw [rangeBlocks, List.mem_range'_1]
  omega

theorem nodup_served : (served bd r).Nodup := List.nodup_range.filter _

theorem sorted_served : (served bd r).Pairwise (· < ·) := List.pairwise_lt_range.filter _

/-- A block is served by a range that starts below it. -/
theorem le_of_mem_served (h : block ∈ served bd r) : r.1 >>> bd.blkShift ≤ block := by
  obtain ⟨-, hrange⟩ := mem_served.mp h
  rw [mappingBlockInRange] at hrange
  split_ifs at hrange with hnone
  · obtain rfl := Option.some.inj hrange
    simp
  · have hfound := List.find?_some hrange
    have hle : r.1 ≤ block <<< bd.blkShift := by
      simp only [Bool.not_eq_true', Bool.or_eq_false_iff, decide_eq_false_iff_not, not_lt,
        not_le] at hfound
      exact hfound.1.trans (Nat.mod_le _ _)
    rw [Nat.shiftLeft_eq] at hle
    rw [Nat.shiftRight_eq_div_pow]
    exact Nat.div_le_of_le_mul (hle.trans_eq (Nat.mul_comm _ _))

theorem lt_of_mem_rangeBlocks (hr : r ∈ bd.ranges) (h : block ∈ rangeBlocks bd r) :
    block < bd.g.totalBlks := by
  have hlt := (mem_rangeBlocks.mp h).2
  rw [Nat.shiftRight_eq_div_pow] at hlt
  rw [Board.ranges] at hr
  split_ifs at hr
  · obtain rfl := List.mem_singleton.mp hr
    exact hlt.trans_le (Nat.div_le_self _ _)
  · have hle := bd.range_le r hr
    rw [bd.blkSize_eq] at hle
    exact hlt.trans_le ((Nat.div_le_div_right hle).trans_eq
      (Nat.mul_div_cancel _ (Nat.two_pow_pos _)))

theorem mem_served_of_mem_rangeBlocks (hproper : bd.Proper) (hr : r ∈ bd.ranges)
    (h : block ∈ rangeBlocks bd r) : block ∈ served bd r := by
  refine mem_served.mpr ⟨lt_of_mem_rangeBlocks hr h, ?_⟩
  rw [Board.ranges] at hr
  split_ifs at hr with hnone
  · obtain rfl := List.mem_singleton.mp hr
    rw [mappingBlockInRange]
    exact if_pos hnone
  · exact hproper r hr block h

/-- The blocks that a range serves without counting them come after those it counts. -/
theorem served_eq_append (hproper : bd.Proper) (hr : r ∈ bd.ranges) :
    served bd r = rangeBlocks bd r ++
      (served bd r).filter fun block => decide (r.2 >>> bd.blkShift ≤ block) := by
  have hsorted : (rangeBlocks bd r ++
      (served bd r).filter fun block => decide (r.2 >>> bd.blkShift ≤ block)).Pairwise (· < ·) := by
    refine List.pairwise_append.mpr
      ⟨List.pairwise_lt_range' .., sorted_served.filter _, fun i hi j hj => ?_⟩
    rw [mem_rangeBlocks] at hi
    rw [List.mem_filter, decide_eq_true_eq] at hj
    omega
  refine List.Pairwise.eq_of_mem_iff sorted_served hsorted fun block => ?_
  rw [List.mem_append, List.mem_filter, decide_eq_true_eq]
  constructor
  · intro h
    rcases Nat.lt_or_ge block (r.2 >>> bd.blkShift) with hlt | hge
    · exact .inl (mem_rangeBlocks.mpr ⟨le_of_mem_served h, hlt⟩)
    · exact .inr ⟨h, hge⟩
  · rintro (h | ⟨h, -⟩)
    · exact mem_served_of_mem_rangeBlocks hproper hr h
    · exact h

end Ranges

section Mapping

variable {bd : Board} {t : Bbt} {r : ℕ × ℕ} {block : ℕ}

theorem getMappingBlockIndex_of_served (h : block ∈ served bd r) :
    t.getMappingBlockIndex bd block =
      mapWithin t.isBad (r.1 >>> bd.blkShift) (r.2 >>> bd.blkShift) block := by
  rw [Bbt.getMappingBlockIndex, blockRange, (mem_served.mp h).2]
  rfl

/-- What is counted is given the blocks in their order. -/
theorem map_rangeBlocks (hproper : bd.Proper) (hr : r ∈ bd.ranges) :
    (rangeBlocks bd r).map (t.getMappingBlockIndex bd) =
      (rangeBlocks bd r).filter (fun i => !t.isBad i) ++ (rangeBlocks bd r).filter t.isBad := by
  set start := r.1 >>> bd.blkShift with hstart
  set n := r.2 >>> bd.blkShift - start with hn
  change _ = blockOrder t.isBad start n
  refine List.ext_getElem (by rw [List.length_map, length_blockOrder, rangeBlocks,
    List.length_range']) fun i hi hi' => ?_
  rw [length_blockOrder] at hi'
  have hlen : i < (rangeBlocks bd r).length := by simpa using hi
  have hget : (rangeBlocks bd r)[i] = start + i := by
    simp [rangeBlocks, hstart]
  have hmem : start + i ∈ rangeBlocks bd r := hget ▸ List.getElem_mem _
  rw [List.getElem_map, hget,
    getMappingBlockIndex_of_served (mem_served_of_mem_rangeBlocks hproper hr hmem), mapWithin_eq,
    ← hstart, ← hn, if_pos (by omega), Nat.add_sub_cancel_left,
    List.getElem?_eq_getElem (by rw [length_blockOrder]; exact hi'), Option.getD_some]

/-- What is served and not counted falls on the last bad block. -/
theorem getMappingBlockIndex_of_le (h : block ∈ served bd r) (hle : r.2 >>> bd.blkShift ≤ block) :
    t.getMappingBlockIndex bd block = (((rangeBlocks bd r).filter t.isBad).getLast?).getD block := by
  have hstart := le_of_mem_served h
  rw [getMappingBlockIndex_of_served h, mapWithin_eq, if_neg (by omega)]
  rfl

theorem permutedOn_id_iff {bad : ℕ → Bool} {mapping : ℕ → ℕ} {blocks : List ℕ}
    (hid : blocks.map mapping = blocks) : PermutedOn bad mapping blocks ↔ BadLast bad blocks := by
  constructor
  · rintro ⟨rest, hmap, hperm⟩
    rw [hid] at hmap
    -- what comes after the good blocks is all bad, so it is the bad blocks in their order
    have hbad : rest.filter bad = rest := by
      refine List.filter_eq_self.mpr fun i hi => ?_
      exact (List.mem_filter.mp (hperm.mem_iff.mp hi)).2
    have hgood : (blocks.filter fun i => !bad i).filter bad = [] := by
      rw [List.filter_filter]
      simp
    have hrest : blocks.filter bad = rest := by
      conv_lhs => rw [hmap]
      rw [List.filter_append, hgood, hbad, List.nil_append]
    rw [BadLast, hrest]
    exact hmap.symm
  · intro hlast
    exact ⟨blocks.filter bad, hid.trans hlast.symm, .refl _⟩

theorem not_permutedOn_of_collision {bad : ℕ → Bool} {mapping : ℕ → ℕ} {blocks : List ℕ} {i j : ℕ}
    (hnodup : blocks.Nodup) (hi : i ∈ blocks) (hj : j ∈ blocks) (hne : i ≠ j)
    (heq : mapping i = mapping j) : ¬ PermutedOn bad mapping blocks := by
  rintro ⟨rest, hmap, hperm⟩
  have hall : List.Perm (blocks.map mapping) blocks := by
    rw [hmap]
    refine (hperm.append_left _).trans ?_
    have hsplit := List.filter_append_perm (fun i => !bad i) blocks
    simpa only [Bool.not_not] using hsplit
  exact hne (List.inj_on_of_nodup_map (hall.nodup_iff.mpr hnodup) hi hj heq)

/-- A range is permuted if it counts what it serves, or if it counts no bad block and the bad
blocks it serves come last. -/
theorem permutedOn_served_iff (hproper : bd.Proper) (hr : r ∈ bd.ranges) :
    PermutedOn t.isBad (t.getMappingBlockIndex bd) (served bd r) ↔
      served bd r = rangeBlocks bd r ∨
        (∀ block ∈ rangeBlocks bd r, t.isBad block = false) ∧ BadLast t.isBad (served bd r) := by
  by_cases hall : served bd r = rangeBlocks bd r
  · refine iff_of_true ?_ (.inl hall)
    rw [hall]
    exact ⟨_, map_rangeBlocks hproper hr, .refl _⟩
  have hsplit := served_eq_append hproper hr
  by_cases hgood : ∀ block ∈ rangeBlocks bd r, t.isBad block = false
  · -- no bad block is counted, and every block is mapped to itself
    have hnone : (rangeBlocks bd r).filter t.isBad = [] :=
      List.filter_eq_nil_iff.mpr fun block h => by simp [hgood block h]
    have hself : (rangeBlocks bd r).filter (fun i => !t.isBad i) = rangeBlocks bd r :=
      List.filter_eq_self.mpr fun block h => by simp [hgood block h]
    have hextra : ∀ block ∈ (served bd r).filter fun block => decide (r.2 >>> bd.blkShift ≤ block),
        t.getMappingBlockIndex bd block = id block := by
      intro block h
      rw [List.mem_filter, decide_eq_true_eq] at h
      rw [getMappingBlockIndex_of_le h.1 h.2, hnone]
      rfl
    have hid : (served bd r).map (t.getMappingBlockIndex bd) = served bd r := by
      conv_lhs => rw [hsplit]
      rw [List.map_append, map_rangeBlocks hproper hr, hnone, hself, List.append_nil,
        List.map_congr_left hextra, List.map_id, ← hsplit]
    rw [permutedOn_id_iff hid]
    exact ⟨fun hlast => .inr ⟨hgood, hlast⟩, fun h => (h.resolve_left hall).2⟩
  · -- the last block counted and the first block not counted fall on the last bad block
    refine iff_of_false ?_ fun h => h.elim hall fun h => hgood h.1
    obtain ⟨bad, hmem, hbad⟩ : ∃ block ∈ rangeBlocks bd r, t.isBad block = true := by
      simpa using hgood
    have hsome : (rangeBlocks bd r).filter t.isBad ≠ [] :=
      List.ne_nil_of_mem (List.mem_filter.mpr ⟨hmem, hbad⟩)
    obtain ⟨extra, hextra⟩ : ∃ block, block ∈ (served bd r).filter
        fun block => decide (r.2 >>> bd.blkShift ≤ block) := by
      refine List.exists_mem_of_ne_nil _ fun hnil => hall ?_
      rw [hsplit, hnil, List.append_nil]
    rw [List.mem_filter, decide_eq_true_eq] at hextra
    obtain ⟨last, hlast⟩ := Option.isSome_iff_exists.mp
      (List.getLast?_isSome.mpr (List.ne_nil_of_mem hmem))
    have hin := List.mem_of_getLast? hlast
    have hserved := mem_served_of_mem_rangeBlocks hproper hr hin
    have hmapped : some (t.getMappingBlockIndex bd last) =
        ((rangeBlocks bd r).filter t.isBad).getLast? := by
      rw [← List.getLast?_append_of_ne_nil _ hsome, ← map_rangeBlocks hproper hr, List.getLast?_map,
        hlast, Option.map_some]
    have hlt := (mem_rangeBlocks.mp hin).2
    refine not_permutedOn_of_collision nodup_served hserved hextra.1 (by omega) ?_
    rw [getMappingBlockIndex_of_le hextra.1 hextra.2, ← hmapped, Option.getD_some]

end Mapping

/-- A table that says that the first block is bad and no other. -/
def firstBad : Bbt where
  buf := fun j => if j = 0 then 3 else 0
  bmtBlkIdx := 7
  bmtPgs := 4
  chip := goodChip

/-- The chip of `smallBoard` without a remap range. -/
def wholeBoard : Board := { smallBoard with remapRange := [], range_le := by decide }

end NeonWrt.Bmt
