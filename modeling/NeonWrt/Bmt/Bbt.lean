import NeonWrt.Bmt.Device

/-!
# The BBT backend

`mtk_bmt_bbt.c` keeps no mapping table but two bits of state for each block. The
physical block of a logical block is computed: within its remap range the good
blocks come first, in order, and the blocks behind them fall on the bad ones.
-/

namespace NeonWrt.Bmt

open Lib Nmbm

/-- The state of the backend. The buffer is the memory from `bbt_buf` on. -/
structure Bbt where
  buf : ℕ → UInt8
  bmtBlkIdx : ℕ
  bmtPgs : ℕ
  chip : Chip

/-- The bits of a block in its byte. -/
def bbtMask (block : ℕ) : UInt8 := 3 <<< UInt8.ofNat (block % 4 * 2)

/-- `bbt_block_is_bad`. -/
def Bbt.isBad (t : Bbt) (block : ℕ) : Bool := t.buf (block / 4) &&& bbtMask block ≠ 0

/-- The first loop of `get_mapping_block_index_bbt`, with `n` blocks to go: the block found, or
the offset left and the number of bad blocks. -/
def skipBad (bad : ℕ → Bool) : ℕ → ℕ → ℕ → ℕ → ℕ ⊕ ℕ × ℕ
  | 0, _, ofs, badBlocks => .inr (ofs, badBlocks)
  | n + 1, i, ofs, badBlocks =>
    if bad i then skipBad bad n (i + 1) ofs (badBlocks + 1)
    else
      match ofs with
      | 0 => .inl i
      | ofs + 1 => skipBad bad n (i + 1) ofs badBlocks

/-- The second loop, downwards from the end of the range. -/
def takeBad (bad : ℕ → Bool) (block start ofs : ℕ) : ℕ → ℕ → ℕ
  | 0, _ => block
  | n + 1, badBlocks =>
    if badBlocks = 0 then block
    else if !bad (start + n) then takeBad bad block start ofs n badBlocks
    else if badBlocks - 1 ≤ ofs then start + n
    else takeBad bad block start ofs n (badBlocks - 1)

/-- `get_mapping_block_index_bbt` within a range of blocks. -/
def mapWithin (bad : ℕ → Bool) (start stop block : ℕ) : ℕ :=
  match skipBad bad (stop - start) start (block - start) 0 with
  | .inl i => i
  | .inr (ofs, badBlocks) => takeBad bad block start ofs (stop - start) badBlocks

/-- The range of a logical block, in blocks. -/
def blockRange (bd : Board) (block : ℕ) : Option (ℕ × ℕ) :=
  (mappingBlockInRange bd block).map fun r => (r.1 >>> bd.blkShift, r.2 >>> bd.blkShift)

/-- `get_mapping_block_index_bbt`. -/
def Bbt.getMappingBlockIndex (bd : Board) (t : Bbt) (block : ℕ) : ℕ :=
  match blockRange bd block with
  | none => block
  | some (start, stop) => mapWithin t.isBad start stop block

/-- `bbt_set_block_state`. -/
def Bbt.setBlockState (bd : Board) (flt : Faults) (block : ℕ) (bad : Bool) (t : Bbt) : Bbt :=
  let old := t.buf (block / 4)
  let new := if bad then old ||| bbtMask block else old &&& ~~~ bbtMask block
  let buf := Function.update t.buf (block / 4) new
  let erased := (t.chip.erase bd.g flt t.bmtBlkIdx).1
  { t with
    buf := buf
    chip := (writeBmt bd.g flt (ascii "mtknand") 0 t.bmtPgs t.bmtBlkIdx buf erased).1 }

/-- The block a remap moves to is erased and gets the data of the old one. -/
def Bbt.fill (bd : Board) (flt : Faults) (newBlk mappedBlk copyLen : ℕ) (t : Bbt) : Bbt :=
  let erased := bbtNandErase bd.g flt newBlk t.chip
  { t with chip := if 0 < copyLen then bbtNandCopy bd.g flt newBlk mappedBlk copyLen erased else erased }

/-- `remap_block_bbt`. -/
def Bbt.remapBlock (bd : Board) (flt : Faults) (block mappedBlk copyLen : ℕ) (t : Bbt) : Bbt × Bool :=
  match mappingBlockInRange bd block with
  | none => (t, false)
  | some _ =>
    let t := t.setBlockState bd flt mappedBlk true
    (t.fill bd flt (t.getMappingBlockIndex bd block) mappedBlk copyLen, true)

/-- `unmap_block_bbt`. -/
def Bbt.unmapBlock (bd : Board) (flt : Faults) (block : ℕ) (t : Bbt) : Bbt :=
  t.setBlockState bd flt block false

/-- The scan of `mtk_bmt_read_bbt` over the last five blocks, with `n` of them to go: the block of
the table and what the buffer then holds. -/
def readBbt (bd : Board) (flt : Faults) : ℕ → Chip → (ℕ → UInt8) → Option (ℕ × Chip × (ℕ → UInt8))
  | 0, _, _ => none
  | n + 1, c, buf =>
    let block := bd.g.totalBlks - 5 + n
    let buf' := fun j => if j < bd.g.pgSize then bufAt bd.g c block j else buf j
    let sig := (List.range 8).map (oobAt bd.g c block)
    if flt.read c.clock < 0 then readBbt bd flt n c.tick buf
    else if sig ≠ 0xff :: ascii "mtknand" then readBbt bd flt n c.tick buf'
    else some (block, c.tick, buf')

/-- `mtk_bmt_init_bbt` on a chip; the buffer is filled with `0xff` before. -/
def initBbt (bd : Board) (flt : Faults) (chip : Chip) : Option Bbt :=
  let bufSize := (bd.g.totalBlks / 4 + bd.g.blkSize - 1) / bd.g.blkSize * bd.g.blkSize
  (readBbt bd flt 5 chip fun _ => 0xff).map fun r =>
    ⟨r.2.2, r.1, bufSize / bd.g.pgSize, r.2.1⟩

private theorem mask_or_all : ∀ n : Fin 256, ∀ i j : Fin 4,
    ((UInt8.ofNat n ||| 3 <<< UInt8.ofNat (i * 2)) &&& 3 <<< UInt8.ofNat (j * 2) ≠ 0) ↔
      i = j ∨ UInt8.ofNat n &&& 3 <<< UInt8.ofNat (j * 2) ≠ 0 := by
  decide +kernel

theorem mask_or (b : UInt8) (block block' : ℕ) :
    ((b ||| bbtMask block) &&& bbtMask block' ≠ 0) ↔
      block % 4 = block' % 4 ∨ b &&& bbtMask block' ≠ 0 := by
  have h := mask_or_all ⟨b.toNat, b.toNat_lt⟩ ⟨block % 4, Nat.mod_lt _ (by omega)⟩
    ⟨block' % 4, Nat.mod_lt _ (by omega)⟩
  simpa [bbtMask, Fin.ext_iff] using h

/-- Marking a block bad marks no other block. -/
theorem isBad_setBlockState (bd : Board) (flt : Faults) (t : Bbt) (block block' : ℕ) :
    (t.setBlockState bd flt block true).isBad block' = true ↔
      block' = block ∨ t.isBad block' = true := by
  simp only [Bbt.isBad, Bbt.setBlockState, if_true, decide_eq_true_eq]
  by_cases hbyte : block' / 4 = block / 4
  · rw [hbyte, Function.update_self, mask_or]
    have heq : block % 4 = block' % 4 ↔ block' = block := by omega
    rw [heq]
  · have hne : block' ≠ block := fun h => hbyte (by rw [h])
    rw [Function.update_of_ne hbyte]
    simp [hne]

section Order

variable (bad : ℕ → Bool)

/-- The good blocks among `n` blocks from one on. -/
def goodBlocks (start n : ℕ) : List ℕ := (List.range' start n).filter fun i => !bad i

/-- The bad blocks among `n` blocks from one on. -/
def badBlocks (start n : ℕ) : List ℕ := (List.range' start n).filter bad

/-- The order in which logical blocks are given the blocks of a range. -/
def blockOrder (start n : ℕ) : List ℕ := goodBlocks bad start n ++ badBlocks bad start n

theorem skipBad_eq (n i ofs k : ℕ) :
    skipBad bad n i ofs k = match (goodBlocks bad i n)[ofs]? with
      | some x => .inl x
      | none => .inr (ofs - (goodBlocks bad i n).length, k + (badBlocks bad i n).length) := by
  induction n generalizing i ofs k with
  | zero => rfl
  | succ n ih =>
    rw [skipBad.eq_def, goodBlocks, badBlocks, List.range'_succ]
    dsimp only
    by_cases hbad : bad i = true
    · rw [if_pos hbad, ih, List.filter_cons_of_neg (by simp [hbad]), List.filter_cons_of_pos hbad,
        ← goodBlocks, ← badBlocks, List.length_cons, Nat.add_assoc, Nat.add_comm 1]
    · have hgood : (!bad i) = true := by simpa using hbad
      rw [if_neg hbad, List.filter_cons_of_pos (p := fun i => !bad i) hgood,
        List.filter_cons_of_neg hbad, ← goodBlocks, ← badBlocks]
      cases ofs with
      | zero => rfl
      | succ ofs => rw [List.getElem?_cons_succ, List.length_cons, Nat.add_sub_add_right]; exact ih ..

theorem takeBad_eq (block start ofs n : ℕ) :
    takeBad bad block start ofs n (badBlocks bad start n).length =
      ((badBlocks bad start n)[min ofs ((badBlocks bad start n).length - 1)]?).getD block := by
  induction n with
  | zero => rfl
  | succ n ih =>
    have hconcat : badBlocks bad start (n + 1) =
        badBlocks bad start n ++ [start + n].filter bad := by
      rw [badBlocks, List.range'_concat, List.filter_append, Nat.one_mul, badBlocks]
    rw [takeBad, hconcat]
    by_cases hbad : bad (start + n) = true
    · -- the last block is the last bad one
      rw [List.filter_cons_of_pos hbad, List.filter_nil, List.length_append, List.length_singleton,
        if_neg (by omega), hbad, Bool.not_true, if_neg (by simp), Nat.add_sub_cancel]
      split_ifs with hofs
      · rw [min_eq_right hofs, List.getElem?_append_right le_rfl, Nat.sub_self]
        rfl
      · rw [ih, min_eq_left (by omega), min_eq_left (by omega),
          List.getElem?_append_left (by omega)]
    · rw [List.filter_cons_of_neg hbad, List.filter_nil, List.append_nil]
      split_ifs with hzero hgood
      · rw [List.eq_nil_of_length_eq_zero hzero]
        rfl
      · exact ih
      all_goals simp_all

theorem length_blockOrder (start n : ℕ) : (blockOrder bad start n).length = n := by
  have hperm := List.filter_append_perm (fun i => !bad i) (List.range' start n)
  simp only [Bool.not_not] at hperm
  rw [blockOrder, goodBlocks, badBlocks, hperm.length_eq, List.length_range']

theorem mem_blockOrder {start n i : ℕ} : i ∈ blockOrder bad start n ↔ start ≤ i ∧ i < start + n := by
  rw [blockOrder, List.mem_append, goodBlocks, badBlocks, List.mem_filter, List.mem_filter,
    List.mem_range'_1]
  cases bad i <;> simp

theorem nodup_blockOrder (start n : ℕ) : (blockOrder bad start n).Nodup := by
  have hperm := List.filter_append_perm (fun i => !bad i) (List.range' start n)
  simp only [Bool.not_not] at hperm
  exact hperm.nodup_iff.mpr List.nodup_range'

/-- A block of the range is mapped by its place, and blocks beyond the range fall on the last bad
block. -/
theorem mapWithin_eq (start stop block : ℕ) :
    mapWithin bad start stop block =
      if block - start < stop - start then
        ((blockOrder bad start (stop - start))[block - start]?).getD block
      else ((badBlocks bad start (stop - start)).getLast?).getD block := by
  have hlen := length_blockOrder bad start (stop - start)
  rw [blockOrder, List.length_append] at hlen
  rw [mapWithin, skipBad_eq, Nat.zero_add]
  rcases hofs : (goodBlocks bad start (stop - start))[block - start]? with - | x
  · have hle := List.getElem?_eq_none_iff.mp hofs
    dsimp only
    rw [takeBad_eq, blockOrder, List.getElem?_append_right hle]
    split_ifs with hin
    · rw [min_eq_left (by omega)]
    · rw [min_eq_right (by omega), List.getLast?_eq_getElem?]
  · have hlt := (List.getElem?_eq_some_iff.mp hofs).1
    dsimp only
    rw [if_pos (by omega), blockOrder, List.getElem?_append_left hlt, hofs, Option.getD_some]

/-- The states with one more bad block. -/
def retired (m : ℕ) : ℕ → Bool := fun i => decide (i = m) || bad i

variable {bad} {start n m : ℕ}

private theorem range'_split (hm : start ≤ m) (hlt : m < start + n) :
    List.range' start n =
      List.range' start (m - start) ++ m :: List.range' (m + 1) (start + n - (m + 1)) := by
  have hn : n = (m - start) + (1 + (start + n - (m + 1))) := by omega
  have hm' : start + (m - start) = m := by omega
  conv_lhs => rw [hn, ← List.range'_append_1, hm', Nat.add_comm 1, List.range'_succ]

private theorem goodBlocks_split (bad : ℕ → Bool) (hm : start ≤ m) (hlt : m < start + n) :
    goodBlocks bad start n = goodBlocks bad start (m - start) ++ ((if bad m then [] else [m]) ++
      goodBlocks bad (m + 1) (start + n - (m + 1))) := by
  rw [goodBlocks, range'_split hm hlt, List.filter_append, List.filter_cons, goodBlocks, goodBlocks]
  cases bad m <;> rfl

private theorem badBlocks_split (bad : ℕ → Bool) (hm : start ≤ m) (hlt : m < start + n) :
    badBlocks bad start n = badBlocks bad start (m - start) ++ ((if bad m then [m] else []) ++
      badBlocks bad (m + 1) (start + n - (m + 1))) := by
  rw [badBlocks, range'_split hm hlt, List.filter_append, List.filter_cons, badBlocks, badBlocks]
  cases bad m <;> rfl

/-- A retired block outside a range leaves the range alone. -/
theorem retired_outside (h : m < start ∨ start + n ≤ m) :
    goodBlocks (retired bad m) start n = goodBlocks bad start n ∧
      badBlocks (retired bad m) start n = badBlocks bad start n := by
  have hne : ∀ i ∈ List.range' start n, retired bad m i = bad i := by
    intro i hi
    rw [List.mem_range'_1] at hi
    have hne : i ≠ m := by omega
    simp [retired, hne]
  constructor
  · apply List.filter_congr
    intro i hi
    rw [hne i hi]
  · apply List.filter_congr
    intro i hi
    rw [hne i hi]

/-- The order before: the block stands among the good ones. -/
theorem blockOrder_split (hm : start ≤ m) (hlt : m < start + n) (hgood : bad m = false) :
    blockOrder bad start n =
      goodBlocks bad start (m - start) ++ (m :: (goodBlocks bad (m + 1) (start + n - (m + 1)) ++
        badBlocks bad start (m - start)) ++ badBlocks bad (m + 1) (start + n - (m + 1))) := by
  rw [blockOrder, goodBlocks_split bad hm hlt, badBlocks_split bad hm hlt, hgood]
  simp

/-- The order after: it stands among the bad ones, behind blocks that have moved up. -/
theorem blockOrder_retire (hm : start ≤ m) (hlt : m < start + n) :
    blockOrder (retired bad m) start n =
      goodBlocks bad start (m - start) ++ ((goodBlocks bad (m + 1) (start + n - (m + 1)) ++
        badBlocks bad start (m - start)) ++ m :: badBlocks bad (m + 1) (start + n - (m + 1))) := by
  have hself : retired bad m m = true := by simp [retired]
  have hbelow := @retired_outside bad start (m - start) m (.inr (by omega))
  have habove := @retired_outside bad (m + 1) (start + n - (m + 1)) m (.inl (by omega))
  rw [blockOrder, goodBlocks_split _ hm hlt, badBlocks_split _ hm hlt, hself, hbelow.1, hbelow.2,
    habove.1, habove.2]
  simp

/-- An entry moved back over others leaves alone what lies outside of them. -/
private theorem getElem?_move_iff {A C D : List ℕ} {x i : ℕ} (hnodup : (A ++ (m :: C ++ D)).Nodup)
    (hx : (A ++ (m :: C ++ D))[i]? = some x) :
    (A ++ (C ++ m :: D))[i]? = some x ↔ x ∈ A ∨ x ∈ D ∨ C = [] := by
  have honce : ∀ j, (A ++ (m :: C ++ D))[j]? = some x → j = i := fun j hj =>
    (List.getElem?_inj (List.getElem?_eq_some_iff.mp hj).1 hnodup).mp (hj.trans hx.symm)
  rcases lt_or_ge i A.length with hA | hA
  · rw [List.getElem?_append_left hA] at hx ⊢
    simp [hx, List.mem_of_getElem? hx]
  rcases lt_or_ge (A.length + C.length) i with hD | hC
  · have hback : ∀ E : List ℕ, E.length = C.length + 1 → (A ++ (E ++ D))[i]? =
        D[i - (A.length + C.length + 1)]? := by
      intro E hE
      rw [List.getElem?_append_right hA, List.getElem?_append_right (by omega)]
      congr 1
      omega
    have hmem : x ∈ D := List.mem_of_getElem? ((hback _ (by simp)).symm.trans hx)
    have hnew := hback (C ++ [m]) (by simp)
    rw [List.append_assoc, List.singleton_append, ← hback (m :: C) (by simp), hx] at hnew
    simp [hnew, hmem]
  -- among the entries passed over, each gives way to its successor
  · constructor
    · intro hnew
      refine .inr (.inr ?_)
      by_contra hne
      have hCpos := List.length_pos_iff.mpr hne
      rcases lt_or_ge i (A.length + C.length) with hlt | hge
      · have hold : (A ++ (m :: C ++ D))[i + 1]? = some x := by
          rw [List.getElem?_append_right (by omega), List.getElem?_append_left (by simp; omega),
            show i + 1 - A.length = (i - A.length) + 1 by omega, List.getElem?_cons_succ]
          rwa [List.getElem?_append_right hA, List.getElem?_append_left (by omega)] at hnew
        have heq := honce _ hold
        omega
      · have hi : i = A.length + C.length := by omega
        have hxm : x = m := by
          rw [List.getElem?_append_right hA, List.getElem?_append_right (by omega), hi,
            show A.length + C.length - A.length - C.length = 0 by omega] at hnew
          exact (Option.some.inj hnew).symm
        have hold : (A ++ (m :: C ++ D))[A.length]? = some x := by
          rw [List.getElem?_append_right le_rfl, Nat.sub_self, hxm]
          rfl
        have heq := honce _ hold
        omega
    · rintro (hmem | hmem | rfl)
      · obtain ⟨j, hj⟩ := List.mem_iff_getElem?.mp hmem
        have hlt := (List.getElem?_eq_some_iff.mp hj).1
        have heq := honce j (by rw [List.getElem?_append_left hlt, hj])
        omega
      · obtain ⟨j, hj⟩ := List.mem_iff_getElem?.mp hmem
        have heq := honce (A.length + (C.length + 1) + j) (by
          rw [List.getElem?_append_right (by omega), List.getElem?_append_right (by simp; omega), ← hj]
          congr 1
          simp only [List.length_cons]
          omega)
        omega
      · simpa using hx

variable (bad) in
/-- The physical block of a logical block stays where it is when `m` is retired: `m` is not in its
range or was bad before, the block lies on a good block below `m` or a bad one above it, or `m` is
the one place where the good blocks of the range end and the bad ones start. -/
def Undisturbed (start stop m block : ℕ) : Prop :=
  m < start ∨ stop ≤ m ∨ bad m = true ∨
    (bad (mapWithin bad start stop block) = false ∧ mapWithin bad start stop block < m) ∨
    (bad (mapWithin bad start stop block) = true ∧ m < mapWithin bad start stop block ∧
      mapWithin bad start stop block < stop) ∨
    (block < stop ∧ ∀ i, start ≤ i → i < stop → i ≠ m → (bad i = true ↔ m < i))

theorem mem_goodBlocks {i : ℕ} : i ∈ goodBlocks bad start n ↔
    (start ≤ i ∧ i < start + n) ∧ bad i = false := by
  simp [goodBlocks, List.mem_range'_1]

theorem mem_badBlocks {i : ℕ} : i ∈ badBlocks bad start n ↔
    (start ≤ i ∧ i < start + n) ∧ bad i = true := by
  simp [badBlocks, List.mem_range'_1]

theorem retired_of_bad (h : bad m = true) : retired bad m = bad := by
  funext i
  by_cases hi : i = m
  · rw [hi, h, retired]
    simp
  · simp [retired, hi]

/-- Nothing stands between the two places of a retired block exactly if it was the last good block
and no bad block lies below it. -/
private theorem between_eq_nil_iff {stop : ℕ} (hm : start ≤ m) (hlt : m < stop) :
    goodBlocks bad (m + 1) (stop - (m + 1)) ++ badBlocks bad start (m - start) = [] ↔
      ∀ i, start ≤ i → i < stop → i ≠ m → (bad i = true ↔ m < i) := by
  rw [List.append_eq_nil_iff, List.eq_nil_iff_forall_not_mem, List.eq_nil_iff_forall_not_mem]
  simp only [mem_goodBlocks, mem_badBlocks]
  constructor
  · rintro ⟨hgood, hbad⟩ i hi hstop hne
    constructor
    · intro hb
      by_contra hle
      exact hbad i ⟨by omega, hb⟩
    · intro hmi
      by_contra hg
      exact hgood i ⟨by omega, by simpa using hg⟩
  · intro h
    refine ⟨fun i hi => ?_, fun i hi => ?_⟩
    · have hb := (h i (by omega) (by omega) (by omega)).mpr (by omega)
      rw [hi.2] at hb
      cases hb
    · have hlt := (h i (by omega) (by omega) (by omega)).mp hi.2
      omega

/-- Retiring a block moves a logical block exactly if it is not `Undisturbed`. -/
theorem mapWithin_retired_iff (start stop m block : ℕ) :
    mapWithin (retired bad m) start stop block = mapWithin bad start stop block ↔
      Undisturbed bad start stop m block := by
  rw [Undisturbed]
  by_cases hout : m < start ∨ stop ≤ m
  · have hsame := @retired_outside bad start (stop - start) m (by omega)
    have hmap : mapWithin (retired bad m) start stop block = mapWithin bad start stop block := by
      rw [mapWithin_eq, mapWithin_eq, blockOrder, hsame.1, hsame.2, ← blockOrder]
    exact ⟨fun _ => by omega, fun _ => hmap⟩
  by_cases hbad : bad m = true
  · rw [retired_of_bad hbad]
    exact ⟨fun _ => .inr (.inr (.inl hbad)), fun _ => rfl⟩
  have hgood : bad m = false := by simpa using hbad
  have hm : start ≤ m := by omega
  have hlt : m < start + (stop - start) := by omega
  have hstop : start + (stop - start) = stop := by omega
  have hbetween := @between_eq_nil_iff bad start m stop hm (by omega)
  by_cases hin : block - start < stop - start
  · -- a place in the range: compare the two orders there
    have hblock : block < stop := by omega
    obtain ⟨x, hx⟩ : ∃ x, (blockOrder bad start (stop - start))[block - start]? = some x :=
      ⟨_, List.getElem?_eq_getElem (by rw [length_blockOrder]; exact hin)⟩
    have hmap : mapWithin bad start stop block = x := by
      rw [mapWithin_eq, if_pos hin, hx, Option.getD_some]
    obtain ⟨y, hy⟩ : ∃ y, (blockOrder (retired bad m) start (stop - start))[block - start]? =
        some y := ⟨_, List.getElem?_eq_getElem (by rw [length_blockOrder]; exact hin)⟩
    have hmap' : mapWithin (retired bad m) start stop block = y := by
      rw [mapWithin_eq, if_pos hin, hy, Option.getD_some]
    have hrange := (mem_blockOrder bad).mp (List.mem_of_getElem? hx)
    have hnodup := nodup_blockOrder bad start (stop - start)
    rw [blockOrder_retire hm hlt, hstop] at hy
    rw [blockOrder_split hm hlt hgood, hstop] at hx hnodup
    have hiff := getElem?_move_iff hnodup hx
    rw [hy, Option.some.injEq, mem_goodBlocks, mem_badBlocks, hbetween] at hiff
    rw [hmap, hmap', hiff]
    constructor
    · rintro (⟨hle, hb⟩ | ⟨hle, hb⟩ | hall)
      · exact .inr (.inr (.inr (.inl ⟨hb, by omega⟩)))
      · exact .inr (.inr (.inr (.inr (.inl ⟨hb, by omega, by omega⟩))))
      · exact .inr (.inr (.inr (.inr (.inr ⟨hblock, hall⟩))))
    · rintro (h | h | h | ⟨hb, hlt⟩ | ⟨hb, hlt, hlt'⟩ | ⟨-, hall⟩)
      · omega
      · omega
      · exact absurd h hbad
      · exact .inl ⟨by omega, hb⟩
      · exact .inr (.inl ⟨by omega, hb⟩)
      · exact .inr (.inr hall)
  · -- behind the range: the last bad block
    have hblock : stop ≤ block := by omega
    have hsplit := badBlocks_split bad hm hlt
    have hsplit' := badBlocks_split (retired bad m) hm hlt
    have hself : retired bad m m = true := by simp [retired]
    have habove := @retired_outside bad (m + 1) (start + (stop - start) - (m + 1)) m (.inl (by omega))
    rw [hgood, hstop] at hsplit
    rw [hself, habove.2, hstop] at hsplit'
    simp only [Bool.false_eq_true, if_false, List.nil_append, if_true, List.singleton_append] at hsplit hsplit'
    rw [mapWithin_eq, mapWithin_eq, if_neg hin, if_neg hin, hsplit, hsplit']
    rcases List.eq_nil_or_concat (badBlocks bad (m + 1) (stop - (m + 1))) with hnil | ⟨B, x, hB⟩
    · rw [hnil, List.append_nil, List.getLast?_append_of_ne_nil _ (by simp), List.getLast?_singleton,
        Option.getD_some]
      have hlast : ∀ x, (badBlocks bad start (m - start)).getLast?.getD block = x →
          stop ≤ x ∨ x < m ∧ bad x = true := by
        rintro x rfl
        rcases List.eq_nil_or_concat (badBlocks bad start (m - start)) with hnil | ⟨B, y, hB⟩
        · rw [hnil]
          exact .inl hblock
        · rw [hB, List.concat_eq_append, List.getLast?_concat, Option.getD_some]
          have hy : y ∈ badBlocks bad start (m - start) := by
            rw [hB]
            simp
          rw [mem_badBlocks] at hy
          exact .inr ⟨by omega, hy.2⟩
      generalize (badBlocks bad start (m - start)).getLast?.getD block = x at hlast
      specialize hlast x rfl
      constructor
      · intro heq
        omega
      · rintro (h | h | h | ⟨hb, hx⟩ | ⟨hb, hx, hx'⟩ | ⟨hx, -⟩)
        · omega
        · omega
        · exact absurd h hbad
        · rcases hlast with h | ⟨-, h⟩
          · omega
          · rw [hb] at h
            cases h
        · omega
        · omega
    · have hx : x ∈ badBlocks bad (m + 1) (stop - (m + 1)) := by
        rw [hB]
        simp
      rw [mem_badBlocks] at hx
      rw [hB, List.concat_eq_append, ← List.cons_append, ← List.append_assoc, ← List.append_assoc,
        List.getLast?_concat, List.getLast?_concat, Option.getD_some]
      exact ⟨fun _ => .inr (.inr (.inr (.inr (.inl ⟨hx.2, by omega, by omega⟩)))), fun _ => rfl⟩

end Order

theorem isBad_remapBlock {bd : Board} {flt : Faults} {block m copyLen : ℕ} {t t' : Bbt}
    (h : t.remapBlock bd flt block m copyLen = (t', true)) : t'.isBad = retired t.isBad m := by
  rw [Bbt.remapBlock] at h
  split at h
  · cases h
  · obtain rfl := (Prod.mk.inj h).1.symm
    funext i
    have hiff := isBad_setBlockState bd flt t m i
    rw [retired, Bool.eq_iff_iff, Bool.or_eq_true, decide_eq_true_eq, ← hiff]
    rfl

/-- What a remap does to the physical block of any logical block. -/
theorem Bbt.getMappingBlockIndex_remapBlock_iff {bd : Board} {flt : Faults} {block m copyLen : ℕ}
    {t t' : Bbt} (h : t.remapBlock bd flt block m copyLen = (t', true)) (block' : ℕ) :
    t'.getMappingBlockIndex bd block' = t.getMappingBlockIndex bd block' ↔
      ∀ r, blockRange bd block' = some r → Undisturbed t.isBad r.1 r.2 m block' := by
  rw [Bbt.getMappingBlockIndex, Bbt.getMappingBlockIndex, isBad_remapBlock h]
  cases hr : blockRange bd block' with
  | none => simp
  | some r => simp [mapWithin_retired_iff]

end NeonWrt.Bmt
