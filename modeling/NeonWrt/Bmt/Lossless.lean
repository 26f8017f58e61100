import NeonWrt.Bmt.Access
import NeonWrt.Bmt.Pool
import NeonWrt.Nmbm.Runs

/-!
# Remaps that lose no data

A remap gives a logical block a new physical block, which is erased and gets the
pages of the old one up to the copied length. For each backend this file says when
the other logical blocks keep their contents and the pages that are copied arrive:
the new block can be erased and written, the old one can be read, and neither the
new block nor the blocks of the tables hold data of other logical blocks.
-/

namespace NeonWrt.Bmt

open Lib
open Nmbm (Faults Chip Geometry pagesPerBlock bbtNandErase bbtNandCopy bbtNandCopyLoop SpareTopGood
  Settled)

/-- An erased page. -/
def blankPage (g : Geometry) : Bytes := List.replicate g.pgSize 0xff

namespace Backend

/-- The contents of a page of a logical block, if the block is mapped. -/
def page (s : Backend) (b p : ℕ) : Option Bytes :=
  if s.getMappingBlock b < 0 then none else some (s.chip.pages (s.getMappingBlock b).toNat p)

/-- Logical blocks that are mapped lie on different physical blocks. -/
def Apart (s : Backend) : Prop :=
  ∀ b < s.logicalBlocks, ∀ b' < s.logicalBlocks, 0 ≤ s.getMappingBlock b →
    s.getMappingBlock b = s.getMappingBlock b' → b = b'

/-- The tables are sound, and logical blocks are apart. -/
def Inv (s : Backend) : Prop :=
  s.Apart ∧ match s with
    | v2 vb s => Sound vb s
    | bbt _ _ => True
    | nmbm _ s => Settled s.ni

variable {s : Backend} {c : Chip}

@[simp] theorem chip_withChip : (s.withChip c).chip = c := by cases s <;> rfl

@[simp] theorem board_withChip : (s.withChip c).board = s.board := by cases s <;> rfl

@[simp] theorem logicalBlocks_withChip : (s.withChip c).logicalBlocks = s.logicalBlocks := by
  cases s <;> rfl

@[simp] theorem getMappingBlock_withChip (b : ℕ) :
    (s.withChip c).getMappingBlock b = s.getMappingBlock b := by cases s <;> rfl

theorem Inv.withChip (h : s.Inv) (c : Chip) : (s.withChip c).Inv := by
  obtain ⟨hapart, hsound⟩ := h
  refine ⟨?_, ?_⟩
  · simpa [Apart] using hapart
  · cases s with
    | v2 vb s => exact ⟨hsound.shape, hsound.own⟩
    | bbt bd t => trivial
    | nmbm bd s => exact hsound

theorem page_of_eq {b pb : ℕ} (h : s.getMappingBlock b = pb) (p : ℕ) :
    s.page b p = some (s.chip.pages pb p) := by
  rw [page, h, if_neg (by omega), Int.toNat_natCast]

end Backend

/-- The pages of all logical blocks are as before, but for some. -/
structure Agree (S : ℕ → ℕ → Prop) (s s' : Backend) : Prop where
  board : s'.board = s.board
  blocks : s'.logicalBlocks = s.logicalBlocks
  page : ∀ b < s.logicalBlocks, ∀ p < pagesPerBlock s.board.g, ¬ S b p → s'.page b p = s.page b p

section Agree

variable {S S' : ℕ → ℕ → Prop} {s s' s'' : Backend}

theorem Agree.refl (S : ℕ → ℕ → Prop) (s : Backend) : Agree S s s := ⟨rfl, rfl, fun _ _ _ _ _ => rfl⟩

theorem Agree.mono (h : Agree S s s') (hS : ∀ b, ∀ p < pagesPerBlock s.board.g, S b p → S' b p) :
    Agree S' s s' :=
  ⟨h.board, h.blocks, fun b hb p hp hnot => h.page b hb p hp fun hs => hnot (hS b p hp hs)⟩

theorem Agree.trans (h : Agree S s s') (h' : Agree S s' s'') : Agree S s s'' where
  board := h'.board.trans h.board
  blocks := h'.blocks.trans h.blocks
  page := by
    intro b hb p hp hS
    have hsecond := h'.page b (by rw [h.blocks]; exact hb) p (by rw [h.board]; exact hp) hS
    exact hsecond.trans (h.page b hb p hp hS)

end Agree

/-- The pages of a block that are neither copied nor behind the access that failed. -/
def uncopied (g : Geometry) (block copyLen stop b p : ℕ) : Prop :=
  b = block ∧ copyLen ≤ p * g.pgSize ∧ p < stop

/-- The new block can be erased from some operation on, and pages can be copied to it. -/
def FillOk (g : Geometry) (flt : Faults) (clock copyLen : ℕ) : Prop :=
  flt.erase clock = 0 ∧ ∀ j < pagesPerBlock g, j * g.pgSize < copyLen →
    readGood (flt.read (clock + 1 + 2 * j)) = true ∧ flt.write (clock + 2 + 2 * j) = 0

instance (g : Geometry) (flt : Faults) (clock copyLen : ℕ) : Decidable (FillOk g flt clock copyLen) := by
  unfold FillOk
  infer_instance

/-- The chip after the new block was erased and has got the data of the old one. -/
def filled (g : Geometry) (flt : Faults) (new mapped copyLen : ℕ) (c : Chip) : Chip :=
  if 0 < copyLen then bbtNandCopy g flt new mapped copyLen (bbtNandErase g flt new c)
  else bbtNandErase g flt new c

section Fill

variable {g : Geometry} {flt : Faults} {new mapped copyLen : ℕ}

theorem copyLoop_pages {n page : ℕ} {c : Chip} (hne : mapped ≠ new)
    (hok : ∀ j < n, (page + j) * g.pgSize < copyLen →
      readGood (flt.read (c.clock + 2 * j)) = true ∧ flt.write (c.clock + 1 + 2 * j) = 0) (p : ℕ) :
    (bbtNandCopyLoop g flt new mapped copyLen n page c).pages new p =
      if page ≤ p ∧ p < page + n ∧ p * g.pgSize < copyLen then c.pages mapped p
      else c.pages new p := by
  induction n generalizing page c with
  | zero =>
    rw [bbtNandCopyLoop, if_neg (by omega)]
  | succ n ih =>
    rw [bbtNandCopyLoop]
    dsimp only
    by_cases hstop : copyLen ≤ page * g.pgSize
    · -- all later pages lie behind the end as well
      rw [if_pos hstop, if_neg]
      intro hp
      have hmono : page * g.pgSize ≤ p * g.pgSize := Nat.mul_le_mul_right _ hp.1
      omega
    · obtain ⟨hread, hwrite⟩ := hok 0 (by omega) (by simpa using hstop)
      have hread' : ¬ (flt.read c.clock < 0 ∧ flt.read c.clock ≠ Nmbm.eUclean) := by
        rintro ⟨hneg, hclean⟩
        simp only [readGood, Bool.or_eq_true, decide_eq_true_eq, Nat.mul_zero, Nat.add_zero] at hread
        exact hread.elim (not_le.mpr hneg) hclean
      have hw : (c.tick.write flt new page (c.pages mapped page)).2 = 0 := hwrite
      have hpages : ∀ b p', (c.tick.write flt new page (c.pages mapped page)).1.pages b p' =
          if b = new ∧ p' = page then c.pages mapped page else c.pages b p' := by
        intro b p'
        simp [Chip.write, Chip.setPage, Chip.tick, show flt.write (c.clock + 1) = 0 from hwrite]
      rw [if_neg hstop, if_neg hread', hw, if_neg (by omega), ih, hpages, hpages]
      · have hmapped : ¬ (mapped = new ∧ p = page) := fun h => hne h.1
        rw [if_neg hmapped]
        by_cases hp : p = page
        · subst hp
          rw [if_neg (by omega), if_pos ⟨rfl, rfl⟩, if_pos ⟨le_rfl, by omega, by omega⟩]
        · have hrange : page + 1 ≤ p ∧ p < page + 1 + n ∧ p * g.pgSize < copyLen ↔
              page ≤ p ∧ p < page + (n + 1) ∧ p * g.pgSize < copyLen := by omega
          rw [if_neg (fun h : new = new ∧ p = page => hp h.2)]
          simp only [hrange]
      · intro j hj hlt
        have hnext := hok (j + 1) (by omega) (by rwa [show page + (j + 1) = page + 1 + j by omega])
        have hclock : (c.tick.write flt new page (c.pages mapped page)).1.clock = c.clock + 2 := rfl
        rw [hclock, show c.clock + 2 + 2 * j = c.clock + 2 * (j + 1) by omega,
          show c.clock + 2 + 1 + 2 * j = c.clock + 1 + 2 * (j + 1) by omega]
        exact hnext

/-- A block that is filled without failures has the pages copied, and is blank behind them. -/
theorem filled_pages {c : Chip} (hne : mapped ≠ new) (hok : FillOk g flt c.clock copyLen) {p : ℕ}
    (hp : p < pagesPerBlock g) :
    (filled g flt new mapped copyLen c).pages new p =
      if p * g.pgSize < copyLen then c.pages mapped p else blankPage g := by
  obtain ⟨herase, hcopy⟩ := hok
  have hblank : (bbtNandErase g flt new c).pages new p = blankPage g := by
    simp [bbtNandErase, Chip.erase, Chip.setBlock, herase, blankPage]
  have hsrc : (bbtNandErase g flt new c).pages mapped p = c.pages mapped p :=
    congrFun (erase_pages_ne hne) p
  rw [filled]
  by_cases hlen : 0 < copyLen
  · have hloop := @copyLoop_pages g flt new mapped copyLen (pagesPerBlock g) 0
      (bbtNandErase g flt new c) hne (fun j hj hlt => hcopy j hj (by simpa using hlt)) p
    have hrange : 0 ≤ p ∧ p < 0 + pagesPerBlock g ∧ p * g.pgSize < copyLen ↔
        p * g.pgSize < copyLen := by omega
    simp only [hrange, hsrc, hblank] at hloop
    rw [if_pos hlen]
    exact hloop
  · rw [if_neg hlen, if_neg (by omega), hblank]

theorem filled_pages_ne {ba : ℕ} (hne : ba ≠ new) (c : Chip) :
    (filled g flt new mapped copyLen c).pages ba = c.pages ba :=
  Nmbm.fillBlock_sameOutside g flt new mapped copyLen c ba (by omega)

end Fill

/-- A logical block has got a new physical block, which nobody uses: the pages copied are there, and
the other logical blocks are as they were. -/
structure Moves (block mapped copyLen new : ℕ) (s s' : Backend) : Prop where
  board : s'.board = s.board
  blocks : s'.logicalBlocks = s.logicalBlocks
  target : s'.getMappingBlock block = new
  others : ∀ b < s.logicalBlocks, b ≠ block → s'.getMappingBlock b = s.getMappingBlock b
  fresh : ∀ b < s.logicalBlocks, s.getMappingBlock b ≠ new
  pages : ∀ b < s.logicalBlocks, b ≠ block → ∀ pb : ℕ, s.getMappingBlock b = pb →
    s'.chip.pages pb = s.chip.pages pb
  copied : ∀ p < pagesPerBlock s.board.g, s'.chip.pages new p =
    if p * s.board.g.pgSize < copyLen then s.chip.pages mapped p else blankPage s.board.g

/-- All logical blocks are where they were, with their contents. -/
structure Stays (s s' : Backend) : Prop where
  board : s'.board = s.board
  blocks : s'.logicalBlocks = s.logicalBlocks
  mapping : ∀ b < s.logicalBlocks, s'.getMappingBlock b = s.getMappingBlock b
  pages : ∀ b < s.logicalBlocks, ∀ pb : ℕ, s.getMappingBlock b = pb →
    s'.chip.pages pb = s.chip.pages pb

section Effects

variable {block mapped copyLen new : ℕ} {s s' : Backend} {S : ℕ → ℕ → Prop}

/-- A logical block that keeps its physical block and its contents keeps its pages. -/
theorem page_eq {b p : ℕ} (hmap : s'.getMappingBlock b = s.getMappingBlock b)
    (hpages : ∀ pb : ℕ, s.getMappingBlock b = pb → s'.chip.pages pb = s.chip.pages pb) :
    s'.page b p = s.page b p := by
  rw [Backend.page, Backend.page, hmap]
  split_ifs with hneg
  · rfl
  · rw [hpages _ (Int.toNat_of_nonneg (by omega)).symm]

theorem Stays.apart (h : Stays s s') (hapart : s.Apart) : s'.Apart := by
  intro b hb b' hb' hpos heq
  rw [h.blocks] at hb hb'
  rw [h.mapping b hb] at hpos heq
  rw [h.mapping b' hb'] at heq
  exact hapart b hb b' hb' hpos heq

theorem Stays.agree (h : Stays s s') : Agree S s s' where
  board := h.board
  blocks := h.blocks
  page := fun b hb _ _ _ => page_eq (h.mapping b hb) (h.pages b hb)

theorem Moves.apart (h : Moves block mapped copyLen new s s') (hapart : s.Apart) : s'.Apart := by
  intro b hb b' hb' hpos heq
  rw [h.blocks] at hb hb'
  by_cases hbb : b = block
  · by_cases hbb' : b' = block
    · rw [hbb, hbb']
    · -- the other block would lie on the new one
      rw [hbb, h.target, h.others b' hb' hbb'] at heq
      exact absurd heq.symm (h.fresh b' hb')
  · by_cases hbb' : b' = block
    · rw [hbb', h.target, h.others b hb hbb] at heq
      exact absurd heq (h.fresh b hb)
    · rw [h.others b hb hbb] at hpos heq
      rw [h.others b' hb' hbb'] at heq
      exact hapart b hb b' hb' hpos heq

/-- Only the pages behind the copied ones change, as far as they were not blank. -/
theorem Moves.agree {stop : ℕ} (h : Moves block mapped copyLen new s s')
    (hmapped : s.getMappingBlock block = mapped)
    (hrest : ∀ p, stop ≤ p → p < pagesPerBlock s.board.g → copyLen ≤ p * s.board.g.pgSize →
      s.chip.pages mapped p = blankPage s.board.g) :
    Agree (uncopied s.board.g block copyLen stop) s s' where
  board := h.board
  blocks := h.blocks
  page := by
    intro b hb p hp hS
    by_cases hbb : b = block
    · subst hbb
      rw [Backend.page_of_eq h.target, Backend.page_of_eq hmapped, h.copied p hp]
      split_ifs with hcopied
      · rfl
      · have hstop : stop ≤ p := by
          by_contra hlt
          exact hS ⟨rfl, by omega, by omega⟩
        rw [hrest p hstop hp (by omega)]
    · exact page_eq (h.others b hb hbb) (h.pages b hb hbb)

end Effects

/-- The new block takes the pages of the old one, and the pages that are neither copied nor about to
be accessed again are blank. -/
structure Kept (flt : Faults) (e : Remap) (clock : ℕ) : Prop where
  rest : ∀ p, e.stop ≤ p → p < pagesPerBlock e.before.board.g →
    e.copyLen ≤ p * e.before.board.g.pgSize →
    e.before.chip.pages e.mapped p = blankPage e.before.board.g
  fill : FillOk e.before.board.g flt clock e.copyLen

/-- The block that a logical block gets when its physical block is retired. -/
def Bbt.retiredTarget (bd : Board) (t : Bbt) (block mapped : ℕ) : ℕ :=
  match blockRange bd block with
  | none => block
  | some r => mapWithin (retired t.isBad mapped) r.1 r.2 block

/-- No logical block lies on the block of the table or on the block that is handed out. -/
structure Bbt.Clear (bd : Board) (t : Bbt) (block mapped : ℕ) : Prop where
  table : ∀ b < bd.g.totalBlks - 4, t.getMappingBlockIndex bd b ≠ t.bmtBlkIdx
  fresh : ∀ b < bd.g.totalBlks - 4, t.getMappingBlockIndex bd b ≠ t.retiredTarget bd block mapped

/-- A remap that finds a new block loses nothing. For v2 the table has to be written as well, BBT
must not move other logical blocks, and NMBM has to hand out the topmost spare block. -/
def RemapOk (flt : Faults) (e : Remap) : Prop :=
  mappingBlockInRange e.before.board e.block ≠ none →
    match e.before with
    | .v2 vb s => OpOk vb flt s (.remap e.block e.mapped e.copyLen) ∧
        (findValidBlockInPool vb s ≠ none → Kept flt e s.chip.clock)
    | .bbt bd t => (Backend.bbt bd t).ShiftFree e.block e.mapped ∧ t.Clear bd e.block e.mapped ∧
        Kept flt e (t.chip.clock + 2)
    | .nmbm _ s => SpareTopGood s.ni ∧
        (s.ni.mappingBlocksBa < s.ni.mappingBlocksTopBa → Kept flt e s.chip.clock)

section V2

variable {vb : V2Board} {flt : Faults} {s : V2} {block mapped copyLen stop : ℕ}

/-- An upload erases and writes blocks of the pool only, and none that a logical block has taken. -/
theorem uploadBmt_pages {n : ℕ} {s : V2} {ba : ℕ}
    (h : ∀ i < n, mappedAt vb s.tbl i ≠ normalMapped → ba ≠ blockAt vb s.tbl i) :
    (uploadBmt vb flt n s).1.chip.pages ba = s.chip.pages ba := by
  induction n generalizing s with
  | zero => rfl
  | succ n ih =>
    rw [uploadBmt]
    by_cases hflag : mappedAt vb s.tbl n = normalMapped
    · rw [if_pos hflag]
    · have hne := h n (Nat.lt_succ_self n) hflag
      -- the entry that is dropped is not looked at again
      have hnext : ∀ i < n, mappedAt vb (setBlockAt vb n 0 s.tbl) i ≠ normalMapped →
          ba ≠ blockAt vb (setBlockAt vb n 0 s.tbl) i := by
        intro i hi hi'
        rw [mappedAt_setBlockAt] at hi'
        rw [blockAt_setBlockAt, if_neg (by omega)]
        exact h i (by omega) hi'
      rw [if_neg hflag]
      dsimp only
      split_ifs
      · rw [ih hnext]
        exact erase_pages_ne hne
      · rw [ih hnext]
        exact (writeBmt_pages_ne hne).trans (erase_pages_ne hne)
      · exact (writeBmt_pages_ne hne).trans (erase_pages_ne hne)

/-- The physical block of a logical block is no pool block, unless the logical block has taken it. -/
theorem Sound.getMappingBlockIndex_ne (h : Sound vb s) {b i : ℕ} (hb : b < vb.mainBlocks)
    (hi : i ≤ s.bmtBlkIdx) (hflag : mappedAt vb s.tbl i ≠ normalMapped) :
    s.getMappingBlockIndex vb b ≠ blockAt vb s.tbl i := by
  have habove := h.shape.above i hi
  have hpool : b < vb.poolLba := by
    rw [V2Board.mainBlocks] at hb
    rw [V2Board.poolLba]
    omega
  rw [V2.getMappingBlockIndex, if_neg (by omega)]
  split_ifs
  · omega
  · exact fun heq => hflag (h.shape.used b hpool i hi heq)

theorem Sound.remapBlock_moves (h : Sound vb s) (hblock : block < vb.mainBlocks)
    (hrange : mappingBlockInRange vb.bd block ≠ none)
    (hmapped : s.getMappingBlockIndex vb block = mapped) {i : ℕ}
    (hfind : findValidBlockInPool vb s = some i) (hfill : FillOk vb.bd.g flt s.chip.clock copyLen) :
    Moves block mapped copyLen (blockAt vb s.tbl i) (.v2 vb s)
      (.v2 vb (s.remapBlock vb flt block mapped copyLen).1) := by
  obtain ⟨hi, hfree⟩ := findValidBlockInPool_some hfind
  have hnormal : mappedAt vb s.tbl i ≠ normalMapped := by
    rw [hfree]
    decide
  have hpool : block < vb.poolLba := by
    rw [V2Board.mainBlocks] at hblock
    rw [V2Board.poolLba]
    omega
  have hsize := poolLba_le vb
  have hrun : s.remapBlock vb flt block mapped copyLen =
      ((beforeUpload vb flt block i mapped copyLen s).upload vb flt, true) := by
    rw [V2.remapBlock, hfind]
    rfl
  have hne : mapped ≠ blockAt vb s.tbl i :=
    hmapped.symm.trans_ne (h.getMappingBlockIndex_ne hblock hi.le hnormal)
  -- the entries that the upload looks at are those from before, but for the one taken
  have hentry : ∀ j, blockAt vb (s.take vb block i).tbl j = blockAt vb s.tbl j ∧
      mappedAt vb (s.take vb block i).tbl j =
        if j = i then normalMapped else mappedAt vb s.tbl j := fun j =>
    ⟨(blockAt_update_of_lt (by omega)).trans blockAt_setMappedAt,
      (mappedAt_update_of_lt (by omega)).trans mappedAt_setMappedAt⟩
  have hupload : ∀ ba, (∀ j ≤ s.bmtBlkIdx, j ≠ i → mappedAt vb s.tbl j ≠ normalMapped →
      ba ≠ blockAt vb s.tbl j) →
      ((beforeUpload vb flt block i mapped copyLen s).upload vb flt).chip.pages ba =
        (filled vb.bd.g flt (blockAt vb s.tbl i) mapped copyLen s.chip).pages ba := by
    intro ba hba
    refine uploadBmt_pages fun j hj hflag => ?_
    have hj : j < s.bmtBlkIdx + 1 := hj
    replace hflag : mappedAt vb (s.take vb block i).tbl j ≠ normalMapped := hflag
    rw [(hentry j).2] at hflag
    split_ifs at hflag with hji
    · exact absurd rfl hflag
    · exact (hba j (by omega) hji hflag).trans_eq (hentry j).1.symm
  rw [hrun]
  constructor
  · rfl
  · rfl
  · have hself : ((beforeUpload vb flt block i mapped copyLen s).upload vb flt).tbl block =
        blockAt vb s.tbl i :=
      (uploadBmt_tbl vb flt _ _ (by omega)).trans (Function.update_self ..)
    show (((beforeUpload vb flt block i mapped copyLen s).upload vb flt).getMappingBlockIndex vb block : ℤ) = _
    rw [V2.getMappingBlockIndex, if_neg (by omega), if_neg hrange, hself]
  · intro b hb hbb
    exact congrArg Nat.cast (V2.getMappingBlockIndex_remapBlock hrun hbb)
  · intro b hb heq
    exact h.getMappingBlockIndex_ne hb hi.le hnormal (Int.ofNat_inj.mp heq)
  · intro b hb hbb pb hpb
    have hpb := Int.ofNat_inj.mp hpb
    have hother : ∀ j ≤ s.bmtBlkIdx, mappedAt vb s.tbl j ≠ normalMapped → pb ≠ blockAt vb s.tbl j :=
      fun j hj hflag => hpb ▸ h.getMappingBlockIndex_ne hb hj hflag
    exact (hupload pb fun j hj _ => hother j hj).trans
      (filled_pages_ne (hother i hi.le hnormal) s.chip)
  · intro p hp
    have hown : ∀ j ≤ s.bmtBlkIdx, j ≠ i → mappedAt vb s.tbl j ≠ normalMapped →
        blockAt vb s.tbl i ≠ blockAt vb s.tbl j :=
      fun j hj hji _ heq => hji (h.shape.distinct i hi.le j hj heq).symm
    exact (congrFun (hupload _ hown) p).trans (filled_pages hne hfill hp)

end V2

section Bbt

variable {bd : Board} {flt : Faults} {t : Bbt} {block mapped copyLen : ℕ}

/-- The table is erased and written on the chip. -/
theorem setBlockState_pages_ne {ba m : ℕ} {bad : Bool} (h : ba ≠ t.bmtBlkIdx) :
    (t.setBlockState bd flt m bad).chip.pages ba = t.chip.pages ba :=
  (writeBmt_pages_ne h).trans (erase_pages_ne h)

theorem Bbt.remapBlock_moves (hblock : block < bd.g.totalBlks - 4)
    (hrange : mappingBlockInRange bd block ≠ none)
    (hmapped : t.getMappingBlockIndex bd block = mapped)
    (hfree : (Backend.bbt bd t).ShiftFree block mapped) (hclear : t.Clear bd block mapped)
    (hfill : FillOk bd.g flt (t.chip.clock + 2) copyLen) :
    Moves block mapped copyLen (t.retiredTarget bd block mapped) (.bbt bd t)
      (.bbt bd (t.remapBlock bd flt block mapped copyLen).1) := by
  have hbad : (t.setBlockState bd flt mapped true).isBad = retired t.isBad mapped := by
    funext i
    rw [retired, Bool.eq_iff_iff, Bool.or_eq_true, decide_eq_true_eq, isBad_setBlockState]
  have htarget : (t.setBlockState bd flt mapped true).getMappingBlockIndex bd block =
      t.retiredTarget bd block mapped := by
    rw [Bbt.getMappingBlockIndex, hbad, Bbt.retiredTarget]
    cases blockRange bd block <;> rfl
  have hrun : t.remapBlock bd flt block mapped copyLen =
      ((t.setBlockState bd flt mapped true).fill bd flt (t.retiredTarget bd block mapped) mapped copyLen,
        true) := by
    rw [Bbt.remapBlock]
    split
    · exact absurd ‹_› hrange
    · dsimp only
      rw [htarget]
  have hne : mapped ≠ t.retiredTarget bd block mapped := hmapped ▸ hclear.fresh block hblock
  have hpages : ∀ ba, ((t.setBlockState bd flt mapped true).fill bd flt
      (t.retiredTarget bd block mapped) mapped copyLen).chip.pages ba =
        (filled bd.g flt (t.retiredTarget bd block mapped) mapped copyLen
          (t.setBlockState bd flt mapped true).chip).pages ba := fun ba => rfl
  have hiff := @Bbt.getMappingBlockIndex_remapBlock_iff bd flt block mapped copyLen t _ hrun
  rw [hrun]
  constructor
  · rfl
  · rfl
  · exact congrArg Nat.cast htarget
  · intro b hb hbb
    exact congrArg Nat.cast ((hiff b).mpr (hfree b hb hbb))
  · intro b hb heq
    exact hclear.fresh b hb (Int.ofNat_inj.mp heq)
  · intro b hb hbb pb hpb
    obtain rfl := Int.ofNat_inj.mp hpb
    exact (hpages _).trans ((filled_pages_ne (hclear.fresh b hb) _).trans
      (setBlockState_pages_ne (hclear.table b hb)))
  · intro p hp
    have hsrc : (t.setBlockState bd flt mapped true).chip.pages mapped = t.chip.pages mapped :=
      setBlockState_pages_ne (hmapped ▸ hclear.table block hblock)
    refine (congrFun (hpages _) p).trans ((filled_pages hne hfill hp).trans ?_)
    rw [hsrc]
    rfl

end Bbt

section Nmbm

variable {bd : Board} {flt : Faults} {s s' : Nmbm.Sys} {fuel block mapped copyLen : ℕ} {b : Bool}

/-- `remap_block_nmbm` stays where it is or moves to the topmost spare block. -/
theorem nmbm_remapBlock (h : Settled s.ni) (hgood : SpareTopGood s.ni)
    (hlb : block < s.ni.dataBlockCount) (hmapped : s.ni.mapping block = mapped)
    (hfill : s.ni.mappingBlocksBa < s.ni.mappingBlocksTopBa → FillOk bd.g flt s.chip.clock copyLen)
    (hrun : Nmbm.remapBlock bd.g flt fuel block mapped copyLen s = some (s', b)) :
    Stays (.nmbm bd s) (.nmbm bd s') ∨ (s.ni.mappingBlocksBa < s.ni.mappingBlocksTopBa ∧
      Moves block mapped copyLen s.ni.mappingBlocksTopBa (.nmbm bd s) (.nmbm bd s')) := by
  have hmoved := Nmbm.remapBlock_moved bd.g flt h hgood
    (by rw [Nmbm.getMappingBlockIndex, if_neg (by omega), hmapped]) hrun
  have hindex : ∀ b < s.ni.dataBlockCount, Nmbm.getMappingBlockIndex s.ni b = s.ni.mapping b :=
    fun b hb => if_neg (by omega)
  have hkeeps : ∀ b < s.ni.dataBlockCount, ∀ pb : ℕ, Nmbm.getMappingBlockIndex s.ni b = pb →
      s'.chip.pages pb = s.chip.pages pb :=
    fun b hb pb hpb => hmoved.keeps h hb ((hindex b hb).symm.trans hpb)
  obtain ⟨-, rfl | ⟨u, hupdated, rfl⟩⟩ | ⟨-, hspare, ok, hupdate⟩ :=
    Nmbm.remapBlock_cases bd.g flt h hgood hlb hmapped hrun
  · exact .inl ⟨rfl, rfl, fun b hb => rfl, hkeeps⟩
  · refine .inl ⟨rfl, congrArg Nmbm.Fixed.dataBlockCount hupdated.fixed, fun b hb => ?_, hkeeps⟩
    exact Nmbm.getMappingBlockIndex_of_fixed hupdated.fixed b
  · -- the table is written below the block handed out
    have hlb' : block < s.ni.mgmtStartBa := hlb.trans_le h.mapped.count_le
    have hsettled := (Nmbm.setState_updated h.layout mapped .bad).settled h
    have htaken : Settled ((s.ni.setState mapped .bad).takeSpare block s.ni.mappingBlocksTopBa) :=
      hsettled.takeSpare hspare hlb' h.mapped.count_le fun i hi _ => hi
    have hupdated := Nmbm.updateInfoTable_updated bd.g flt htaken.layout hupdate
    have hfixed := hupdated.fixed
    have hcount : s'.ni.dataBlockCount = s.ni.dataBlockCount :=
      congrArg Nmbm.Fixed.dataBlockCount hfixed
    have hmapping : ∀ i, s'.ni.mapping i =
        if i = block then (s.ni.mappingBlocksTopBa : ℤ) else s.ni.mapping i := fun i =>
      (Nmbm.mapping_of_fixed hfixed i).trans
        (Nmbm.takeSpare_mapping (hlb'.trans_le h.mapped.mgmt_le) _ i)
    have hindex' : ∀ i < s.ni.dataBlockCount, Nmbm.getMappingBlockIndex s'.ni i =
        if i = block then (s.ni.mappingBlocksTopBa : ℤ) else s.ni.mapping i := by
      intro i hi
      rw [Nmbm.getMappingBlockIndex, if_neg (by omega), hmapping]
    have hlayout := h.layout.mgmt_le
    have hfresh : ∀ i < s.ni.dataBlockCount, s.ni.mapping i ≠ s.ni.mappingBlocksTopBa := by
      intro i hi heq
      have htarget := h.mapped.target i hi (by omega)
      omega
    refine .inr ⟨hspare, rfl, hcount, ?_, ?_, ?_, fun b hb _ => hkeeps b hb, ?_⟩
    · exact (hindex' block hlb).trans (if_pos rfl)
    · intro i hi hne
      exact ((hindex' i hi).trans (if_neg hne)).trans (hindex i hi).symm
    · intro i hi
      exact (hindex i hi).trans_ne (hfresh i hi)
    · intro p hp
      have hne : mapped ≠ s.ni.mappingBlocksTopBa := by
        have hblock := hfresh block hlb
        omega
      have hout : s'.chip.pages s.ni.mappingBlocksTopBa =
          (filled bd.g flt s.ni.mappingBlocksTopBa mapped copyLen s.chip).pages
            s.ni.mappingBlocksTopBa := by
        apply hupdated.chip
        right
        show s.ni.mappingBlocksTopBa - 1 ≤ _
        omega
      exact (congrFun hout p).trans (filled_pages hne (hfill hspare) hp)

end Nmbm

/-- A remap that is fine keeps the invariant, and all pages but those that are neither copied nor
behind the access that failed. -/
theorem remap_agree {flt : Faults} {fuel block mapped copyLen stop : ℕ} {s s' : Backend} {b : Bool}
    (h : s.Inv) (hblock : block < s.logicalBlocks) (hmapped : s.getMappingBlock block = mapped)
    (hok : RemapOk flt ⟨s, block, mapped, copyLen, stop⟩)
    (hrun : s.mtkBmtRemapBlock flt fuel block mapped copyLen = some (s', b)) :
    s'.Inv ∧ Agree (uncopied s.board.g block copyLen stop) s s' := by
  obtain ⟨hapart, hsound⟩ := h
  rw [Backend.mtkBmtRemapBlock] at hrun
  split_ifs at hrun with hrange
  · obtain ⟨rfl, -⟩ := Prod.mk.inj (Option.some.inj hrun)
    exact ⟨⟨hapart, hsound⟩, .refl ..⟩
  replace hok := hok hrange
  cases s with
  | v2 vb s =>
    obtain ⟨hop, hkept⟩ := hok
    obtain ⟨rfl, -⟩ := Prod.mk.inj (Option.some.inj hrun)
    have hsound' : Sound vb (s.remapBlock vb flt block mapped copyLen).1 := exec_sound hsound hop
    cases hfind : findValidBlockInPool vb s with
    | none =>
      have hstay : s.remapBlock vb flt block mapped copyLen = (s, false) := by
        rw [V2.remapBlock, hfind]
      rw [hstay]
      exact ⟨⟨hapart, hsound⟩, .refl ..⟩
    | some i =>
      have hkept := hkept (by simp [hfind])
      have hmoves := hsound.remapBlock_moves hblock hrange (Int.ofNat_inj.mp hmapped) hfind hkept.fill
      exact ⟨⟨hmoves.apart hapart, hsound'⟩, hmoves.agree hmapped hkept.rest⟩
  | bbt bd t =>
    obtain ⟨hfree, hclear, hkept⟩ := hok
    obtain ⟨rfl, -⟩ := Prod.mk.inj (Option.some.inj hrun)
    have hmoves := Bbt.remapBlock_moves hblock hrange (Int.ofNat_inj.mp hmapped) hfree hclear hkept.fill
    exact ⟨⟨hmoves.apart hapart, trivial⟩, hmoves.agree hmapped hkept.rest⟩
  | nmbm bd s =>
    obtain ⟨hgood, hkept⟩ := hok
    obtain ⟨⟨t, ok⟩, hr, heq⟩ := Option.map_eq_some_iff.mp hrun
    obtain ⟨rfl, rfl⟩ := Prod.mk.inj heq
    have hlb : block < s.ni.dataBlockCount := hblock
    have hindex : s.ni.mapping block = mapped := (if_neg (by omega)).symm.trans hmapped
    have hsettled := (Nmbm.remapBlock_moved bd.g flt hsound hgood hmapped hr).settled
    obtain hstays | ⟨hspare, hmoves⟩ :=
      nmbm_remapBlock hsound hgood hlb hindex (fun hspare => (hkept hspare).fill) hr
    · exact ⟨⟨hstays.apart hapart, hsettled⟩, hstays.agree⟩
    · exact ⟨⟨hmoves.apart hapart, hsettled⟩, hmoves.agree hmapped (hkept hspare).rest⟩

end NeonWrt.Bmt
