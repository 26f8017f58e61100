import NeonWrt.Bmt.V2
import NeonWrt.Lib.Run
import Mathlib.Tactic.Ring

/-!
# The table of BMT v2 in every run

The table maps logical blocks to physical ones, the flags say which blocks of the
pool are free, and one block of the pool holds the table itself. The three stay
in step as long as the pool accepts the table each time it is written, no block
is unmapped onto a physical block in use, and no pool block is freed under a
logical block the debugfs command does not look at.
-/

namespace NeonWrt.Bmt

open Lib Nmbm

section Invariant

variable (vb : V2Board)

/-- The entries of the pool from `0` to `n` are in use as their flags say, and there are no others. -/
structure Shape (tbl : ℕ → ℕ) (n : ℕ) : Prop where
  injective : ∀ b < vb.poolLba, ∀ b' < vb.poolLba, tbl b = tbl b' → b = b'
  lt : n < vb.poolSize
  ne_zero : ∀ i ≤ n, blockAt vb tbl i ≠ 0
  eq_zero : ∀ i, n < i → i < vb.tableSize → blockAt vb tbl i = 0
  distinct : ∀ i ≤ n, ∀ j ≤ n, blockAt vb tbl i = blockAt vb tbl j → i = j
  above : ∀ i ≤ n, vb.poolLba ≤ blockAt vb tbl i
  used : ∀ b < vb.poolLba, ∀ i ≤ n, tbl b = blockAt vb tbl i → mappedAt vb tbl i = normalMapped

/-- The table is in one of these entries, which no logical block has taken. -/
structure Sound (s : V2) : Prop where
  shape : Shape vb s.tbl s.bmtBlkIdx
  own : mappedAt vb s.tbl s.bmtBlkIdx ≠ normalMapped

/-- What holds of the table: logical blocks have blocks of their own, none of them a free block of
the pool or the block of the table, and the index is one of the pool. -/
structure TableOk (s : V2) : Prop where
  injective : ∀ b < vb.poolLba, ∀ b' < vb.poolLba, s.tbl b = s.tbl b' → b = b'
  not_free : ∀ b < vb.poolLba, ∀ i < vb.tableSize, blockAt vb s.tbl i ≠ 0 →
    mappedAt vb s.tbl i = noMapped → s.tbl b ≠ blockAt vb s.tbl i
  not_table : ∀ b < vb.poolLba, s.tbl b ≠ blockAt vb s.tbl s.bmtBlkIdx
  index : s.bmtBlkIdx < vb.poolSize ∧ blockAt vb s.tbl s.bmtBlkIdx ≠ 0

variable {vb}

theorem Sound.tableOk {s : V2} (h : Sound vb s) : TableOk vb s where
  injective := h.shape.injective
  not_free := by
    intro b hb i hi hne hfree heq
    have hle : i ≤ s.bmtBlkIdx := by
      by_contra hlt
      exact hne (h.shape.eq_zero i (by omega) hi)
    have hused := h.shape.used b hb i hle heq
    rw [hfree] at hused
    exact absurd hused (by decide)
  not_table := fun b hb heq => h.own (h.shape.used b hb _ le_rfl heq)
  index := ⟨h.shape.lt, h.shape.ne_zero _ le_rfl⟩

end Invariant

section Words

variable {vb : V2Board} {tbl : ℕ → ℕ} {i j v b : ℕ}

theorem poolLba_le (vb : V2Board) : vb.poolLba ≤ vb.tableSize := vb.table_le

@[simp] theorem blockAt_setMappedAt : blockAt vb (setMappedAt vb i v tbl) j = blockAt vb tbl j :=
  Function.update_of_ne (by omega) ..

@[simp] theorem mappedAt_setBlockAt : mappedAt vb (setBlockAt vb i v tbl) j = mappedAt vb tbl j :=
  Function.update_of_ne (by omega) ..

theorem blockAt_setBlockAt : blockAt vb (setBlockAt vb i v tbl) j =
    if j = i then v else blockAt vb tbl j := by
  by_cases h : j = i
  · rw [if_pos h, h]
    exact Function.update_self ..
  · rw [if_neg h]
    exact Function.update_of_ne (by omega) ..

theorem mappedAt_setMappedAt : mappedAt vb (setMappedAt vb i v tbl) j =
    if j = i then v else mappedAt vb tbl j := by
  by_cases h : j = i
  · rw [if_pos h, h]
    exact Function.update_self ..
  · rw [if_neg h]
    exact Function.update_of_ne (by omega) ..

theorem setBlockAt_of_lt (hb : b < vb.tableSize) : setBlockAt vb i v tbl b = tbl b :=
  Function.update_of_ne (by omega) ..

theorem setMappedAt_of_lt (hb : b < vb.tableSize) : setMappedAt vb i v tbl b = tbl b :=
  Function.update_of_ne (by omega) ..

theorem blockAt_update_of_lt (hb : b < vb.tableSize) :
    blockAt vb (Function.update tbl b v) j = blockAt vb tbl j :=
  Function.update_of_ne (by omega) ..

theorem mappedAt_update_of_lt (hb : b < vb.tableSize) :
    mappedAt vb (Function.update tbl b v) j = mappedAt vb tbl j :=
  Function.update_of_ne (by omega) ..

end Words

section Upload

variable (vb : V2Board) (flt : Faults)

/-- Some block of the pool takes the table: the block of the entry below `n`, or, where it cannot
be erased or written, one further down, before the first that a logical block has taken. -/
def Accepts (tbl : ℕ → ℕ) : ℕ → ℕ → Prop
  | 0, _ => False
  | n + 1, clock =>
    mappedAt vb tbl n ≠ normalMapped ∧
      if flt.erase clock ≠ 0 then Accepts tbl n (clock + 1)
      else if flt.write (clock + 1) ≠ 0 then Accepts tbl n (clock + 2)
      else True

variable {vb flt}

theorem accepts_congr {tbl tbl' : ℕ → ℕ} {n : ℕ} (h : ∀ i < n, mappedAt vb tbl' i = mappedAt vb tbl i)
    (clock : ℕ) : Accepts vb flt tbl' n clock ↔ Accepts vb flt tbl n clock := by
  induction n generalizing clock with
  | zero => rfl
  | succ n ih =>
    have ih' := ih fun i hi => h i (by omega)
    rw [Accepts, Accepts, h n (by omega), ih', ih']

/-- A block that failed is no longer in the pool. -/
theorem Shape.drop {tbl : ℕ → ℕ} {n : ℕ} (h : Shape vb tbl (n + 1)) :
    Shape vb (setBlockAt vb (n + 1) 0 tbl) n := by
  have hlow : ∀ b < vb.poolLba, setBlockAt vb (n + 1) 0 tbl b = tbl b := fun b hb =>
    setBlockAt_of_lt (hb.trans_le (poolLba_le vb))
  have hblock : ∀ i ≤ n, blockAt vb (setBlockAt vb (n + 1) 0 tbl) i = blockAt vb tbl i := by
    intro i hi
    rw [blockAt_setBlockAt, if_neg (by omega)]
  constructor
  · intro b hb b' hb' heq
    rw [hlow b hb, hlow b' hb'] at heq
    exact h.injective b hb b' hb' heq
  · exact (Nat.lt_succ_self n).trans h.lt
  · intro i hi
    rw [hblock i hi]
    exact h.ne_zero i (by omega)
  · intro i hi hlt
    rw [blockAt_setBlockAt]
    split_ifs with heq
    · rfl
    · exact h.eq_zero i (by omega) hlt
  · intro i hi j hj heq
    rw [hblock i hi, hblock j hj] at heq
    exact h.distinct i (by omega) j (by omega) heq
  · intro i hi
    rw [hblock i hi]
    exact h.above i (by omega)
  · intro b hb i hi heq
    rw [hlow b hb, hblock i hi] at heq
    rw [mappedAt_setBlockAt]
    exact h.used b hb i (by omega) heq

theorem uploadBmt_succ (n : ℕ) (s : V2) :
    (mappedAt vb s.tbl n = normalMapped ∧ uploadBmt vb flt (n + 1) s = (s, noIndex)) ∨
    (mappedAt vb s.tbl n ≠ normalMapped ∧ ∃ chip : Chip,
      (uploadBmt vb flt (n + 1) s = ({ s with chip := chip }, n) ∧
        flt.erase s.chip.clock = 0 ∧ flt.write (s.chip.clock + 1) = 0) ∨
      (uploadBmt vb flt (n + 1) s =
          uploadBmt vb flt n { s with tbl := setBlockAt vb n 0 s.tbl, chip := chip } ∧
        (flt.erase s.chip.clock ≠ 0 ∧ chip.clock = s.chip.clock + 1 ∨
          flt.erase s.chip.clock = 0 ∧ flt.write (s.chip.clock + 1) ≠ 0 ∧
            chip.clock = s.chip.clock + 2))) := by
  rw [uploadBmt]
  by_cases hflag : mappedAt vb s.tbl n = normalMapped
  · exact .inl ⟨hflag, if_pos hflag⟩
  · rw [if_neg hflag]
    refine .inr ⟨hflag, ?_⟩
    dsimp only
    split_ifs with herase hwrite
    · exact ⟨_, .inr ⟨rfl, .inl ⟨herase, rfl⟩⟩⟩
    · exact ⟨_, .inr ⟨rfl, .inr ⟨not_not.mp herase, hwrite, rfl⟩⟩⟩
    · exact ⟨_, .inl ⟨rfl, not_not.mp herase, not_not.mp hwrite⟩⟩

/-- An upload finds no block, or leaves the table in an entry of the pool that is not taken. -/
theorem uploadBmt_cases {n : ℕ} {s : V2} (h : Shape vb s.tbl n) :
    ((uploadBmt vb flt (n + 1) s).2 = noIndex ∧ ¬ Accepts vb flt s.tbl (n + 1) s.chip.clock) ∨
    (Shape vb (uploadBmt vb flt (n + 1) s).1.tbl (uploadBmt vb flt (n + 1) s).2 ∧
      mappedAt vb (uploadBmt vb flt (n + 1) s).1.tbl (uploadBmt vb flt (n + 1) s).2 ≠ normalMapped) := by
  induction n generalizing s with
  | zero =>
    rcases @uploadBmt_succ vb flt 0 s with ⟨hflag, heq⟩ | ⟨hflag, chip, ⟨heq, -⟩ | ⟨heq, hfail⟩⟩
    · rw [heq]
      exact .inl ⟨rfl, fun hacc => hacc.1 hflag⟩
    · rw [heq]
      exact .inr ⟨h, hflag⟩
    · rw [heq]
      refine .inl ⟨rfl, fun hacc => ?_⟩
      rcases hfail with ⟨herase, -⟩ | ⟨herase, hwrite, -⟩
      · simp [Accepts, herase] at hacc
      · simp [Accepts, herase, hwrite] at hacc
  | succ n ih =>
    rcases @uploadBmt_succ vb flt (n + 1) s with
      ⟨hflag, heq⟩ | ⟨hflag, chip, ⟨heq, -⟩ | ⟨heq, hfail⟩⟩
    · rw [heq]
      exact .inl ⟨rfl, fun hacc => hacc.1 hflag⟩
    · rw [heq]
      exact .inr ⟨h, hflag⟩
    · rw [heq]
      have hrec := @ih { s with tbl := setBlockAt vb (n + 1) 0 s.tbl, chip := chip } h.drop
      rw [@accepts_congr vb flt s.tbl _ _ fun i _ => mappedAt_setBlockAt] at hrec
      refine hrec.imp_left (And.imp_right fun hnot hacc => hnot ?_)
      rw [Accepts] at hacc
      rcases hfail with ⟨herase, hclock⟩ | ⟨herase, hwrite, hclock⟩
      · rw [hclock]
        simpa [herase] using hacc.2
      · rw [hclock]
        simpa [herase, hwrite] using hacc.2

theorem V2.upload_sound {s : V2} (h : Shape vb s.tbl s.bmtBlkIdx)
    (hacc : Accepts vb flt s.tbl (s.bmtBlkIdx + 1) s.chip.clock) : Sound vb (s.upload vb flt) := by
  rcases @uploadBmt_cases vb flt _ _ h with ⟨-, hnot⟩ | ⟨hshape, hown⟩
  · exact absurd hacc hnot
  · exact ⟨hshape, hown⟩

end Upload

section Operations

variable {vb : V2Board} {flt : Faults} {s : V2}

/-- New physical blocks or flags, with the blocks of the pool as they are. -/
theorem Shape.replace {tbl tbl' : ℕ → ℕ} {n : ℕ} (h : Shape vb tbl n)
    (hblock : ∀ i, blockAt vb tbl' i = blockAt vb tbl i)
    (hinj : ∀ b < vb.poolLba, ∀ b' < vb.poolLba, tbl' b = tbl' b' → b = b')
    (hused : ∀ b < vb.poolLba, ∀ i ≤ n, tbl' b = blockAt vb tbl i →
      mappedAt vb tbl' i = normalMapped) : Shape vb tbl' n where
  injective := hinj
  lt := h.lt
  ne_zero := fun i hi => by rw [hblock]; exact h.ne_zero i hi
  eq_zero := fun i hi hlt => by rw [hblock]; exact h.eq_zero i hi hlt
  distinct := fun i hi j hj heq => by
    rw [hblock, hblock] at heq
    exact h.distinct i hi j hj heq
  above := fun i hi => by rw [hblock]; exact h.above i hi
  used := fun b hb i hi heq => by
    rw [hblock] at heq
    exact hused b hb i hi heq

theorem findValidBlockInPool_some {i : ℕ} (h : findValidBlockInPool vb s = some i) :
    i < s.bmtBlkIdx ∧ mappedAt vb s.tbl i = noMapped := by
  have hmem := List.mem_of_find?_eq_some h
  have hfree := List.find?_some h
  simp only [decide_eq_true_eq] at hfree
  exact ⟨List.mem_range.mp hmem, hfree.2⟩

theorem Shape.take {block i : ℕ} (h : Shape vb s.tbl s.bmtBlkIdx) (hblock : block < vb.tableSize)
    (hi : i < s.bmtBlkIdx) (hfree : mappedAt vb s.tbl i = noMapped) :
    Shape vb (s.take vb block i).tbl s.bmtBlkIdx := by
  have hlow : ∀ b < vb.poolLba, b ≠ block → (s.take vb block i).tbl b = s.tbl b := by
    intro b hb hne
    exact (Function.update_of_ne hne ..).trans (setMappedAt_of_lt (hb.trans_le (poolLba_le vb)))
  have hself : (s.take vb block i).tbl block = blockAt vb s.tbl i := Function.update_self ..
  -- no logical block lies on the free block
  have hfresh : ∀ b < vb.poolLba, s.tbl b ≠ blockAt vb s.tbl i := by
    intro b hb heq
    have hused := h.used b hb i hi.le heq
    rw [hfree] at hused
    exact absurd hused (by decide)
  apply h.replace
  · intro j
    exact (blockAt_update_of_lt hblock).trans blockAt_setMappedAt
  · intro b hb b' hb' heq
    by_cases hbb : b = block
    · by_cases hbb' : b' = block
      · rw [hbb, hbb']
      · rw [hbb, hself, hlow b' hb' hbb'] at heq
        exact absurd heq.symm (hfresh b' hb')
    · by_cases hbb' : b' = block
      · rw [hbb', hself, hlow b hb hbb] at heq
        exact absurd heq (hfresh b hb)
      · rw [hlow b hb hbb, hlow b' hb' hbb'] at heq
        exact h.injective b hb b' hb' heq
  · intro b hb j hj heq
    have hflag : mappedAt vb (s.take vb block i).tbl j =
        if j = i then normalMapped else mappedAt vb s.tbl j :=
      (mappedAt_update_of_lt hblock).trans mappedAt_setMappedAt
    rw [hflag]
    split_ifs with hji
    · rfl
    · by_cases hbb : b = block
      · rw [hbb, hself] at heq
        exact absurd (h.distinct i hi.le j hj heq).symm hji
      · rw [hlow b hb hbb] at heq
        exact h.used b hb j hj heq

theorem Shape.unmap {block n : ℕ} {tbl : ℕ → ℕ} (h : Shape vb tbl n) (hblock : block < vb.tableSize)
    (hown : block < vb.poolLba → ∀ b < vb.poolLba, b ≠ block → tbl b ≠ block) :
    Shape vb (Function.update tbl block block) n := by
  apply h.replace
  · exact fun i => blockAt_update_of_lt hblock
  · intro b hb b' hb' heq
    by_cases hbb : b = block
    · by_cases hbb' : b' = block
      · rw [hbb, hbb']
      · rw [hbb, Function.update_self, Function.update_of_ne hbb'] at heq
        exact absurd heq.symm (hown (hbb ▸ hb) b' hb' hbb')
    · by_cases hbb' : b' = block
      · rw [hbb', Function.update_self, Function.update_of_ne hbb] at heq
        exact absurd heq (hown (hbb' ▸ hb') b hb hbb)
      · rw [Function.update_of_ne hbb, Function.update_of_ne hbb'] at heq
        exact h.injective b hb b' hb' heq
  · intro b hb i hi heq
    rw [mappedAt_update_of_lt hblock]
    by_cases hbb : b = block
    · rw [hbb, Function.update_self] at heq
      have habove := h.above i hi
      omega
    · rw [Function.update_of_ne hbb] at heq
      exact h.used b hb i hi heq

theorem foldl_setMappedAt (l : List ℕ) (tbl : ℕ → ℕ) (x : ℕ) :
    l.foldl (fun tbl i => setMappedAt vb i noMapped tbl) tbl x =
      if ∃ i ∈ l, x = vb.tableSize + 2 * i + 1 then noMapped else tbl x := by
  induction l generalizing tbl with
  | nil => simp
  | cons i l ih =>
    rw [List.foldl_cons, ih]
    by_cases hl : ∃ j ∈ l, x = vb.tableSize + 2 * j + 1
    · obtain ⟨j, hj, hx⟩ := hl
      rw [if_pos ⟨j, hj, hx⟩, if_pos ⟨j, List.mem_cons_of_mem _ hj, hx⟩]
    · rw [if_neg hl]
      by_cases hi : x = vb.tableSize + 2 * i + 1
      · rw [if_pos ⟨i, List.mem_cons_self, hi⟩, hi]
        exact Function.update_self ..
      · rw [if_neg, setMappedAt, Function.update_of_ne hi]
        rintro ⟨j, hj, hx⟩
        rcases List.mem_cons.mp hj with rfl | hj
        · exact hi hx
        · exact hl ⟨j, hj, hx⟩

/-- The table with the flags of unused blocks cleared. -/
def freedTbl (vb : V2Board) (s : V2) : ℕ → ℕ :=
  (freed vb s).foldl (fun tbl i => setMappedAt vb i noMapped tbl) s.tbl

/-- No logical block that the mapping mask leaves out lies in the pool. -/
def MaskComplete (vb : V2Board) (s : V2) : Prop :=
  ∀ b < vb.poolLba, b = 0 ∨ vb.mainBlocks ≤ b → ∀ i ≤ s.bmtBlkIdx, s.tbl b ≠ blockAt vb s.tbl i

/-- The mask finds the blocks that the logical blocks it looks at lie on. -/
theorem Sound.mappingMask_eq_true (h : Sound vb s) {b i : ℕ} (hb : b ≠ 0) (hlt : b < vb.mainBlocks)
    (hi : i ≤ s.bmtBlkIdx) (heq : s.tbl b = blockAt vb s.tbl i) : mappingMask vb s i = true := by
  have hpool : b < vb.poolLba := by
    rw [V2Board.mainBlocks] at hlt
    rw [V2Board.poolLba]
    omega
  have hne : i ≠ s.bmtBlkIdx := by
    rintro rfl
    exact h.own (h.shape.used b hpool _ le_rfl heq)
  have habove := h.shape.above i hi
  have hfind : (List.range s.bmtBlkIdx).find? (fun k => s.tbl b = blockAt vb s.tbl k) = some i := by
    rw [List.find?_range_eq_some]
    refine ⟨by simpa using heq, List.mem_range.mpr (by omega), ?_⟩
    intro j hj
    have hne : s.tbl b ≠ blockAt vb s.tbl j := by
      intro heq'
      have hij := h.shape.distinct i hi j (by omega) (heq.symm.trans heq')
      omega
    simpa using hne
  rw [mappingMask, List.any_eq_true]
  refine ⟨b, List.mem_range.mpr hlt, ?_⟩
  simp only [decide_eq_true_eq]
  exact ⟨by omega, by omega, hfind⟩

theorem Sound.free (h : Sound vb s) (hmask : MaskComplete vb s) :
    Shape vb (freedTbl vb s) s.bmtBlkIdx := by
  have hlow : ∀ b < vb.poolLba, freedTbl vb s b = s.tbl b := by
    intro b hb
    rw [freedTbl, foldl_setMappedAt, if_neg]
    rintro ⟨i, -, hx⟩
    have hle := poolLba_le vb
    omega
  apply h.shape.replace
  · intro i
    rw [blockAt, freedTbl, foldl_setMappedAt, if_neg, blockAt]
    rintro ⟨j, -, hx⟩
    omega
  · intro b hb b' hb' heq
    rw [hlow b hb, hlow b' hb'] at heq
    exact h.shape.injective b hb b' hb' heq
  · intro b hb i hi heq
    rw [hlow b hb] at heq
    have hflag := h.shape.used b hb i hi heq
    rw [mappedAt, freedTbl, foldl_setMappedAt, if_neg]
    · exact hflag
    · -- the mask knows the block, so it is not freed
      rintro ⟨j, hj, hx⟩
      obtain rfl : j = i := by omega
      have hmain : b ≠ 0 ∧ b < vb.mainBlocks := by
        by_contra hnot
        exact hmask b hb (by omega) j hi heq
      have htrue := h.mappingMask_eq_true hmain.1 hmain.2 hi heq
      have hfreed := (List.mem_filter.mp hj).2
      simp [htrue] at hfreed

end Operations

section Create

variable {vb : V2Board} {flt : Faults}

theorem findValidBlock_cases (left block : ℕ) (c : Chip) :
    (findValidBlock vb flt left block c).2 = 0 ∨
      block ≤ (findValidBlock vb flt left block c).2 ∧
        (findValidBlock vb flt left block c).2 < vb.bd.g.totalBlks := by
  induction left generalizing block c with
  | zero =>
    rw [findValidBlock.eq_def]
    dsimp only
    split_ifs
    · exact .inl rfl
    · exact .inr ⟨le_rfl, by omega⟩
    · exact .inl rfl
  | succ left ih =>
    rw [findValidBlock.eq_def]
    dsimp only
    split_ifs
    · exact .inl rfl
    · exact .inr ⟨le_rfl, by omega⟩
    · rcases ih (block + 1) c.tick with h | ⟨hle, hlt⟩
      · exact .inl h
      · exact .inr ⟨by omega, hlt⟩

/-- The physical blocks of the first logical blocks rise. -/
def Rising (tbl : ℕ → ℕ) (k : ℕ) : Prop := ∀ b, b + 1 < k → tbl b < tbl (b + 1)

theorem Rising.lt {tbl : ℕ → ℕ} {k b b' : ℕ} (h : Rising tbl k) (hlt : b < b') (hk : b' < k) :
    tbl b < tbl b' := by
  induction b', hlt using Nat.le_induction with
  | base => exact h b hk
  | succ b' hle ih => exact (ih (by omega)).trans (h b' hk)

theorem Rising.le {tbl : ℕ → ℕ} {k b : ℕ} (h : Rising tbl k) (hk : b < k) : b ≤ tbl b := by
  induction b with
  | zero => exact Nat.zero_le _
  | succ b ih =>
    have hlt := h b hk
    have hle := ih (by omega)
    omega

theorem scanMain_rising {n i : ℕ} {s : V2} (hi : 1 ≤ i) (h : Rising s.tbl i)
    (hr : (scanMain vb flt n i s).2 = true) :
    Rising (scanMain vb flt n i s).1.tbl (i + n) ∧
      ∀ x, i + n ≤ x → (scanMain vb flt n i s).1.tbl x = s.tbl x := by
  induction n generalizing i s with
  | zero => exact ⟨h, fun x _ => rfl⟩
  | succ n ih =>
    have hcases := @findValidBlock_cases vb flt vb.bbMax (s.tbl (i - 1) + 1) s.chip
    rw [scanMain] at hr ⊢
    split_ifs at hr with hzero
    rw [if_neg hzero]
    obtain ⟨hge, -⟩ := hcases.resolve_left hzero
    have hstep : Rising (Function.update s.tbl i
        (findValidBlock vb flt vb.bbMax (s.tbl (i - 1) + 1) s.chip).2) (i + 1) := by
      intro b hb
      rw [Function.update_of_ne (show b ≠ i by omega)]
      by_cases hbi : b + 1 = i
      · rw [hbi, Function.update_self, show b = i - 1 by omega]
        omega
      · rw [Function.update_of_ne hbi]
        exact h b (by omega)
    obtain ⟨hrise, hsame⟩ := ih (by omega) hstep hr
    rw [show i + (n + 1) = i + 1 + n by omega]
    refine ⟨hrise, fun x hx => ?_⟩
    rw [hsame x hx]
    exact Function.update_of_ne (by omega) ..

/-- The entries found in the pool so far, all of them below the next block to look at. -/
structure Filled (vb : V2Board) (tbl : ℕ → ℕ) (low next k : ℕ) : Prop where
  low_le : ∀ i < k, low ≤ blockAt vb tbl i
  lt : ∀ i < k, blockAt vb tbl i < next ∧ blockAt vb tbl i < vb.bd.g.totalBlks
  rising : Rising (blockAt vb tbl) k
  eq_zero : ∀ i, k ≤ i → i < vb.tableSize → blockAt vb tbl i = 0

theorem scanPool_filled {n block k low : ℕ} {s : V2} (hlow : low ≤ block)
    (h : Filled vb s.tbl low block k) :
    ∃ next, Filled vb (scanPool vb flt n block k s).1.tbl low next (scanPool vb flt n block k s).2 ∧
      ∀ b < vb.tableSize, (scanPool vb flt n block k s).1.tbl b = s.tbl b := by
  induction n generalizing block k s with
  | zero => exact ⟨block, h, fun b _ => rfl⟩
  | succ n ih =>
    have hcases := @findValidBlock_cases vb flt vb.bbMax block s.chip
    rw [scanPool]
    split_ifs with hzero
    · exact ⟨block, h, fun b _ => rfl⟩
    obtain ⟨hge, hlt⟩ := hcases.resolve_left hzero
    generalize (findValidBlock vb flt vb.bbMax block s.chip).2 = new at hge hlt ⊢
    have hblock : ∀ i, blockAt vb (setMappedAt vb k noMapped (setBlockAt vb k new s.tbl)) i =
        if i = k then new else blockAt vb s.tbl i := by
      intro i
      rw [blockAt_setMappedAt, blockAt_setBlockAt]
    have hnext : Filled vb (setMappedAt vb k noMapped (setBlockAt vb k new s.tbl)) low (new + 1)
        (k + 1) := by
      constructor
      · intro i hi
        rw [hblock]
        split_ifs with hik
        · omega
        · exact h.low_le i (by omega)
      · intro i hi
        rw [hblock]
        split_ifs with hik
        · omega
        · have := h.lt i (by omega)
          omega
      · intro i hi
        rw [hblock, hblock, if_neg (by omega)]
        split_ifs with hik
        · have := h.lt i (by omega)
          omega
        · exact h.rising i (by omega)
      · intro i hi hlt
        rw [hblock, if_neg (by omega)]
        exact h.eq_zero i (by omega) hlt
    obtain ⟨next, hfilled, hsame⟩ := @ih (new + 1) (k + 1) { s with
      tbl := setMappedAt vb k noMapped (setBlockAt vb k new s.tbl)
      chip := (findValidBlock vb flt vb.bbMax block s.chip).1 } (by omega) hnext
    refine ⟨next, hfilled, fun b hb => ?_⟩
    rw [hsame b hb]
    exact (setMappedAt_of_lt hb).trans (setBlockAt_of_lt hb)

/-- Rising data blocks with the pool behind them are a table of which nothing is taken yet. -/
theorem Shape.of_filled {tbl : ℕ → ℕ} {k next : ℕ} (hrise : Rising tbl vb.poolLba)
    (h : Filled vb tbl (tbl (vb.poolLba - 1) + 1) next k) (hk : 1 ≤ k) : Shape vb tbl (k - 1) := by
  have hpool := vb.pool_lt
  have hlba : vb.poolLba = vb.bd.g.totalBlks - vb.poolSize := rfl
  have hlast := hrise.le (show vb.poolLba - 1 < vb.poolLba by omega)
  have hdata : ∀ b < vb.poolLba, tbl b ≤ tbl (vb.poolLba - 1) := by
    intro b hb
    rcases Nat.lt_or_eq_of_le (show b ≤ vb.poolLba - 1 by omega) with hlt | heq
    · exact (hrise.lt hlt (by omega)).le
    · rw [heq]
  -- the blocks of the pool rise, so there are no more of them than blocks behind the data
  have hcount : ∀ i < k, tbl (vb.poolLba - 1) + 1 + i ≤ blockAt vb tbl i := by
    intro i hi
    induction i with
    | zero => exact h.low_le 0 hi
    | succ i ih =>
      have hlt := h.rising i hi
      have hle := ih (by omega)
      omega
  constructor
  · intro b hb b' hb' heq
    rcases lt_trichotomy b b' with hlt | rfl | hlt
    · exact absurd heq (hrise.lt hlt hb').ne
    · rfl
    · exact absurd heq (hrise.lt hlt hb).ne'
  · have hle := hcount (k - 1) (by omega)
    have hlt := (h.lt (k - 1) (by omega)).2
    omega
  · intro i hi
    have hle := h.low_le i (by omega)
    omega
  · exact fun i hi hlt => h.eq_zero i (by omega) hlt
  · intro i hi j hj heq
    rcases lt_trichotomy i j with hlt | rfl | hlt
    · exact absurd heq (h.rising.lt hlt (by omega)).ne
    · rfl
    · exact absurd heq (h.rising.lt hlt (by omega)).ne'
  · intro i hi
    have hle := h.low_le i (by omega)
    omega
  · intro b hb i hi heq
    have hle := h.low_le i (by omega)
    have hle' := hdata b hb
    omega

theorem scanBadBlocks_shape {s s' : V2} (hclear : ∀ i < vb.tableSize, blockAt vb s.tbl i = 0)
    (h : scanBadBlocks vb flt s = some s') : Shape vb s'.tbl s'.bmtBlkIdx := by
  have hpool := vb.pool_lt
  have hlba : vb.poolLba = vb.bd.g.totalBlks - vb.poolSize := rfl
  have htable := poolLba_le vb
  rw [scanBadBlocks] at h
  dsimp only at h
  split_ifs at h with hmain hpba hone
  obtain rfl := Option.some.inj h
  have hstart : Rising (Function.update s.tbl 0 0) 1 := fun b hb => by omega
  obtain ⟨hrise, hsame⟩ := @scanMain_rising vb flt (vb.poolLba - 1) 1
    { s with tbl := Function.update s.tbl 0 0 } le_rfl hstart (by simpa using hmain)
  rw [show 1 + (vb.poolLba - 1) = vb.poolLba by omega] at hrise hsame
  clear h hmain
  generalize (scanMain vb flt (vb.poolLba - 1) 1 { s with tbl := Function.update s.tbl 0 0 }).1 = t
    at hrise hsame hpba hone ⊢
  have hempty : Filled vb t.tbl (t.tbl (vb.poolLba - 1) + 1) (t.tbl (vb.poolLba - 1) + 1) 0 := by
    refine ⟨fun i hi => by omega, fun i hi => by omega, fun i hi => by omega, fun i _ hi => ?_⟩
    rw [blockAt, hsame _ (by omega)]
    exact (Function.update_of_ne (by omega) ..).trans (hclear i hi)
  obtain ⟨next, hfilled, hlow⟩ := @scanPool_filled vb flt vb.bd.g.totalBlks _ 0 _ t le_rfl hempty
  generalize scanPool vb flt vb.bd.g.totalBlks (t.tbl (vb.poolLba - 1) + 1) 0 t = p
    at hfilled hlow hone ⊢
  have hblock : blockAt vb (setMappedAt vb (p.2 - 1) bmtMapped p.1.tbl) = blockAt vb p.1.tbl :=
    funext fun i => blockAt_setMappedAt
  have hdata : ∀ b < vb.poolLba, setMappedAt vb (p.2 - 1) bmtMapped p.1.tbl b = t.tbl b := by
    intro b hb
    rw [setMappedAt_of_lt (hb.trans_le htable), hlow b (hb.trans_le htable)]
  show Shape vb (setMappedAt vb (p.2 - 1) bmtMapped p.1.tbl) (p.2 - 1)
  apply Shape.of_filled
  · intro b hb
    rw [hdata b (by omega), hdata (b + 1) hb]
    exact hrise b hb
  · rw [hdata _ (by omega)]
    exact ⟨by rw [hblock]; exact hfilled.low_le, by rw [hblock]; exact hfilled.lt,
      by rw [hblock]; exact hfilled.rising, by rw [hblock]; exact hfilled.eq_zero⟩
  · omega

theorem createBmt_sound {s s' : V2} (h : createBmt vb flt s = some s') : Sound vb s' := by
  rw [createBmt] at h
  split_ifs at h
  obtain ⟨t, hscan, hup⟩ := Option.bind_eq_some_iff.mp h
  have hclear : ∀ i < vb.tableSize, blockAt vb (clearPool vb s.tbl) i = 0 := by
    intro i hi
    exact if_pos (by omega)
  have hshape := scanBadBlocks_shape hclear hscan
  dsimp only at hup
  split_ifs at hup with hidx
  obtain rfl := Option.some.inj hup
  rcases @uploadBmt_cases vb flt _ _ hshape with ⟨hnone, -⟩ | ⟨hshape, hown⟩
  · exact absurd hnone hidx
  · exact ⟨hshape, hown⟩

end Create

/-- What changes the state: remaps, from failed accesses or debugfs, the other debugfs commands, and
accesses that leave the table alone. -/
inductive Op where
  | remap (block mapped copyLen : ℕ)
  | unmap (block : ℕ)
  | repair (block : ℕ)
  | free
  | access (chip : Chip)

section Runs

variable (vb : V2Board) (flt : Faults)

/-- The state after an operation. -/
def exec (s : V2) : Op → V2
  | .remap block mapped copyLen => (s.remapBlock vb flt block mapped copyLen).1
  | .unmap block => s.unmapBlock vb flt block
  | .repair block => s.debugRepair vb flt block
  | .free => s.debugFree vb flt
  | .access chip => { s with chip := chip }

/-- The state before `remap_block_v2` writes the table. -/
def beforeUpload (block i mapped copyLen : ℕ) (s : V2) : V2 :=
  (s.take vb block i).fill vb flt (blockAt vb s.tbl i) mapped copyLen

/-- A block may be unmapped: the table has an entry for it, no other logical block lies on it, and
the pool takes the table. -/
def UnmapOk (s : V2) (block : ℕ) : Prop :=
  block < vb.tableSize ∧
    (block < vb.poolLba → ∀ b < vb.poolLba, b ≠ block → s.tbl b ≠ block) ∧
    Accepts vb flt s.tbl (s.bmtBlkIdx + 1) s.chip.clock

/-- The steps that the table survives. -/
def OpOk (s : V2) : Op → Prop
  | .remap block mapped copyLen => ∀ i, findValidBlockInPool vb s = some i →
      block < vb.tableSize ∧ Accepts vb flt (s.take vb block i).tbl (s.bmtBlkIdx + 1)
        (beforeUpload vb flt block i mapped copyLen s).chip.clock
  | .unmap block | .repair block => UnmapOk vb flt s block
  | .free => freed vb s ≠ [] →
      MaskComplete vb s ∧ Accepts vb flt (freedTbl vb s) (s.bmtBlkIdx + 1) s.chip.clock
  | .access _ => True

/-- A table found on the chip is sound. -/
def InitOk (chip : Chip) : Prop :=
  (findBmt vb flt vb.poolSize ⟨fun _ => 0xffff, 0, chip⟩).2 = true →
    Sound vb (findBmt vb flt vb.poolSize ⟨fun _ => 0xffff, 0, chip⟩).1

variable {vb flt}

theorem initV2_sound {chip : Chip} {s : V2} (hok : InitOk vb flt chip)
    (h : initV2 vb flt chip = some s) : Sound vb s := by
  rw [initV2] at h
  split_ifs at h with hfound
  · obtain rfl := Option.some.inj h
    exact hok hfound
  · exact createBmt_sound h

theorem unmapBlock_sound {s : V2} {block : ℕ} (h : Sound vb s) (hok : UnmapOk vb flt s block) :
    Sound vb (s.unmapBlock vb flt block) := by
  obtain ⟨hblock, hown, hacc⟩ := hok
  apply V2.upload_sound
  · exact h.shape.unmap hblock hown
  · exact (accepts_congr (fun i _ => mappedAt_update_of_lt hblock) _).mpr hacc

theorem exec_sound {s : V2} {op : Op} (h : Sound vb s) (hok : OpOk vb flt s op) :
    Sound vb (exec vb flt s op) := by
  cases op with
  | remap block mapped copyLen =>
    rw [exec, V2.remapBlock]
    cases hfind : findValidBlockInPool vb s with
    | none => exact h
    | some i =>
      obtain ⟨hblock, hacc⟩ := hok i hfind
      obtain ⟨hi, hfree⟩ := findValidBlockInPool_some hfind
      exact V2.upload_sound (h.shape.take hblock hi hfree) hacc
  | unmap block => exact unmapBlock_sound h hok
  | repair block =>
    have hunmap := unmapBlock_sound h hok
    rw [exec, V2.debugRepair]
    split_ifs
    · exact hunmap
    · exact ⟨hunmap.shape, hunmap.own⟩
  | free =>
    rw [exec, V2.debugFree]
    split_ifs with hnone
    · exact h
    · obtain ⟨hmask, hacc⟩ := hok hnone
      exact V2.upload_sound (h.free hmask) hacc
  | access chip => exact ⟨h.shape, h.own⟩

/-- The table is sound in every state of a run whose steps all meet `OpOk`. -/
theorem reaches_tableOk {chip : Chip} {s : V2} (hinit : InitOk vb flt chip)
    (h : Reaches (fun s => initV2 vb flt chip = some s) (fun s op s' => s' = exec vb flt s op)
      (OpOk vb flt) s) : TableOk vb s := by
  apply Sound.tableOk
  refine h.invariant (fun s hs => initV2_sound hinit hs) ?_
  rintro s op s' hs hok rfl
  exact exec_sound hs hok

end Runs

/-- A chip of sixteen blocks, six of them for the pool. -/
def smallV2 : V2Board where
  bd :=
    { g := ⟨256, 64, 16, 0, 0, 0, smallBlock_pos, smallPage_pos, by decide⟩
      blkShift := 8
      remapRange := []
      blkSize_eq := rfl
      range_le := by simp }
  poolSize := 6
  tableSize := 16
  oobOffset := 0
  pool_lt := by decide
  table_le := by decide
  pool_le := by decide

/-- A chip without contents. -/
def blankV2 : Chip := ⟨fun _ _ => List.replicate 64 0xff, 0⟩

/-- Erasures fail from some operation on, and nothing else does. -/
def erasuresFailFrom (n : ℕ) : Faults where
  read := fun _ => 0
  write := fun _ => 0
  torn := fun _ => []
  erase := fun clock => if clock < n then 0 else -5
  residue := fun _ _ => []
  isBad := fun _ _ => false

/-- A block is remapped and the table written. -/
theorem tableOk_one_remap : ∃ s t, initV2 smallV2 (erasuresFailFrom 100) blankV2 = some s ∧
    t = exec smallV2 (erasuresFailFrom 100) s (.remap 3 3 256) ∧ t.tbl 3 = 10 ∧ TableOk smallV2 t := by
  have hinit : InitOk smallV2 (erasuresFailFrom 100) blankV2 := by
    intro hfound
    exact absurd hfound (by decide +kernel)
  have hrun : ((initV2 smallV2 (erasuresFailFrom 100) blankV2).map fun s =>
      (findValidBlockInPool smallV2 s, mappedAt smallV2 (s.take smallV2 3 0).tbl s.bmtBlkIdx,
        (beforeUpload smallV2 (erasuresFailFrom 100) 3 0 3 256 s).chip.clock,
        (exec smallV2 (erasuresFailFrom 100) s (.remap 3 3 256)).tbl 3)) =
      some (some 0, bmtMapped, 32, 10) := by
    decide +kernel
  obtain ⟨s, hs, hfields⟩ := Option.map_eq_some_iff.mp hrun
  simp only [Prod.mk.injEq] at hfields
  obtain ⟨hfind, hflag, hclock, hnew⟩ := hfields
  have hok : OpOk smallV2 (erasuresFailFrom 100) s (.remap 3 3 256) := by
    intro i hi
    obtain rfl : i = 0 := Option.some.inj (hi.symm.trans hfind)
    refine ⟨by decide, by rw [hflag]; decide, ?_⟩
    rw [hclock, if_neg (by decide), if_neg (by decide)]
    trivial
  exact ⟨s, _, hs, rfl, hnew, reaches_tableOk hinit (.next _ (.start hs) hok rfl)⟩

/-- The pool can no longer be erased: the index of the table is lost. -/
theorem exists_table_not_ok : ¬ ∀ (vb : V2Board) (flt : Faults) (chip : Chip) (s : V2),
    Reaches (fun s => initV2 vb flt chip = some s) (fun s op s' => s' = exec vb flt s op)
      (fun _ _ => True) s → TableOk vb s := by
  intro h
  have hrun : ((initV2 smallV2 (erasuresFailFrom 23) blankV2).map fun s =>
      (exec smallV2 (erasuresFailFrom 23) s (.remap 3 3 0)).bmtBlkIdx) = some noIndex := by
    decide +kernel
  obtain ⟨s, hs, hidx⟩ := Option.map_eq_some_iff.mp hrun
  have hok := h smallV2 (erasuresFailFrom 23) blankV2 _
    (.next (.remap 3 3 0) (.start hs) trivial rfl)
  have hlt := hok.index.1
  rw [hidx] at hlt
  exact absurd hlt (by decide)

end NeonWrt.Bmt
