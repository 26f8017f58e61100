import NeonWrt.Bmt.Pool

/-!
# The table of BMT v2 after a restart

What `upload_bmt` writes is found again by `mtk_bmt_init_v2` only if it went to
the block that the flags name, and if no block further up still holds another
table: the uploader falls back to lower blocks without moving the flag, and the
loader takes the first table from the top of the chip.
-/

namespace NeonWrt.Bmt

open Lib Nmbm

variable {vb : V2Board} {flt : Faults}

theorem bufTbl_bbtBuf {tbl : ℕ → ℕ} {i : ℕ} (h : tbl i < 65536) : bufTbl (bbtBuf tbl) i = tbl i := by
  have hlow : bbtBuf tbl (4 + 2 * i) = UInt8.ofNat (tbl i) := by
    rw [bbtBuf, if_neg (by omega), if_pos (by omega), show (4 + 2 * i - 4) / 2 = i by omega]
  have hhigh : bbtBuf tbl (5 + 2 * i) = UInt8.ofNat (tbl i / 256) := by
    rw [bbtBuf, if_neg (by omega), if_neg (by omega), show (5 + 2 * i - 4) / 2 = i by omega]
  rw [bufTbl, hlow, hhigh, UInt8.toNat_ofNat', UInt8.toNat_ofNat']
  omega

/-- The entries of all logical blocks and of the pool are in the buffer that is written. -/
theorem lt_buffer {i : ℕ} (h : i < 2 * vb.tableSize) : 5 + 2 * i < vb.bmtPgs * vb.bd.g.pgSize := by
  have hpos := vb.bd.g.pgSize_pos
  have hround := Nat.lt_div_mul_add hpos (a := 4 + vb.tableSize * 4 + vb.bd.g.pgSize - 1)
  rw [V2Board.bmtPgs]
  omega

/-- The block is read without an error, `n` blocks before the scan ends, and holds a table. -/
def Seen (vb : V2Board) (flt : Faults) (n : ℕ) (c : Chip) (m : ℕ) : Prop :=
  0 ≤ flt.read (c.clock + (n - 1 - m)) ∧ isValidBmt vb c (vb.poolLba + m) = true

theorem bufAt_congr {g : Geometry} {c c' : Chip} {block : ℕ} (h : c'.pages block = c.pages block) :
    bufAt g c' block = bufAt g c block := by
  funext j
  rw [bufAt, bufAt, h]

theorem isValidBmt_congr {c c' : Chip} {block : ℕ} (h : c'.pages block = c.pages block) :
    isValidBmt vb c' block = isValidBmt vb c block := by
  have hoob : oobAt vb.bd.g c' block = oobAt vb.bd.g c block := by
    funext i
    rw [oobAt, oobAt, h]
  rw [isValidBmt, isValidBmt, bufAt_congr h, hoob]

theorem readTbl_congr {c c' : Chip} {block : ℕ} (h : c'.pages block = c.pages block) :
    readTbl vb c' block = readTbl vb c block := by
  funext tbl i
  rw [readTbl, readTbl, bufAt_congr h]

/-- Of the tables read before, nothing is left. -/
theorem readTbl_readTbl (c : Chip) (block block' : ℕ) (tbl : ℕ → ℕ) :
    readTbl vb c block (readTbl vb c block' tbl) = readTbl vb c block tbl := by
  funext i
  unfold readTbl
  split_ifs <;> rfl

theorem seen_tick {n m : ℕ} {c : Chip} (hm : m < n) :
    Seen vb flt n c.tick m ↔ Seen vb flt (n + 1) c m := by
  have hclock : c.tick.clock + (n - 1 - m) = c.clock + (n + 1 - 1 - m) := by
    show c.clock + 1 + (n - 1 - m) = _
    omega
  rw [Seen, Seen, hclock, @isValidBmt_congr vb c c.tick _ rfl]

/-- A block that is not taken for a table leaves at most its words in the buffer. -/
theorem findBmt_succ {n : ℕ} {s : V2} (h : ¬ Seen vb flt (n + 1) s.chip n) :
    ∃ tbl, (tbl = s.tbl ∨ tbl = readTbl vb s.chip (vb.poolLba + n) s.tbl) ∧
      findBmt vb flt (n + 1) s = findBmt vb flt n { s with tbl := tbl, chip := s.chip.tick } := by
  rw [findBmt]
  by_cases hread : flt.read s.chip.clock < 0
  · exact ⟨s.tbl, .inl rfl, if_pos hread⟩
  · have hvalid : isValidBmt vb s.chip (vb.poolLba + n) = false := by
      by_contra hne
      exact h ⟨by simpa using hread, by simpa using hne⟩
    refine ⟨_, .inr rfl, ?_⟩
    rw [if_neg hread]
    simp only [hvalid, Bool.not_false, if_true]

theorem findBmt_of_none {n : ℕ} {s : V2} (h : ∀ m < n, ¬ Seen vb flt n s.chip m) :
    (findBmt vb flt n s).2 = false := by
  induction n generalizing s with
  | zero => rfl
  | succ n ih =>
    obtain ⟨tbl, -, heq⟩ := findBmt_succ (h n (Nat.lt_succ_self n))
    rw [heq]
    apply ih
    intro m hm hseen
    exact h m (by omega) ((seen_tick hm).mp hseen)

/-- The first block from the top that is taken for a table ends the scan. -/
theorem findBmt_of_first {n m : ℕ} {s : V2} (hm : m < n) (hseen : Seen vb flt n s.chip m)
    (hfirst : ∀ m', m < m' → m' < n → ¬ Seen vb flt n s.chip m') :
    (findBmt vb flt n s).1.tbl = readTbl vb s.chip (vb.poolLba + m) s.tbl ∧
      (findBmt vb flt n s).1.bmtBlkIdx =
        getBmtIndex vb (readTbl vb s.chip (vb.poolLba + m) s.tbl) vb.tableSize 0 ∧
      ((findBmt vb flt n s).2 = true ↔
        getBmtIndex vb (readTbl vb s.chip (vb.poolLba + m) s.tbl) vb.tableSize 0 ≠ 0) := by
  induction n generalizing s with
  | zero => exact absurd hm (Nat.not_lt_zero m)
  | succ n ih =>
    by_cases hmn : m = n
    · subst hmn
      obtain ⟨hread, hvalid⟩ := hseen
      rw [show m + 1 - 1 - m = 0 by omega, Nat.add_zero] at hread
      rw [findBmt, if_neg (not_lt.mpr hread)]
      simp only [hvalid, Bool.not_true, Bool.false_eq_true, if_false]
      split_ifs with hidx
      · simp [hidx]
      · simp [hidx]
    · have hlt : m < n := by omega
      obtain ⟨tbl, htbl, heq⟩ := findBmt_succ (hfirst n hlt (Nat.lt_succ_self n))
      have hrec := @ih { s with tbl := tbl, chip := s.chip.tick } hlt ((seen_tick hlt).mpr hseen)
        fun m' hlt' hm' hseen' => hfirst m' hlt' (by omega) ((seen_tick hm').mp hseen')
      -- what was read before is overwritten
      have hread : readTbl vb s.chip.tick (vb.poolLba + m) tbl =
          readTbl vb s.chip (vb.poolLba + m) s.tbl := by
        rw [readTbl_congr (c := s.chip) rfl]
        rcases htbl with rfl | rfl
        · rfl
        · exact readTbl_readTbl ..
      rw [heq]
      simpa only [hread] using hrec

/-- The chip after a table went to a block. -/
def written (vb : V2Board) (flt : Faults) (block : ℕ) (tbl : ℕ → ℕ) (c : Chip) : Chip :=
  (writeBmt vb.bd.g flt (ascii "bmt") vb.oobOffset vb.bmtPgs block (bbtBuf tbl)
    (c.erase vb.bd.g flt block).1).1

/-- The first block that is tried takes the table. -/
theorem uploadBmt_of_first {n : ℕ} {s : V2} (hflag : mappedAt vb s.tbl n ≠ normalMapped)
    (herase : flt.erase s.chip.clock = 0) (hwrite : flt.write (s.chip.clock + 1) = 0) :
    uploadBmt vb flt (n + 1) s =
      ({ s with chip := written vb flt (blockAt vb s.tbl n) s.tbl s.chip }, n) := by
  rw [uploadBmt, if_neg hflag]
  dsimp only
  rw [if_neg, if_neg]
  · rfl
  · exact not_not.mpr hwrite
  · exact not_not.mpr herase

/-- Whatever happens, an upload keeps the flags, and ends at or below where it began. -/
theorem uploadBmt_frame {n : ℕ} {s : V2} :
    (∀ i, mappedAt vb (uploadBmt vb flt n s).1.tbl i = mappedAt vb s.tbl i) ∧
      ((uploadBmt vb flt n s).2 = noIndex ∨ (uploadBmt vb flt n s).2 < n) := by
  induction n generalizing s with
  | zero => exact ⟨fun i => rfl, .inl rfl⟩
  | succ n ih =>
    rcases @uploadBmt_succ vb flt n s with ⟨-, heq⟩ | ⟨-, chip, ⟨heq, -⟩ | ⟨heq, -⟩⟩
    · rw [heq]
      exact ⟨fun i => rfl, .inl rfl⟩
    · rw [heq]
      exact ⟨fun i => rfl, .inr (Nat.lt_succ_self n)⟩
    · rw [heq]
      obtain ⟨hflags, hidx⟩ := @ih { s with tbl := setBlockAt vb n 0 s.tbl, chip := chip }
      refine ⟨fun i => ?_, hidx.imp_right fun hlt => by omega⟩
      rw [hflags, mappedAt_setBlockAt]

section Written

variable {c : Chip} {block : ℕ} {tbl tbl' : ℕ → ℕ}

theorem written_pages_ne {ba : ℕ} (h : ba ≠ block) :
    (written vb flt block tbl c).pages ba = c.pages ba := by
  rw [written, writeBmt_pages_ne h, erase_pages_ne h]

theorem isValidBmt_written (hwrite : flt.write (c.clock + 1) = 0) :
    isValidBmt vb (written vb flt block tbl c) block = true := by
  have hpool := vb.pool_lt
  have htable := vb.table_le
  have hbuf := @lt_buffer vb 0 (by omega)
  have hpgs : 0 < vb.bmtPgs := by
    by_contra hzero
    rw [Nat.eq_zero_of_not_pos hzero, Nat.zero_mul] at hbuf
    omega
  rw [isValidBmt, Bool.and_eq_true, List.all_eq_true, List.all_eq_true]
  constructor
  · intro j hj
    have hj : j < 4 := List.mem_range.mp hj
    rw [written, bufAt_writeBmt (by omega) hwrite, bbtBuf, if_pos hj, decide_eq_true_eq]
  · intro j hj
    rw [written, oobAt_writeBmt hpgs hwrite, decide_eq_true_eq,
      List.getD_append_right _ _ _ _ (by simp; omega)]
    have hidx : vb.oobOffset + 1 + j - (List.replicate (1 + vb.oobOffset) (0xff : UInt8)).length = j := by
      rw [List.length_replicate]
      omega
    rw [hidx]
    have hlen : j < (ascii "bmt").length := List.mem_range.mp hj
    rw [List.getD_eq_getElem _ _ hlen, List.getD_eq_getElem _ _ hlen]

theorem readTbl_written (hword : ∀ i, tbl i < 65536) (hwrite : flt.write (c.clock + 1) = 0) {i : ℕ}
    (hi : i < 2 * vb.tableSize) :
    readTbl vb (written vb flt block tbl c) block tbl' i = tbl i := by
  have hlt := lt_buffer hi
  rw [readTbl, if_pos hlt, ← bufTbl_bbtBuf (hword i), bufTbl, bufTbl, written,
    bufAt_writeBmt (by omega) hwrite, bufAt_writeBmt hlt hwrite]

end Written

section Memory

variable (vb : V2Board)

/-- The words have sixteen bits, the entries of the pool up to that of the table are blocks of the
chip behind the data, and no entry before it is flagged as the table's. -/
structure InMemory (s : V2) : Prop where
  word : ∀ i, s.tbl i < 65536
  lt : s.bmtBlkIdx < vb.poolSize
  block : ∀ i ≤ s.bmtBlkIdx, vb.poolLba ≤ blockAt vb s.tbl i ∧ blockAt vb s.tbl i < vb.bd.g.totalBlks
  unflagged : ∀ i < s.bmtBlkIdx, mappedAt vb s.tbl i ≠ bmtMapped

/-- After a restart on the chip, with its own read errors, the table of `s` is found and has index
`n`, and entry `n` is flagged as the table's. -/
structure Recovered (flt : Faults) (s : V2) (n : ℕ) : Prop where
  found : (findBmt vb flt vb.poolSize ⟨fun _ => 0xffff, 0, s.chip⟩).2 = true
  restored : ∃ t, initV2 vb flt s.chip = some t ∧ (∀ b < vb.tableSize, t.tbl b = s.tbl b) ∧
    t.bmtBlkIdx = n
  marked : mappedAt vb s.tbl n = bmtMapped

/-- After the table went to its block, the next restart takes this block of the pool for a table,
where `clock` is the time of the restart. -/
def Candidate (flt : Faults) (clock : ℕ) (s : V2) (m : ℕ) : Prop :=
  0 ≤ flt.read (clock + (vb.poolSize - 1 - m)) ∧
    (vb.poolLba + m = blockAt vb s.tbl s.bmtBlkIdx ∨ isValidBmt vb s.chip (vb.poolLba + m) = true)

/-- What the loader reads from a block. -/
def loaded (c : Chip) (m : ℕ) : ℕ → ℕ := readTbl vb c (vb.poolLba + m) fun _ => 0xffff

/-- The topmost block that is taken for a table is the block of the table, or an older one that
says the same. -/
def FoundFirst (flt : Faults) (clock : ℕ) (s : V2) : Prop :=
  ∃ m < vb.poolSize, Candidate vb flt clock s m ∧
    (∀ m', m < m' → m' < vb.poolSize → ¬ Candidate vb flt clock s m') ∧
    (vb.poolLba + m = blockAt vb s.tbl s.bmtBlkIdx ∨
      (∀ b < vb.tableSize, loaded vb s.chip m b = s.tbl b) ∧
        getBmtIndex vb (loaded vb s.chip m) vb.tableSize 0 = s.bmtBlkIdx)

end Memory

theorem getBmtIndex_of_flagged {tbl : ℕ → ℕ} {n a idx : ℕ} (ha : a ≤ idx) (hn : idx < a + n)
    (hblock : ∀ i ≤ idx, blockAt vb tbl i ≠ 0) (hflag : ∀ i < idx, mappedAt vb tbl i ≠ bmtMapped)
    (hidx : mappedAt vb tbl idx = bmtMapped) : getBmtIndex vb tbl n a = idx := by
  induction n generalizing a with
  | zero => omega
  | succ n ih =>
    rw [getBmtIndex, if_neg (hblock a ha)]
    by_cases heq : a = idx
    · rw [heq, if_pos hidx]
    · rw [if_neg (hflag a (by omega))]
      exact ih (by omega) (by omega)

section Restart

variable {flt' : Faults} {s : V2}

theorem InMemory.ne_zero (h : InMemory vb s) {i : ℕ} (hi : i ≤ s.bmtBlkIdx) :
    blockAt vb s.tbl i ≠ 0 := by
  have hpool := vb.pool_lt
  have habove := (h.block i hi).1
  rw [V2Board.poolLba] at habove
  omega

/-- A restart finds in the block of the table what was written there. -/
theorem InMemory.loaded_written (h : InMemory vb s) (hwrite : flt.write (s.chip.clock + 1) = 0)
    (hflag : mappedAt vb s.tbl s.bmtBlkIdx = bmtMapped) {m : ℕ}
    (hm : vb.poolLba + m = blockAt vb s.tbl s.bmtBlkIdx) :
    (∀ b < vb.tableSize,
      loaded vb (written vb flt (blockAt vb s.tbl s.bmtBlkIdx) s.tbl s.chip) m b = s.tbl b) ∧
    getBmtIndex vb (loaded vb (written vb flt (blockAt vb s.tbl s.bmtBlkIdx) s.tbl s.chip) m)
      vb.tableSize 0 = s.bmtBlkIdx := by
  have hword : ∀ i < 2 * vb.tableSize,
      loaded vb (written vb flt (blockAt vb s.tbl s.bmtBlkIdx) s.tbl s.chip) m i = s.tbl i := by
    intro i hi
    rw [loaded, hm]
    exact readTbl_written h.word hwrite hi
  have hlt := h.lt
  have hpool := vb.pool_le
  refine ⟨fun b hb => hword b (by omega), ?_⟩
  apply getBmtIndex_of_flagged (Nat.zero_le _)
  · omega
  · intro i hi
    rw [blockAt, hword _ (by omega)]
    exact h.ne_zero hi
  · intro i hi
    rw [mappedAt, hword _ (by omega)]
    exact h.unflagged i hi
  · rw [mappedAt, hword _ (by omega)]
    exact hflag

theorem loaded_written_ne {m block : ℕ} {tbl : ℕ → ℕ} {c : Chip} (hm : vb.poolLba + m ≠ block) :
    loaded vb (written vb flt block tbl c) m = loaded vb c m := by
  rw [loaded, loaded, readTbl_congr (written_pages_ne hm)]

/-- What a restart takes for a table can be seen before the table is written. -/
theorem seen_written_iff (hwrite : flt.write (s.chip.clock + 1) = 0) {m : ℕ} :
    Seen vb flt' vb.poolSize (written vb flt (blockAt vb s.tbl s.bmtBlkIdx) s.tbl s.chip) m ↔
      Candidate vb flt' (s.chip.clock + 2) s m := by
  rw [Seen, Candidate]
  apply and_congr Iff.rfl
  by_cases hm : vb.poolLba + m = blockAt vb s.tbl s.bmtBlkIdx
  · simp only [hm, true_or, iff_true]
    exact isValidBmt_written hwrite
  · rw [isValidBmt_congr (written_pages_ne hm)]
    exact (or_iff_right hm).symm

/-- A scan that finds a table ends at the topmost block that is taken for one. -/
theorem exists_first_of_found {n : ℕ} {t : V2} (h : (findBmt vb flt n t).2 = true) :
    ∃ m < n, Seen vb flt n t.chip m ∧ ∀ m', m < m' → m' < n → ¬ Seen vb flt n t.chip m' := by
  classical
  by_contra hnone
  have hsome : ∃ m < n, Seen vb flt n t.chip m := by
    by_contra hno
    push Not at hno
    exact absurd (findBmt_of_none hno) (by rw [h]; decide)
  obtain ⟨m, hm, hseen⟩ := hsome
  have hgreatest := Nat.findGreatest_spec (P := fun m => m < n ∧ Seen vb flt n t.chip m) hm.le
    ⟨hm, hseen⟩
  refine hnone ⟨_, hgreatest.1, hgreatest.2, fun m' hlt hm' hseen' => ?_⟩
  exact absurd (Nat.le_findGreatest (P := fun m => m < n ∧ Seen vb flt n t.chip m) hm'.le
    ⟨hm', hseen'⟩) (not_le.mpr hlt)

/-- With the first block that is tried, a restart finds the table as `FoundFirst` says. -/
theorem InMemory.recovered_first_iff (h : InMemory vb s)
    (hflag : mappedAt vb s.tbl s.bmtBlkIdx = bmtMapped) (hwrite : flt.write (s.chip.clock + 1) = 0) :
    Recovered vb flt'
        { s with chip := written vb flt (blockAt vb s.tbl s.bmtBlkIdx) s.tbl s.chip } s.bmtBlkIdx ↔
      s.bmtBlkIdx ≠ 0 ∧ FoundFirst vb flt' (s.chip.clock + 2) s := by
  generalize hs' : ({ s with
    chip := written vb flt (blockAt vb s.tbl s.bmtBlkIdx) s.tbl s.chip } : V2) = s'
  have htbl : s'.tbl = s.tbl := by rw [← hs']
  have hchip : s'.chip = written vb flt (blockAt vb s.tbl s.bmtBlkIdx) s.tbl s.chip := by rw [← hs']
  constructor
  · rintro ⟨hfound, ⟨t, ht, hwords, hidx⟩, -⟩
    obtain ⟨m, hm, hseen, hfirst⟩ := exists_first_of_found hfound
    obtain ⟨htbl', hidx', hiff⟩ := findBmt_of_first hm hseen hfirst
    have hne := hiff.mp hfound
    rw [initV2, if_pos hfound] at ht
    obtain rfl := Option.some.inj ht
    rw [hidx'] at hidx
    rw [hidx] at hne
    refine ⟨hne, m, hm, ?_, fun m' hlt hm' hcand => ?_, ?_⟩
    · rw [hchip] at hseen
      exact (seen_written_iff hwrite).mp hseen
    · refine hfirst m' hlt hm' ?_
      rw [hchip]
      exact (seen_written_iff hwrite).mpr hcand
    · by_cases hown : vb.poolLba + m = blockAt vb s.tbl s.bmtBlkIdx
      · exact .inl hown
      · have hload : readTbl vb s'.chip (vb.poolLba + m) (fun _ => 0xffff) = loaded vb s.chip m := by
          rw [hchip]
          exact loaded_written_ne hown
        rw [htbl', htbl] at hwords
        rw [hload] at hwords hidx
        exact .inr ⟨hwords, hidx⟩
  · rintro ⟨hne, m, hm, hcand, hfirst, hsame⟩
    have hseen : Seen vb flt' vb.poolSize s'.chip m := by
      rw [hchip]
      exact (seen_written_iff hwrite).mpr hcand
    have hfirst' : ∀ m', m < m' → m' < vb.poolSize → ¬ Seen vb flt' vb.poolSize s'.chip m' := by
      intro m' hlt hm' hseen'
      rw [hchip] at hseen'
      exact hfirst m' hlt hm' ((seen_written_iff hwrite).mp hseen')
    -- whichever block is found, it holds the words and the index of the table
    have hload : (∀ b < vb.tableSize, loaded vb s'.chip m b = s.tbl b) ∧
        getBmtIndex vb (loaded vb s'.chip m) vb.tableSize 0 = s.bmtBlkIdx := by
      rw [hchip]
      by_cases hown : vb.poolLba + m = blockAt vb s.tbl s.bmtBlkIdx
      · exact h.loaded_written hwrite hflag hown
      · rw [loaded_written_ne hown]
        exact hsame.resolve_left hown
    obtain ⟨hwords, hidx⟩ := hload
    obtain ⟨htbl', hidx', hiff⟩ :=
      @findBmt_of_first vb flt' _ m ⟨fun _ => 0xffff, 0, s'.chip⟩ hm hseen hfirst'
    have hfound : (findBmt vb flt' vb.poolSize ⟨fun _ => 0xffff, 0, s'.chip⟩).2 = true := by
      apply hiff.mpr
      show getBmtIndex vb (loaded vb s'.chip m) vb.tableSize 0 ≠ 0
      rw [hidx]
      exact hne
    refine ⟨hfound, ⟨_, if_pos hfound, fun b hb => ?_, hidx'.trans hidx⟩, ?_⟩
    · rw [htbl', htbl]
      exact hwords b hb
    · rw [htbl]
      exact hflag

/-- A restart finds the table again exactly if it went to the block that its flag names, which is
not the first of the pool, and no other table is found before. -/
theorem upload_recovered_iff (h : InMemory vb s)
    (hn : (uploadBmt vb flt (s.bmtBlkIdx + 1) s).2 ≠ noIndex) :
    Recovered vb flt' (uploadBmt vb flt (s.bmtBlkIdx + 1) s).1
        (uploadBmt vb flt (s.bmtBlkIdx + 1) s).2 ↔
      flt.erase s.chip.clock = 0 ∧ flt.write (s.chip.clock + 1) = 0 ∧
        mappedAt vb s.tbl s.bmtBlkIdx = bmtMapped ∧ s.bmtBlkIdx ≠ 0 ∧
        FoundFirst vb flt' (s.chip.clock + 2) s := by
  constructor
  · intro hrec
    obtain ⟨hflags, -⟩ := @uploadBmt_frame vb flt (s.bmtBlkIdx + 1) s
    rcases @uploadBmt_succ vb flt s.bmtBlkIdx s with
      ⟨-, heq⟩ | ⟨hmapped, chip, ⟨heq, herase, hwrite⟩ | ⟨heq, -⟩⟩
    · rw [heq] at hn
      exact absurd rfl hn
    · have hflag : mappedAt vb s.tbl s.bmtBlkIdx = bmtMapped := by
        have hmark := hrec.marked
        rwa [heq] at hmark
      rw [uploadBmt_of_first hmapped herase hwrite] at hrec
      exact ⟨herase, hwrite, hflag, (h.recovered_first_iff hflag hwrite).mp hrec⟩
    · -- the table went to a lower entry, which is not flagged
      obtain ⟨-, hidx⟩ := @uploadBmt_frame vb flt s.bmtBlkIdx
        { s with tbl := setBlockAt vb s.bmtBlkIdx 0 s.tbl, chip := chip }
      rw [← heq] at hidx
      have hmark := hrec.marked
      rw [hflags] at hmark
      exact absurd hmark (h.unflagged _ (hidx.resolve_left hn))
  · rintro ⟨herase, hwrite, hflag, hcond⟩
    have hmapped : mappedAt vb s.tbl s.bmtBlkIdx ≠ normalMapped := by
      rw [hflag]
      decide
    rw [uploadBmt_of_first hmapped herase hwrite]
    exact (h.recovered_first_iff hflag hwrite).mpr hcond

end Restart

section Reached

theorem uploadBmt_inMemory {n : ℕ} {s : V2} (h : InMemory vb { s with bmtBlkIdx := n })
    (hn : (uploadBmt vb flt (n + 1) s).2 ≠ noIndex) :
    InMemory vb { (uploadBmt vb flt (n + 1) s).1 with
      bmtBlkIdx := (uploadBmt vb flt (n + 1) s).2 } := by
  induction n generalizing s with
  | zero =>
    rcases @uploadBmt_succ vb flt 0 s with ⟨-, heq⟩ | ⟨-, chip, ⟨heq, -⟩ | ⟨heq, -⟩⟩
    · exact absurd (by rw [heq]) hn
    · rw [heq]
      exact ⟨h.word, h.lt, h.block, h.unflagged⟩
    · exact absurd (by rw [heq]; rfl) hn
  | succ n ih =>
    rcases @uploadBmt_succ vb flt (n + 1) s with ⟨-, heq⟩ | ⟨-, chip, ⟨heq, -⟩ | ⟨heq, -⟩⟩
    · exact absurd (by rw [heq]) hn
    · rw [heq]
      exact ⟨h.word, h.lt, h.block, h.unflagged⟩
    · rw [heq] at hn ⊢
      refine @ih { s with tbl := setBlockAt vb (n + 1) 0 s.tbl, chip := chip } ?_ hn
      constructor
      · intro i
        show Function.update s.tbl _ 0 i < 65536
        rw [Function.update_apply]
        split_ifs
        · decide
        · exact h.word i
      · exact (Nat.lt_succ_self n).trans h.lt
      · intro i hi
        show vb.poolLba ≤ blockAt vb (setBlockAt vb (n + 1) 0 s.tbl) i ∧ _
        rw [blockAt_setBlockAt, if_neg (Nat.lt_succ_of_le hi).ne]
        exact h.block i (Nat.le_succ_of_le hi)
      · intro i hi
        show mappedAt vb (setBlockAt vb (n + 1) 0 s.tbl) i ≠ bmtMapped
        rw [mappedAt_setBlockAt]
        exact h.unflagged i (Nat.lt_succ_of_lt hi)

theorem V2.upload_inMemory {s : V2} (h : InMemory vb s) (hn : (s.upload vb flt).bmtBlkIdx ≠ noIndex) :
    InMemory vb (s.upload vb flt) :=
  uploadBmt_inMemory h hn

/-- New physical blocks, and flags that do not name the table. -/
theorem InMemory.replace {s s' : V2} (h : InMemory vb s) (hidx : s'.bmtBlkIdx = s.bmtBlkIdx)
    (hword : ∀ i, s'.tbl i < 65536) (hblock : ∀ i, blockAt vb s'.tbl i = blockAt vb s.tbl i)
    (hflag : ∀ i < s.bmtBlkIdx, mappedAt vb s'.tbl i ≠ bmtMapped) : InMemory vb s' where
  word := hword
  lt := hidx ▸ h.lt
  block := fun i hi => by
    rw [hblock]
    exact h.block i (hidx ▸ hi)
  unflagged := fun i hi => hflag i (hidx ▸ hi)

theorem InMemory.take {s : V2} {block i : ℕ} (h : InMemory vb s) (hblock : block < vb.tableSize) :
    InMemory vb (s.take vb block i) := by
  apply h.replace
  · rfl
  · intro j
    show Function.update (Function.update s.tbl _ normalMapped) block _ j < 65536
    rw [Function.update_apply, Function.update_apply]
    split_ifs
    · exact h.word _
    · decide
    · exact h.word j
  · intro j
    exact (blockAt_update_of_lt hblock).trans blockAt_setMappedAt
  · intro j hj
    show mappedAt vb (Function.update (setMappedAt vb i normalMapped s.tbl) block _) j ≠ bmtMapped
    rw [mappedAt_update_of_lt hblock, mappedAt_setMappedAt]
    split_ifs
    · decide
    · exact h.unflagged j hj

theorem InMemory.unmap {s : V2} {block : ℕ} (h : InMemory vb s) (hblock : block < vb.tableSize)
    (hsize : vb.tableSize ≤ 65536) :
    InMemory vb { s with tbl := Function.update s.tbl block block } := by
  apply h.replace
  · rfl
  · intro i
    show Function.update s.tbl block block i < 65536
    rw [Function.update_apply]
    split_ifs
    · omega
    · exact h.word i
  · exact fun i => blockAt_update_of_lt hblock
  · intro i hi
    show mappedAt vb (Function.update s.tbl block block) i ≠ bmtMapped
    rw [mappedAt_update_of_lt hblock]
    exact h.unflagged i hi

theorem InMemory.free {s : V2} (h : InMemory vb s) :
    InMemory vb { s with tbl := freedTbl vb s } := by
  apply h.replace
  · rfl
  · intro i
    show freedTbl vb s i < 65536
    rw [freedTbl, foldl_setMappedAt]
    split_ifs
    · decide
    · exact h.word i
  · intro i
    show blockAt vb (freedTbl vb s) i = _
    rw [blockAt, freedTbl, foldl_setMappedAt, if_neg, blockAt]
    rintro ⟨j, -, hx⟩
    omega
  · intro i hi
    show mappedAt vb (freedTbl vb s) i ≠ bmtMapped
    rw [mappedAt, freedTbl, foldl_setMappedAt]
    split_ifs
    · decide
    · exact h.unflagged i hi

/-- The operation is about a block the table has a word for, and the index is not lost. -/
def IndexKept (vb : V2Board) (flt : Faults) (s : V2) (op : Op) : Prop :=
  (∀ block mapped copyLen, op = .remap block mapped copyLen → block < vb.tableSize) ∧
    (∀ block, op = .unmap block ∨ op = .repair block → block < vb.tableSize) ∧
    (exec vb flt s op).bmtBlkIdx ≠ noIndex

theorem exec_inMemory {s : V2} {op : Op} (hsize : vb.tableSize ≤ 65536) (h : InMemory vb s)
    (hok : IndexKept vb flt s op) : InMemory vb (exec vb flt s op) := by
  obtain ⟨hremap, hunmap, hidx⟩ := hok
  cases op with
  | remap block mapped copyLen =>
    rw [exec, V2.remapBlock] at hidx ⊢
    cases hfind : findValidBlockInPool vb s with
    | none => exact h
    | some i =>
      rw [hfind] at hidx
      have htake := @InMemory.take vb s block i h (hremap _ _ _ rfl)
      exact V2.upload_inMemory ⟨htake.word, htake.lt, htake.block, htake.unflagged⟩ hidx
  | unmap block =>
    exact V2.upload_inMemory (h.unmap (hunmap block (.inl rfl)) hsize) hidx
  | repair block =>
    have hmem := h.unmap (hunmap block (.inr rfl)) hsize
    rw [exec, V2.debugRepair] at hidx ⊢
    split_ifs at hidx ⊢
    · exact V2.upload_inMemory hmem hidx
    · have hup := V2.upload_inMemory hmem hidx
      exact ⟨hup.word, hup.lt, hup.block, hup.unflagged⟩
  | free =>
    rw [exec, V2.debugFree] at hidx ⊢
    split_ifs at hidx ⊢
    · exact h
    · exact V2.upload_inMemory h.free hidx
  | access chip => exact ⟨h.word, h.lt, h.block, h.unflagged⟩

/-- The words of a table that is being built. -/
structure Clean (vb : V2Board) (tbl : ℕ → ℕ) : Prop where
  word : ∀ i, tbl i < 65536
  block : ∀ i < vb.tableSize, blockAt vb tbl i < vb.bd.g.totalBlks
  unflagged : ∀ i < vb.tableSize, mappedAt vb tbl i ≠ bmtMapped

theorem Clean.update {tbl : ℕ → ℕ} {x v : ℕ} (h : Clean vb tbl) (hv : v < 65536)
    (hx : x < vb.tableSize) : Clean vb (Function.update tbl x v) where
  word := fun i => by
    rw [Function.update_apply]
    split_ifs
    · exact hv
    · exact h.word i
  block := fun i hi => by
    rw [blockAt_update_of_lt hx]
    exact h.block i hi
  unflagged := fun i hi => by
    rw [mappedAt_update_of_lt hx]
    exact h.unflagged i hi

theorem findValidBlock_lt (hblks : vb.bd.g.totalBlks ≤ 65536) (left block : ℕ) (c : Chip) :
    (findValidBlock vb flt left block c).2 < 65536 := by
  rcases @findValidBlock_cases vb flt left block c with hzero | ⟨-, hlt⟩
  · omega
  · omega

theorem scanMain_clean {n i : ℕ} {s : V2} (hblks : vb.bd.g.totalBlks ≤ 65536)
    (hi : i + n ≤ vb.tableSize) (h : Clean vb s.tbl) : Clean vb (scanMain vb flt n i s).1.tbl := by
  induction n generalizing i s with
  | zero => exact h
  | succ n ih =>
    have hstep := h.update (@findValidBlock_lt vb flt hblks vb.bbMax (s.tbl (i - 1) + 1) s.chip)
      (show i < vb.tableSize by omega)
    rw [scanMain]
    split_ifs
    · exact hstep
    · exact ih (by omega) hstep

theorem scanPool_clean {n block i : ℕ} {s : V2} (hblks : vb.bd.g.totalBlks ≤ 65536)
    (h : Clean vb s.tbl) : Clean vb (scanPool vb flt n block i s).1.tbl := by
  induction n generalizing block i s with
  | zero => exact h
  | succ n ih =>
    rw [scanPool]
    split_ifs with hzero
    · exact h
    · obtain ⟨-, hlt⟩ := (@findValidBlock_cases vb flt vb.bbMax block s.chip).resolve_left hzero
      apply ih
      constructor
      · intro j
        show Function.update (Function.update s.tbl _ _) _ noMapped j < 65536
        rw [Function.update_apply, Function.update_apply]
        split_ifs
        · decide
        · omega
        · exact h.word j
      · intro j hj
        show blockAt vb (setMappedAt vb i noMapped (setBlockAt vb i _ s.tbl)) j < _
        rw [blockAt_setMappedAt, blockAt_setBlockAt]
        split_ifs
        · exact hlt
        · exact h.block j hj
      · intro j hj
        show mappedAt vb (setMappedAt vb i noMapped (setBlockAt vb i _ s.tbl)) j ≠ bmtMapped
        rw [mappedAt_setMappedAt, mappedAt_setBlockAt]
        split_ifs
        · decide
        · exact h.unflagged j hj

theorem scanBadBlocks_inMemory {s s' : V2} (hblks : vb.bd.g.totalBlks ≤ 65536)
    (hzero : ∀ i < vb.tableSize, blockAt vb s.tbl i = 0) (hclean : Clean vb s.tbl)
    (h : scanBadBlocks vb flt s = some s') : InMemory vb s' := by
  have hshape := scanBadBlocks_shape hzero h
  have hpool := vb.pool_lt
  have hsize := vb.pool_le
  have htable := poolLba_le vb
  have hlba : vb.poolLba = vb.bd.g.totalBlks - vb.poolSize := rfl
  rw [scanBadBlocks] at h
  dsimp only at h
  split_ifs at h with hmain hpba hone
  obtain rfl := Option.some.inj h
  have hstart := hclean.update (show 0 < 65536 by decide) (show 0 < vb.tableSize by omega)
  have hmain' := @scanMain_clean vb flt (vb.poolLba - 1) 1 { s with tbl := Function.update s.tbl 0 0 }
    hblks (by omega) hstart
  clear h hmain
  generalize (scanMain vb flt (vb.poolLba - 1) 1 { s with tbl := Function.update s.tbl 0 0 }).1 = t
    at hmain' hpba hone hshape ⊢
  have hfound := @scanPool_clean vb flt vb.bd.g.totalBlks (t.tbl (vb.poolLba - 1) + 1) 0 t hblks hmain'
  generalize scanPool vb flt vb.bd.g.totalBlks (t.tbl (vb.poolLba - 1) + 1) 0 t = q
    at hfound hone hshape ⊢
  have hlt : q.2 - 1 < vb.poolSize := hshape.lt
  constructor
  · intro i
    show Function.update q.1.tbl _ bmtMapped i < 65536
    rw [Function.update_apply]
    split_ifs
    · decide
    · exact hfound.word i
  · exact hlt
  · intro i hi
    have hi : i ≤ q.2 - 1 := hi
    refine ⟨hshape.above i hi, ?_⟩
    show blockAt vb (setMappedAt vb (q.2 - 1) bmtMapped q.1.tbl) i < _
    rw [blockAt_setMappedAt]
    exact hfound.block i (by omega)
  · intro i hi
    have hi : i < q.2 - 1 := hi
    show mappedAt vb (setMappedAt vb (q.2 - 1) bmtMapped q.1.tbl) i ≠ bmtMapped
    rw [mappedAt_setMappedAt, if_neg hi.ne]
    exact hfound.unflagged i (by omega)

theorem bufTbl_lt (buf : ℕ → UInt8) (i : ℕ) : bufTbl buf i < 65536 := by
  have hlow := (buf (4 + 2 * i)).toNat_lt
  have hhigh := (buf (5 + 2 * i)).toNat_lt
  rw [bufTbl]
  omega

theorem findBmt_word {n : ℕ} {s : V2} (h : ∀ i, s.tbl i < 65536) (i : ℕ) :
    (findBmt vb flt n s).1.tbl i < 65536 := by
  induction n generalizing s with
  | zero => exact h i
  | succ n ih =>
    have hread : ∀ i, readTbl vb s.chip (vb.poolLba + n) s.tbl i < 65536 := by
      intro i
      rw [readTbl]
      split_ifs
      · exact bufTbl_lt ..
      · exact h i
    rw [findBmt]
    dsimp only
    split_ifs
    · exact ih h
    · exact ih hread
    · exact hread i
    · exact hread i

theorem createBmt_inMemory {s s' : V2} (hblks : vb.bd.g.totalBlks ≤ 65536)
    (hword : ∀ i, s.tbl i < 65536) (h : createBmt vb flt s = some s') : InMemory vb s' := by
  have hpool := vb.pool_lt
  rw [createBmt] at h
  split_ifs at h
  obtain ⟨t, hscan, hup⟩ := Option.bind_eq_some_iff.mp h
  have hblock : ∀ i < vb.tableSize, blockAt vb (clearPool vb s.tbl) i = 0 := fun i hi =>
    if_pos (by omega)
  have hmapped : ∀ i < vb.tableSize, mappedAt vb (clearPool vb s.tbl) i = 0 := fun i hi =>
    if_pos (by omega)
  have hclean : Clean vb (clearPool vb s.tbl) := by
    refine ⟨fun i => ?_, fun i hi => ?_, fun i hi => ?_⟩
    · rw [clearPool]
      split_ifs
      · decide
      · exact hword i
    · rw [hblock i hi]
      omega
    · rw [hmapped i hi]
      decide
  have hmem := scanBadBlocks_inMemory hblks hblock hclean hscan
  dsimp only at hup
  split_ifs at hup with hidx
  obtain rfl := Option.some.inj hup
  exact V2.upload_inMemory hmem hidx

/-- A table found on the chip when the driver starts is one the driver can have written. -/
def FoundInMemory (vb : V2Board) (flt : Faults) (chip : Chip) : Prop :=
  (findBmt vb flt vb.poolSize ⟨fun _ => 0xffff, 0, chip⟩).2 = true →
    InMemory vb (findBmt vb flt vb.poolSize ⟨fun _ => 0xffff, 0, chip⟩).1

theorem initV2_inMemory {chip : Chip} {s : V2} (hblks : vb.bd.g.totalBlks ≤ 65536)
    (hfound : FoundInMemory vb flt chip) (h : initV2 vb flt chip = some s) : InMemory vb s := by
  rw [initV2] at h
  split_ifs at h with hsome
  · obtain rfl := Option.some.inj h
    exact hfound hsome
  · exact createBmt_inMemory hblks (findBmt_word fun i => show 0xffff < 65536 by decide) h

/-- The tables in memory are those of `InMemory` for as long as the index is not lost. -/
theorem reaches_inMemory {chip : Chip} {s : V2} (hsize : vb.tableSize ≤ 65536)
    (hblks : vb.bd.g.totalBlks ≤ 65536) (hfound : FoundInMemory vb flt chip)
    (h : Reaches (fun s => initV2 vb flt chip = some s) (fun s op s' => s' = exec vb flt s op)
      (IndexKept vb flt) s) : InMemory vb s := by
  refine h.invariant (fun s hs => initV2_inMemory hblks hfound hs) ?_
  rintro s op s' hs hok rfl
  exact exec_inMemory hsize hs hok

theorem reaches_inMemory_one_remap : ∃ s, initV2 smallV2 (erasuresFailFrom 100) blankV2 = some s ∧
    InMemory smallV2 (exec smallV2 (erasuresFailFrom 100) s (.remap 3 3 256)) := by
  have hrun : ((initV2 smallV2 (erasuresFailFrom 100) blankV2).map fun s =>
      (exec smallV2 (erasuresFailFrom 100) s (.remap 3 3 256)).bmtBlkIdx) = some 5 := by
    decide +kernel
  obtain ⟨s, hs, hidx⟩ := Option.map_eq_some_iff.mp hrun
  have hfound : FoundInMemory smallV2 (erasuresFailFrom 100) blankV2 := fun hfound =>
    absurd hfound (by decide +kernel)
  have hkept : IndexKept smallV2 (erasuresFailFrom 100) s (.remap 3 3 256) := by
    refine ⟨fun block mapped copyLen h => ?_, fun block h => ?_, by rw [hidx]; decide⟩
    · cases h
      decide
    · rcases h with h | h <;> cases h
  exact ⟨s, hs, reaches_inMemory (by decide) (by decide) hfound (.next _ (.start hs) hkept rfl)⟩

end Reached

/-- A new table is written once more, and a restart finds it. -/
theorem recovered_new_table : ∃ s, initV2 smallV2 (erasuresFailFrom 100) blankV2 = some s ∧
    Recovered smallV2 (erasuresFailFrom 100)
      (uploadBmt smallV2 (erasuresFailFrom 100) (s.bmtBlkIdx + 1) s).1
      (uploadBmt smallV2 (erasuresFailFrom 100) (s.bmtBlkIdx + 1) s).2 := by
  have hrun : ((initV2 smallV2 (erasuresFailFrom 100) blankV2).map fun s =>
      (s.bmtBlkIdx, blockAt smallV2 s.tbl s.bmtBlkIdx, mappedAt smallV2 s.tbl s.bmtBlkIdx,
        s.chip.clock, (uploadBmt smallV2 (erasuresFailFrom 100) (s.bmtBlkIdx + 1) s).2)) =
      some (5, 15, bmtMapped, 23, 5) := by
    decide +kernel
  obtain ⟨s, hs, hfields⟩ := Option.map_eq_some_iff.mp hrun
  simp only [Prod.mk.injEq] at hfields
  obtain ⟨hidx, hblock, hflag, hclock, hn⟩ := hfields
  have hmem : InMemory smallV2 s := by
    refine initV2_inMemory (by decide) ?_ hs
    intro hfound
    exact absurd hfound (by decide +kernel)
  refine ⟨s, hs, (upload_recovered_iff hmem ?_).mpr ?_⟩
  · rw [hn]
    decide
  · rw [hclock, hflag]
    refine ⟨by decide, rfl, rfl, by rw [hidx]; decide, 5, by decide, ⟨le_rfl, .inl hblock.symm⟩, ?_,
      .inl hblock.symm⟩
    intro m' hlt hm'
    exact absurd hm' (not_lt.mpr hlt)

/-- The erasure of the table's block fails, and the table goes to the block before. -/
theorem exists_upload_not_recovered : ¬ ∀ (vb : V2Board) (flt flt' : Faults) (s : V2),
    InMemory vb s → (∀ t, flt'.read t = 0) →
    (uploadBmt vb flt (s.bmtBlkIdx + 1) s).2 ≠ noIndex →
    Recovered vb flt' (uploadBmt vb flt (s.bmtBlkIdx + 1) s).1
      (uploadBmt vb flt (s.bmtBlkIdx + 1) s).2 := by
  intro h
  let flt : Faults := { erasuresFailFrom 100 with erase := fun t => if t = 23 then -5 else 0 }
  have hrun : ((initV2 smallV2 flt blankV2).map fun s =>
      ((uploadBmt smallV2 flt (s.bmtBlkIdx + 1) s).2,
        (findBmt smallV2 (erasuresFailFrom 100) smallV2.poolSize ⟨fun _ => 0xffff, 0,
          (uploadBmt smallV2 flt (s.bmtBlkIdx + 1) s).1.chip⟩).2)) = some (4, false) := by
    decide +kernel
  obtain ⟨s, hs, hfields⟩ := Option.map_eq_some_iff.mp hrun
  simp only [Prod.mk.injEq] at hfields
  obtain ⟨hn, hlost⟩ := hfields
  have hmem : InMemory smallV2 s := by
    refine initV2_inMemory (by decide) ?_ hs
    intro hfound
    exact absurd hfound (by decide +kernel)
  have hrec := h smallV2 flt (erasuresFailFrom 100) s hmem (fun _ => rfl) (by rw [hn]; decide)
  rw [hrec.found] at hlost
  exact absurd hlost (by decide)

end NeonWrt.Bmt
