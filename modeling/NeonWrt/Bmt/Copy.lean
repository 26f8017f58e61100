import NeonWrt.Nmbm.Chip

/-!
# What `bbt_nand_copy` copies

The block copy of `mtk_bmt.c` goes through the pages of a block with two requests to the
driver below, one to read a page with OOB bytes of it and one to write it. The driver may
serve any part of a request, and says how much in `retlen` and `oobretlen`. The contents of
the chip and of the buffers are functions of addresses, so that a page read in part is read
on at the address where the last read ended, as in the source.

The copy asks to read OOB bytes and never asks to write any: the request to write is built
anew for each page, without a length for the OOB bytes, and gets one only after the page has
been written. And a read that ends early does not make the copy fail.
-/

namespace NeonWrt.Bmt.Copy

open Nmbm (eUclean)

/-- The lengths in a `struct mtd_oob_ops`. -/
structure MtdOobOps where
  len : ℕ
  retlen : ℕ := 0
  ooblen : ℕ := 0
  oobretlen : ℕ := 0

/-- What the driver returns for a request, and how much of it it would serve. -/
structure OpResult where
  ret : ℤ
  retlen : ℕ
  oobretlen : ℕ

/-- The part of `bmtd` that the copy uses. -/
structure Desc where
  pgShift : ℕ
  blkShift : ℕ
  oobsize : ℕ
  pgShift_le : pgShift ≤ blkShift

namespace Desc

variable (d : Desc)

/-- `pg_size`. -/
def pgSize : ℕ := 1 <<< d.pgShift

/-- `blk_size`. -/
def blkSize : ℕ := 1 <<< d.blkShift

/-- The pages of a block. -/
def pages : ℕ := d.blkSize >>> d.pgShift

/-- The OOB bytes that are read of a page. -/
def ooblen : ℕ := min (d.oobsize / d.pages) 64

/-- The address of a block. -/
def addr (block : ℕ) : ℕ := block <<< d.blkShift

end Desc

/-- The contents of the chip, its OOB bytes by page, and of the buffers `data_buf` and `oob`. -/
structure State where
  data : ℕ → UInt8
  oob : ℕ → ℕ → UInt8
  dataBuf : ℕ → UInt8
  oobBuf : ℕ → UInt8

namespace State

variable (d : Desc)

/-- `_read_oob`: as many bytes as the driver serves go to the buffers. -/
def readOob (addr : ℕ) (ops : MtdOobOps) (r : OpResult) (s : State) : MtdOobOps × State :=
  let retlen := min r.retlen ops.len
  let oobretlen := min r.oobretlen ops.ooblen
  ({ ops with retlen := retlen, oobretlen := oobretlen },
    { s with
      dataBuf := fun k => if k < retlen then s.data (addr + k) else s.dataBuf k
      oobBuf := fun k => if k < oobretlen then s.oob (addr / d.pgSize) k else s.oobBuf k })

/-- `_write_oob`: as many bytes as the driver serves go to the chip. -/
def writeOob (addr : ℕ) (ops : MtdOobOps) (r : OpResult) (s : State) : MtdOobOps × State :=
  let retlen := min r.retlen ops.len
  let oobretlen := min r.oobretlen ops.ooblen
  ({ ops with retlen := retlen, oobretlen := oobretlen },
    { s with
      data := fun a => if addr ≤ a ∧ a < addr + retlen then s.dataBuf (a - addr) else s.data a
      oob := fun page k =>
        if page = addr / d.pgSize ∧ k < oobretlen then s.oobBuf k else s.oob page k })

end State

section

variable (d : Desc) (rd wr : ℕ → OpResult) (dest src maxOffset : ℕ)

/-- The loop of `bbt_nand_copy`, with `n` pages to go. The `i`-th read and the `i`-th write of
the copy have the results `rd i` and `wr i`. -/
def bbtNandCopyLoop : ℕ → ℕ → ℕ → State → ℤ × State
  | 0, _, _, s => (0, s)
  | n + 1, i, offset, s =>
    let rdOps : MtdOobOps := { len := d.pgSize, ooblen := d.ooblen }
    let wrOps : MtdOobOps := { len := d.pgSize }
    if maxOffset ≤ offset then (0, s)
    else
      let read := s.readOob d (d.addr src + offset) rdOps (rd i)
      if (rd i).ret < 0 ∧ (rd i).ret ≠ eUclean then ((rd i).ret, read.2)
      else if read.1.retlen = 0 then (0, read.2)
      else
        let written := read.2.writeOob d (d.addr dest + offset) wrOps (wr i)
        if (wr i).ret < 0 then ((wr i).ret, written.2)
        -- `wr_ops.ooblen` is set here, and `wr_ops` is gone with this turn of the loop.
        else bbtNandCopyLoop n (i + 1) (offset + read.1.retlen) written.2

/-- `bbt_nand_copy`. -/
def bbtNandCopy (s : State) : ℤ × State :=
  bbtNandCopyLoop d rd wr dest src maxOffset d.pages 0 0 s

/-- The target block holds the data of the source block and, of each page, the OOB bytes that
the copy reads. -/
structure Copied (s s' : State) : Prop where
  data : ∀ x < d.blkSize, s'.data (d.addr dest + x) = s.data (d.addr src + x)
  oob : ∀ i < d.pages, ∀ k < d.ooblen,
    s'.oob (dest * d.pages + i) k = s.oob (src * d.pages + i) k

/-- The bytes that the `i`-th read gives. -/
def readLen (i : ℕ) : ℕ := min (rd i).retlen d.pgSize

/-- The bytes that the `i`-th write stores. -/
def writeLen (i : ℕ) : ℕ := min (wr i).retlen d.pgSize

/-- The offset in the block that the `i`-th read starts at. -/
def offsetAt : ℕ → ℕ
  | 0 => 0
  | i + 1 => offsetAt i + readLen d rd i

/-- The copy comes to its `i`-th write: no read up to there was empty. -/
def Made (i : ℕ) : Prop := i < d.pages ∧ ∀ k < i + 1, readLen d rd k ≠ 0

instance (i : ℕ) : Decidable (Made d rd i) := inferInstanceAs (Decidable (_ ∧ _))

/-- The byte at an offset is in the part of a page that was both read and written. -/
def Carried (x : ℕ) : Prop :=
  ∃ i < d.pages, Made d rd i ∧ offsetAt d rd i ≤ x ∧
    x < offsetAt d rd i + min (readLen d rd i) (writeLen d wr i)

instance (x : ℕ) : Decidable (Carried d rd wr x) := inferInstanceAs (Decidable (∃ _ < _, _))

/-- `data_buf` after so many reads: behind a short read there are bytes of earlier ones. -/
def bufAfter (s : State) : ℕ → ℕ → UInt8
  | 0 => s.dataBuf
  | i + 1 => fun k =>
    if k < readLen d rd i then s.data (d.addr src + (offsetAt d rd i + k)) else bufAfter s i k

/-- What is at an offset of the target block after so many turns of the loop. -/
def landed (s : State) : ℕ → ℕ → UInt8
  | 0 => fun x => s.data (d.addr dest + x)
  | i + 1 => fun x =>
    if Made d rd i ∧ offsetAt d rd i ≤ x ∧ x < offsetAt d rd i + writeLen d wr i then
      bufAfter d rd src s (i + 1) (x - offsetAt d rd i)
    else landed s i x

/-- The OOB bytes that the copy reads of the pages of the source block are already those of the
target block. -/
def OobMatches (s : State) : Prop :=
  ∀ i < d.pages, ∀ k < d.ooblen, s.oob (dest * d.pages + i) k = s.oob (src * d.pages + i) k

/-- Every page is read and written in full. -/
def Whole : Prop := ∀ i < d.pages, d.pgSize ≤ (rd i).retlen ∧ d.pgSize ≤ (wr i).retlen

end

namespace Desc

variable (d : Desc)

theorem pgSize_pos : 0 < d.pgSize := by
  rw [pgSize, Nat.one_shiftLeft]
  exact Nat.two_pow_pos _

theorem pages_eq : d.pages = 2 ^ (d.blkShift - d.pgShift) := by
  rw [pages, blkSize, Nat.one_shiftLeft, Nat.shiftRight_eq_div_pow, Nat.pow_div d.pgShift_le (by decide)]

theorem blkSize_eq : d.blkSize = d.pages * d.pgSize := by
  rw [pages_eq, pgSize, blkSize, Nat.one_shiftLeft, Nat.one_shiftLeft, ← pow_add,
    Nat.sub_add_cancel d.pgShift_le]

theorem addr_eq (block : ℕ) : d.addr block = block * d.blkSize := by
  rw [addr, blkSize, Nat.shiftLeft_eq, Nat.one_shiftLeft]

theorem page_end_le {i : ℕ} (h : i < d.pages) : i * d.pgSize + d.pgSize ≤ d.blkSize := by
  rw [blkSize_eq, ← Nat.succ_mul]
  exact Nat.mul_le_mul_right _ h

/-- Different blocks have no address in common. -/
theorem addr_apart {a b x y : ℕ} (h : a ≠ b) (hx : x < d.blkSize) (hy : y < d.blkSize) :
    d.addr a + x ≠ d.addr b + y := by
  intro heq
  rw [addr_eq, addr_eq] at heq
  have hpos : 0 < d.blkSize := by omega
  have ha : (a * d.blkSize + x) / d.blkSize = a := by
    rw [Nat.mul_comm a, Nat.mul_add_div hpos, Nat.div_eq_of_lt hx, Nat.add_zero]
  have hb : (b * d.blkSize + y) / d.blkSize = b := by
    rw [Nat.mul_comm b, Nat.mul_add_div hpos, Nat.div_eq_of_lt hy, Nat.add_zero]
  exact h (by rw [← ha, heq, hb])

end Desc

section

variable {d : Desc} {rd wr : ℕ → OpResult} {dest src maxOffset : ℕ}

theorem readLen_le (i : ℕ) : readLen d rd i ≤ d.pgSize := Nat.min_le_right _ _

theorem writeLen_le (i : ℕ) : writeLen d wr i ≤ d.pgSize := Nat.min_le_right _ _

theorem offsetAt_le (i : ℕ) : offsetAt d rd i ≤ i * d.pgSize := by
  induction i with
  | zero => simp [offsetAt]
  | succ i ih =>
    have hread := @readLen_le d rd i
    rw [offsetAt, Nat.succ_mul]
    omega

theorem offsetAt_mono {i j : ℕ} (h : i ≤ j) : offsetAt d rd i ≤ offsetAt d rd j := by
  induction j, h using Nat.le_induction with
  | base => exact le_rfl
  | succ j _ ih => exact ih.trans (Nat.le_add_right _ _)

/-- What is read or written of a page lies in the block. -/
theorem offsetAt_page_le {i : ℕ} (h : i < d.pages) : offsetAt d rd i + d.pgSize ≤ d.blkSize :=
  (Nat.add_le_add_right (offsetAt_le i) _).trans (d.page_end_le h)

theorem bufAfter_succ (s : State) (i k : ℕ) :
    bufAfter d rd src s (i + 1) k =
      if k < readLen d rd i then s.data (d.addr src + (offsetAt d rd i + k))
      else bufAfter d rd src s i k := rfl

theorem landed_succ (s : State) (i x : ℕ) :
    landed d rd wr dest src s (i + 1) x =
      if Made d rd i ∧ offsetAt d rd i ≤ x ∧ x < offsetAt d rd i + writeLen d wr i then
        bufAfter d rd src s (i + 1) (x - offsetAt d rd i)
      else landed d rd wr dest src s i x := rfl

/-- After a turn that is not made nothing is written. -/
theorem landed_of_empty {i : ℕ} (h : readLen d rd i = 0) (s : State) {j : ℕ} (hj : i ≤ j) :
    landed d rd wr dest src s j = landed d rd wr dest src s i := by
  induction j, hj using Nat.le_induction with
  | base => rfl
  | succ j hj ih =>
    funext x
    have hmade : ¬ Made d rd j := fun hm => hm.2 i (by omega) h
    rw [landed_succ, if_neg (fun hc => hmade hc.1), ih]

/-- A byte that was read and written is the source's, whatever was written after it. -/
theorem landed_of_carried {x : ℕ} (h : Carried d rd wr x) (s : State) :
    landed d rd wr dest src s d.pages x = s.data (d.addr src + x) := by
  obtain ⟨i, hi, hmade, hlo, hhi⟩ := h
  have hstep : landed d rd wr dest src s (i + 1) x = s.data (d.addr src + x) := by
    rw [landed_succ, if_pos ⟨hmade, hlo, by omega⟩, bufAfter_succ, if_pos (by omega),
      Nat.add_sub_cancel' hlo]
  have hkeep : ∀ j, i + 1 ≤ j → landed d rd wr dest src s j x = s.data (d.addr src + x) := by
    intro j hj
    induction j, hj using Nat.le_induction with
    | base => exact hstep
    | succ j hj ih =>
      -- The next page starts behind the byte.
      have hnext := @offsetAt_mono d rd _ _ hj
      rw [offsetAt] at hnext
      rw [landed_succ, if_neg (by omega), ih]
  exact hkeep _ hi

variable (d rd wr dest src) in
/-- The state at the head of the loop, after so many turns. -/
structure After (s : State) (i : ℕ) (t : State) : Prop where
  target : ∀ x < d.blkSize, t.data (d.addr dest + x) = landed d rd wr dest src s i x
  others : ∀ a, (∀ x < d.blkSize, a ≠ d.addr dest + x) → t.data a = s.data a
  oob : t.oob = s.oob
  buf : t.dataBuf = bufAfter d rd src s i

/-- A turn of the loop reads from the source block and writes to the target block. -/
theorem After.step {s t : State} {i : ℕ} (hne : dest ≠ src) (h : After d rd wr dest src s i t)
    (hmade : Made d rd i) (rops wops : MtdOobOps) (hr : rops.len = d.pgSize)
    (hw : wops.len = d.pgSize) (hoob : wops.ooblen = 0) :
    After d rd wr dest src s (i + 1)
      (((t.readOob d (d.addr src + offsetAt d rd i) rops (rd i)).2.writeOob d
        (d.addr dest + offsetAt d rd i) wops (wr i)).2) := by
  have hpage := @offsetAt_page_le d rd _ hmade.1
  have hwl := @writeLen_le d wr i
  have hrl := @readLen_le d rd i
  have hrlen : min (rd i).retlen rops.len = readLen d rd i := by rw [hr, readLen]
  have hwlen : min (wr i).retlen wops.len = writeLen d wr i := by rw [hw, writeLen]
  have hbuf : ∀ k, (t.readOob d (d.addr src + offsetAt d rd i) rops (rd i)).2.dataBuf k =
      bufAfter d rd src s (i + 1) k := by
    intro k
    simp only [State.readOob, hrlen, bufAfter_succ, h.buf]
    by_cases hk : k < readLen d rd i
    · rw [if_pos hk, if_pos hk, Nat.add_assoc]
      exact h.others _ fun x hx => d.addr_apart hne.symm (by omega) hx
    · rw [if_neg hk, if_neg hk]
  refine ⟨fun x hx => ?_, fun a ha => ?_, ?_, funext hbuf⟩
  · rw [landed_succ]
    simp only [State.writeOob, hwlen]
    by_cases hx' : offsetAt d rd i ≤ x ∧ x < offsetAt d rd i + writeLen d wr i
    · rw [if_pos (by omega), if_pos ⟨hmade, hx'⟩, hbuf, Nat.add_sub_add_left]
    · rw [if_neg (by omega), if_neg (fun hc => hx' hc.2)]
      exact h.target x hx
  · simp only [State.writeOob, hwlen]
    rw [if_neg]
    · exact h.others a ha
    · rintro ⟨hlo, hhi⟩
      exact ha (a - d.addr dest) (by omega) (by omega)
  · funext page k
    simp only [State.writeOob, hoob, Nat.min_zero, Nat.not_lt_zero, and_false, if_false]
    exact congrFun (congrFun h.oob page) k

/-- What the loop leaves when it reports success. -/
theorem After.loop {s t : State} {i n : ℕ} (hne : dest ≠ src) (hmax : d.blkSize ≤ maxOffset)
    (hn : i + n = d.pages) (h : After d rd wr dest src s i t)
    (hread : ∀ k < i, readLen d rd k ≠ 0)
    (hret : (bbtNandCopyLoop d rd wr dest src maxOffset n i (offsetAt d rd i) t).1 = 0) :
    let t' := (bbtNandCopyLoop d rd wr dest src maxOffset n i (offsetAt d rd i) t).2
    (∀ x < d.blkSize, t'.data (d.addr dest + x) = landed d rd wr dest src s d.pages x) ∧
      t'.oob = s.oob := by
  induction n generalizing i t with
  | zero =>
    obtain rfl : i = d.pages := by omega
    exact ⟨h.target, h.oob⟩
  | succ n ih =>
    have hi : i < d.pages := by omega
    have hpage := @offsetAt_page_le d rd _ hi
    have hpos := d.pgSize_pos
    rw [bbtNandCopyLoop, if_neg (by omega)] at hret ⊢
    dsimp only at hret ⊢
    split_ifs at hret ⊢ with hbad hempty
    · exact absurd hret (by simp only; omega)
    · -- The read gave nothing: what is on the chip stays as it is.
      have hz : readLen d rd i = 0 := hempty
      rw [landed_of_empty hz s (by omega : i ≤ d.pages)]
      exact ⟨h.target, h.oob⟩
    · exact absurd hret (by simp only; omega)
    · have hmade : Made d rd i := by
        refine ⟨hi, fun k hk => ?_⟩
        rcases Nat.lt_succ_iff_lt_or_eq.1 hk with hk | rfl
        · exact hread k hk
        · exact hempty
      exact ih (by omega) (h.step hne hmade _ _ rfl rfl rfl)
        (fun k hk => hmade.2 k hk) hret

/-- What the chip holds after a copy of a whole block that reports success. -/
theorem bbtNandCopy_flash (s : State) (hne : dest ≠ src) (hmax : d.blkSize ≤ maxOffset)
    (hret : (bbtNandCopy d rd wr dest src maxOffset s).1 = 0) :
    (∀ x < d.blkSize, (bbtNandCopy d rd wr dest src maxOffset s).2.data (d.addr dest + x) =
        landed d rd wr dest src s d.pages x) ∧
      (bbtNandCopy d rd wr dest src maxOffset s).2.oob = s.oob :=
  After.loop hne hmax (Nat.zero_add _) ⟨fun _ _ => rfl, fun _ _ => rfl, rfl, rfl⟩
    (fun _ hk => absurd hk (Nat.not_lt_zero _)) hret

/-- If every page is read and written in full, every byte is. -/
theorem Whole.carried (h : Whole d rd wr) {x : ℕ} (hx : x < d.blkSize) : Carried d rd wr x := by
  have hlen : ∀ i < d.pages, readLen d rd i = d.pgSize := fun i hi => Nat.min_eq_right (h i hi).1
  have hoff : ∀ i ≤ d.pages, offsetAt d rd i = i * d.pgSize := by
    intro i hi
    induction i with
    | zero => simp [offsetAt]
    | succ i ih => rw [offsetAt, ih (by omega), hlen i hi, Nat.succ_mul]
  have hpos := d.pgSize_pos
  have hi : x / d.pgSize < d.pages := by
    rw [Nat.div_lt_iff_lt_mul hpos, ← d.blkSize_eq]
    exact hx
  have hdiv := Nat.div_add_mod' x d.pgSize
  have hmod := Nat.mod_lt x hpos
  refine ⟨x / d.pgSize, hi, ⟨hi, fun k hk => ?_⟩, ?_, ?_⟩
  · rw [hlen k (by omega)]
    omega
  · rw [hoff _ hi.le]
    omega
  · rw [hoff _ hi.le, hlen _ hi, writeLen, Nat.min_eq_right (h _ hi).2, Nat.min_self]
    omega

end

/-- Blocks of four pages of four bytes, of which the copy reads two OOB bytes. -/
def small : Desc := { pgShift := 2, blkShift := 4, oobsize := 8, pgShift_le := by decide }

/-- The driver serves requests in full. -/
def inFull : ℕ → OpResult := fun _ => { ret := 0, retlen := 4, oobretlen := 2 }

/-- The driver finds nothing to read on the second page. -/
def emptyAtOne : ℕ → OpResult :=
  fun i => { ret := 0, retlen := if i = 1 then 0 else 4, oobretlen := 2 }

/-- Block 0 holds data, block 1 is erased. -/
def erasedTarget (oobByte : UInt8) : State where
  data := fun a => if a < 16 then UInt8.ofNat a else 0xff
  oob := fun page k => if page = 0 ∧ k = 1 then oobByte else 0xff
  dataBuf := fun _ => 0xff
  oobBuf := fun _ => 0

end NeonWrt.Bmt.Copy
