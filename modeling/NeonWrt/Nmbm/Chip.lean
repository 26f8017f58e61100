import NeonWrt.Lib.Binary

/-!
# The NAND chip below NMBM

The driver reaches the chip through page reads and writes, block erasures and bad
block marks, each of which may fail at any time. The failures are a `Faults`
value, indexed by the number of operations made so far, so that every pattern of
failures is one such value. A read that succeeds returns what the page holds; a
write or an erasure that fails may leave anything in its page or block.

Addresses are pairs of a block and a page in it: the driver only uses addresses
at page boundaries. Of a page the data is modelled, not the OOB area.
-/

namespace NeonWrt.Nmbm

open Lib

/-- The part of `bmtd` and the MTD device that NMBM uses. The number of blocks is a
`u16`. -/
structure Geometry where
  blkSize : ℕ
  pgSize : ℕ
  totalBlks : ℕ
  oobSize : ℕ
  bitflipThreshold : ℕ
  eccStrength : ℕ
  blkSize_pos : 0 < blkSize
  pgSize_pos : 0 < pgSize
  totalBlks_lt : totalBlks < 65536

/-! The sizes of a block and a page on the small chips that runs are shown on. -/

theorem smallBlock_pos : 0 < 256 := by decide

theorem smallPage_pos : 0 < 64 := by decide

/-- The results of the chip's operations, by the number of earlier operations, with
what failed writes and erasures leave. -/
structure Faults where
  read : ℕ → ℤ
  write : ℕ → ℤ
  torn : ℕ → Bytes
  erase : ℕ → ℤ
  residue : ℕ → ℕ → Bytes
  isBad : ℕ → ℕ → Bool

/-- The contents of the pages, by block and page, and the number of operations. -/
structure Chip where
  pages : ℕ → ℕ → Bytes
  clock : ℕ

variable (g : Geometry) (flt : Faults)

/-- `-EBADMSG`. -/
def eBadMsg : ℤ := -74

/-- `-EUCLEAN`. -/
def eUclean : ℤ := -117

/-- `NMBM_TRY_COUNT`. -/
def tryCount : ℕ := 3

/-- `size2blk`. -/
def size2blk (size : ℕ) : ℕ := (size + g.blkSize - 1) / g.blkSize

/-- The number of pages in a block. -/
def pagesPerBlock : ℕ := g.blkSize / g.pgSize

/-- One more operation. -/
def Chip.tick (c : Chip) : Chip := { c with clock := c.clock + 1 }

/-- A page gets new contents. -/
def Chip.setPage (c : Chip) (ba page : ℕ) (data : Bytes) : Chip :=
  { c with pages := fun b p => if b = ba ∧ p = page then data else c.pages b p }

/-- A block gets new contents. -/
def Chip.setBlock (c : Chip) (ba : ℕ) (data : ℕ → Bytes) : Chip :=
  { c with pages := fun b p => if b = ba then data p else c.pages b p }

/-- The `_write_oob` of the chip. -/
def Chip.write (ba page : ℕ) (data : Bytes) (c : Chip) : Chip × ℤ :=
  let ret := flt.write c.clock
  ((c.setPage ba page (if ret = 0 then data else flt.torn c.clock)).tick, ret)

/-- The `_erase` of the chip. -/
def Chip.erase (ba : ℕ) (c : Chip) : Chip × ℤ :=
  let ret := flt.erase c.clock
  let blank := List.replicate g.pgSize 0xff
  ((c.setBlock ba fun p => if ret = 0 then blank else flt.residue c.clock p).tick, ret)

/-- The tries of `nmbm_read_phys_page`. -/
def readTries : ℕ → ℤ → Chip → Chip × ℤ
  | 0, ret, c => (c, ret)
  | n + 1, _, c =>
    let ret := flt.read c.clock
    if ret = eUclean then (c.tick, min (g.bitflipThreshold + 1) g.eccStrength)
    else if 0 ≤ ret then (c.tick, 0)
    else readTries n ret c.tick

/-- `nmbm_read_phys_page`; the data read is the contents of the page. -/
def readPhysPage (c : Chip) : Chip × ℤ := readTries g flt tryCount 0 c

/-- The tries of `nmbm_write_phys_page`. -/
def writeTries (ba page : ℕ) (data : Bytes) : ℕ → Chip → Chip × Bool
  | 0, c => (c, false)
  | n + 1, c =>
    let w := c.write flt ba page data
    if w.2 = 0 then (w.1, true) else writeTries ba page data n w.1

/-- `nmbm_write_phys_page`. -/
def writePhysPage (ba page : ℕ) (data : Bytes) (c : Chip) : Chip × Bool :=
  writeTries flt ba page data tryCount c

/-- The tries of `nmbm_erase_phys_block`. -/
def eraseTries (ba : ℕ) : ℕ → Chip → Chip × Bool
  | 0, c => (c, false)
  | n + 1, c =>
    let e := c.erase g flt ba
    if e.2 = 0 then (e.1, true) else eraseTries ba n e.1

/-- `nmbm_erase_phys_block`. -/
def erasePhysBlock (ba : ℕ) (c : Chip) : Chip × Bool := eraseTries g flt ba tryCount c

/-- `nmbm_check_bad_phys_block`. -/
def checkBadPhysBlock (ba : ℕ) (c : Chip) : Chip × Bool := (c.tick, flt.isBad c.clock ba)

/-- `nmbm_mark_phys_bad_block`; what it leaves is seen through `Faults.isBad`. -/
def markPhysBadBlock (_ba : ℕ) (c : Chip) : Chip := c.tick

/-- The loop of `nmbm_erase_block_and_check` over the pages. -/
def checkEmptyPages : ℕ → Chip → Chip × Bool
  | 0, c => (c, true)
  | n + 1, c =>
    let r := readPhysPage g flt c
    if r.2 = eBadMsg then (r.1, false) else checkEmptyPages n r.1

/-- `nmbm_erase_block_and_check`. -/
def eraseBlockAndCheck (emptyPageEccOk : Bool) (ba : ℕ) (c : Chip) : Chip × Bool :=
  let e := erasePhysBlock g flt ba c
  if !e.2 then (e.1, false)
  else if !emptyPageEccOk then (e.1, true)
  else checkEmptyPages g flt (pagesPerBlock g) e.1

/-- The loop of `nmbn_read_data`, from a page on. -/
def readLoop (ba : ℕ) : ℕ → ℕ → ℕ → Bytes → Chip → Chip × ℤ × Bytes
  | 0, _, _, data, c => (c, 0, data)
  | n + 1, page, remain, data, c =>
    if remain = 0 then (c, 0, data)
    else
      let chunk := min g.pgSize remain
      let r := readPhysPage g flt c
      if r.2 < 0 then (r.1, r.2, data)
      else readLoop ba n (page + 1) (remain - chunk) (data ++ (c.pages ba page).take chunk) r.1

/-- `nmbn_read_data`. -/
def readData (ba page size : ℕ) (c : Chip) : Chip × ℤ × Bytes :=
  readLoop g flt ba size page size [] c

/-- The loop of `nmbn_write_verify_data`, from a page on. -/
def writeVerifyLoop (ba : ℕ) : ℕ → ℕ → Bytes → Chip → Chip × Bool
  | 0, _, _, c => (c, true)
  | n + 1, page, data, c =>
    if data = [] then (c, true)
    else
      let chunk := data.take g.pgSize
      let buf := chunk ++ List.replicate (g.pgSize - chunk.length) 0xff
      let w := writePhysPage flt ba page buf c
      let r := readPhysPage g flt w.1
      if !w.2 then (w.1, false)
      else if r.2 < 0 then (r.1, false)
      else if (r.1.pages ba page).take chunk.length ≠ chunk then (r.1, false)
      else writeVerifyLoop ba n (page + 1) (data.drop g.pgSize) r.1

/-- `nmbn_write_verify_data`. -/
def writeVerifyData (ba : ℕ) (data : Bytes) (c : Chip) : Chip × Bool :=
  writeVerifyLoop g flt ba data.length 0 data c

/-- The loop of `nmbm_write_repeated_data` over the pages. -/
def writeRepeatedLoop (ba : ℕ) (data : Bytes) : ℕ → ℕ → Chip → Chip × Bool
  | 0, _, c => (c, true)
  | n + 1, page, c =>
    let buf := data ++ List.replicate (g.pgSize - data.length) 0xff
    let w := writePhysPage flt ba page buf c
    let r := readPhysPage g flt w.1
    if !w.2 then (w.1, false)
    else if r.2 < 0 then (r.1, false)
    else if (r.1.pages ba page).take data.length ≠ data then (r.1, false)
    else writeRepeatedLoop ba data n (page + 1) r.1

/-- `nmbm_write_repeated_data`. -/
def writeRepeatedData (ba : ℕ) (data : Bytes) (c : Chip) : Chip × Bool :=
  if g.pgSize < data.length then (c, false)
  else writeRepeatedLoop g flt ba data (pagesPerBlock g) 0 c

/-- `bbt_nand_erase`. -/
def bbtNandErase (ba : ℕ) (c : Chip) : Chip := (c.erase g flt ba).1

/-- The loop of `bbt_nand_copy` over the pages. -/
def bbtNandCopyLoop (dest src maxOffset : ℕ) : ℕ → ℕ → Chip → Chip
  | 0, _, c => c
  | n + 1, page, c =>
    if maxOffset ≤ page * g.pgSize then c
    else
      let ret := flt.read c.clock
      let w := c.tick.write flt dest page (c.pages src page)
      if ret < 0 ∧ ret ≠ eUclean then c.tick
      else if w.2 < 0 then w.1
      else bbtNandCopyLoop dest src maxOffset n (page + 1) w.1

/-- `bbt_nand_copy`. -/
def bbtNandCopy (dest src maxOffset : ℕ) (c : Chip) : Chip :=
  bbtNandCopyLoop g flt dest src maxOffset (pagesPerBlock g) 0 c

/-- The bytes that pages of a block hold, as far as a size. -/
def pageRange (c : Chip) (ba : ℕ) : ℕ → ℕ → ℕ → Bytes
  | 0, _, _ => []
  | n + 1, page, remain =>
    if remain = 0 then []
    else (c.pages ba page).take (min g.pgSize remain) ++
      pageRange c ba n (page + 1) (remain - min g.pgSize remain)

/-- The first bytes of a block. -/
def blockBytes (c : Chip) (ba size : ℕ) : Bytes := pageRange g c ba size 0 size

/-- The contents agree on every block outside a range. -/
def SameOutside (lo hi : ℕ) (c c' : Chip) : Prop :=
  ∀ ba, ba < lo ∨ hi ≤ ba → c'.pages ba = c.pages ba

theorem SameOutside.refl (lo hi : ℕ) (c : Chip) : SameOutside lo hi c c := fun _ _ => rfl

theorem SameOutside.trans {lo hi : ℕ} {c c' c'' : Chip} (h : SameOutside lo hi c c')
    (h' : SameOutside lo hi c' c'') : SameOutside lo hi c c'' :=
  fun ba hba => (h' ba hba).trans (h ba hba)

theorem SameOutside.mono {lo hi lo' hi' : ℕ} {c c' : Chip} (h : SameOutside lo hi c c')
    (hlo : lo' ≤ lo) (hhi : hi ≤ hi') : SameOutside lo' hi' c c' :=
  fun ba hba => h ba (by omega)

variable {g flt} {c c' : Chip} {ba page n : ℕ}

@[simp] theorem tick_pages (c : Chip) : c.tick.pages = c.pages := rfl

@[simp] theorem markPhysBadBlock_pages (ba : ℕ) (c : Chip) :
    (markPhysBadBlock ba c).pages = c.pages := rfl

@[simp] theorem checkBadPhysBlock_pages (ba : ℕ) (c : Chip) :
    (checkBadPhysBlock flt ba c).1.pages = c.pages := rfl

theorem write_sameOutside (data : Bytes) (c : Chip) :
    SameOutside ba (ba + 1) c (c.write flt ba page data).1 := by
  intro b hb
  have hne : b ≠ ba := by omega
  funext p
  simp [Chip.write, Chip.setPage, hne]

theorem erase_sameOutside (c : Chip) : SameOutside ba (ba + 1) c (c.erase g flt ba).1 := by
  intro b hb
  have hne : b ≠ ba := by omega
  funext p
  simp [Chip.erase, Chip.setBlock, hne]

theorem readTries_pages (n : ℕ) (ret : ℤ) (c : Chip) :
    (readTries g flt n ret c).1.pages = c.pages := by
  induction n generalizing ret c with
  | zero => rfl
  | succ n ih =>
    unfold readTries
    dsimp only
    split_ifs
    · rfl
    · rfl
    · exact ih _ _

@[simp] theorem readPhysPage_pages (c : Chip) : (readPhysPage g flt c).1.pages = c.pages :=
  readTries_pages _ _ _

theorem writePhysPage_sameOutside (data : Bytes) (c : Chip) :
    SameOutside ba (ba + 1) c (writePhysPage flt ba page data c).1 := by
  unfold writePhysPage
  generalize tryCount = n
  induction n generalizing c with
  | zero => exact .refl _ _ _
  | succ n ih =>
    unfold writeTries
    dsimp only
    split_ifs
    · exact write_sameOutside data c
    · exact (write_sameOutside data c).trans (ih _)

theorem erasePhysBlock_sameOutside (c : Chip) :
    SameOutside ba (ba + 1) c (erasePhysBlock g flt ba c).1 := by
  unfold erasePhysBlock
  generalize tryCount = n
  induction n generalizing c with
  | zero => exact .refl _ _ _
  | succ n ih =>
    unfold eraseTries
    dsimp only
    split_ifs
    · exact erase_sameOutside c
    · exact (erase_sameOutside c).trans (ih _)

@[simp] theorem checkEmptyPages_pages (n : ℕ) (c : Chip) :
    (checkEmptyPages g flt n c).1.pages = c.pages := by
  induction n generalizing c with
  | zero => rfl
  | succ n ih =>
    unfold checkEmptyPages
    dsimp only
    split_ifs
    · exact readPhysPage_pages c
    · rw [ih, readPhysPage_pages]

/-- Erasing a block leaves the other blocks alone. -/
theorem eraseBlockAndCheck_sameOutside (ecc : Bool) (c : Chip) :
    SameOutside ba (ba + 1) c (eraseBlockAndCheck g flt ecc ba c).1 := by
  have herase := @erasePhysBlock_sameOutside g flt ba c
  unfold eraseBlockAndCheck
  dsimp only
  split_ifs
  · exact herase
  · exact herase
  · intro b hb
    rw [checkEmptyPages_pages]
    exact herase b hb

theorem writeRead_sameOutside (data : Bytes) (c : Chip) :
    SameOutside ba (ba + 1) c (readPhysPage g flt (writePhysPage flt ba page data c).1).1 := by
  intro b hb
  rw [readPhysPage_pages]
  exact writePhysPage_sameOutside data c b hb

/-- Writing to a block leaves the other blocks alone. -/
theorem writeVerifyData_sameOutside (data : Bytes) (c : Chip) :
    SameOutside ba (ba + 1) c (writeVerifyData g flt ba data c).1 := by
  unfold writeVerifyData
  generalize data.length = n
  generalize 0 = page
  induction n generalizing page data c with
  | zero => exact .refl _ _ _
  | succ n ih =>
    unfold writeVerifyLoop
    dsimp only
    split_ifs
    · exact .refl _ _ _
    · exact writePhysPage_sameOutside _ c
    · exact writeRead_sameOutside _ c
    · exact writeRead_sameOutside _ c
    · exact (writeRead_sameOutside _ c).trans (ih _ _ _)

/-- Copying to a block leaves the other blocks alone. -/
theorem bbtNandCopy_sameOutside (dest src maxOffset : ℕ) (c : Chip) :
    SameOutside dest (dest + 1) c (bbtNandCopy g flt dest src maxOffset c) := by
  unfold bbtNandCopy
  generalize pagesPerBlock g = n
  generalize 0 = page
  induction n generalizing page c with
  | zero => exact .refl _ _ _
  | succ n ih =>
    have hwrite : SameOutside dest (dest + 1) c
        (c.tick.write flt dest page (c.pages src page)).1 := write_sameOutside _ c.tick
    unfold bbtNandCopyLoop
    dsimp only
    split_ifs
    · exact .refl _ _ _
    · exact .refl _ _ _
    · exact hwrite
    · exact hwrite.trans (ih _ _)

@[simp] theorem readLoop_pages (n page remain : ℕ) (data : Bytes) (c : Chip) :
    (readLoop g flt ba n page remain data c).1.pages = c.pages := by
  induction n generalizing page remain data c with
  | zero => rfl
  | succ n ih =>
    unfold readLoop
    dsimp only
    split_ifs
    · rfl
    · exact readPhysPage_pages c
    · rw [ih, readPhysPage_pages]

@[simp] theorem readData_pages (ba page size : ℕ) (c : Chip) :
    (readData g flt ba page size c).1.pages = c.pages := readLoop_pages _ _ _ _ _

theorem pageRange_congr (h : c'.pages ba = c.pages ba) (n page remain : ℕ) :
    pageRange g c' ba n page remain = pageRange g c ba n page remain := by
  induction n generalizing page remain with
  | zero => rfl
  | succ n ih => simp only [pageRange, h, ih]

/-- A read that succeeds returns the contents. -/
theorem readLoop_ok {remain : ℕ} {data : Bytes}
    (h : 0 ≤ (readLoop g flt ba n page remain data c).2.1) :
    (readLoop g flt ba n page remain data c).2.2 = data ++ pageRange g c ba n page remain := by
  induction n generalizing page remain data c with
  | zero => simp [readLoop, pageRange]
  | succ n ih =>
    unfold readLoop at h ⊢
    unfold pageRange
    dsimp only at h ⊢
    split_ifs at h ⊢ with hremain hret
    · simp
    · exact absurd h (Int.not_le.mpr hret)
    · have hpages : (readPhysPage g flt c).1.pages ba = c.pages ba := by rw [readPhysPage_pages]
      rw [ih h, pageRange_congr hpages, List.append_assoc]

/-- A read of the start of a block that succeeds returns its contents. -/
theorem readData_ok {size : ℕ} (h : 0 ≤ (readData g flt ba 0 size c).2.1) :
    (readData g flt ba 0 size c).2.2 = blockBytes g c ba size := by
  have hdata := readLoop_ok h
  simpa [blockBytes, readData] using hdata

end NeonWrt.Nmbm
