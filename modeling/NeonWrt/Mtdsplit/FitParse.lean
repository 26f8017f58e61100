import NeonWrt.Mtdsplit.WfiSplit

/-!
# The split behind a FIT image

`mtdsplit_fit_parse` of `mtdsplit_fit.c`. It looks for the header of a FIT at the erase blocks of a
device, `openwrt,fit-offset` behind the start of each. For a large one it looks for a root file
system behind the FIT, and for a small one it reads the FIT into a buffer, and makes a partition
behind the last of the images that the nodes of the FIT describe. If no header is found it goes on
with the one that was read last. Memory is always allocated; `libfdt` and the reads of the flash
are parameters.

The numbers of a FIT are taken as they are. So an image may end behind the device, and the
partition behind it then has a size that wraps; and a property of an `int` or a sum of `size_t`
may say that an image ends before it does. The FIT is read from the start of the block and with
the length of `openwrt,fit-offset` added, but the buffer has only the length of the FIT.
-/

namespace NeonWrt.Mtdsplit

open Lib

/-- The error `-EIO`. -/
def eIo : ℤ := -5

/-- A device: its CPU and the width of `size_t`, the size of its blocks, its size, what is on the
flash, and what `mtd_read` returns for an offset and a length. The offsets that the loops come to
fit `size_t`. A read that succeeds is of the whole length, which lies in the device. -/
structure FitDevice where
  endian : Endian
  wide : Bool
  erasesize : ℕ
  erasesize_pos : 0 < erasesize
  size : ℕ
  addressable : size + erasesize + 0x80000 ≤ 2 ^ (if wide then 64 else 32)
  flash : Memory
  read : ℕ → ℕ → ReadResult
  read_ok : ∀ from' len, (read from' len).rc = 0 →
    (read from' len).retlen = len ∧ from' + len ≤ size

/-- The big-endian word in memory. -/
def be32 (mem : Memory) (p : ℕ) : ℕ := Endian.getU32 .big (slice mem p 4) 0

/-- The memory from an address on. -/
def Memory.from (mem : Memory) (p : ℕ) : Memory := fun i => mem (p + i)

section Device

variable (d : FitDevice)

/-- The number of values of `size_t`. -/
def FitDevice.sizeT : ℕ := 2 ^ (if d.wide then 64 else 32)

theorem FitDevice.le_sizeT : 2 ^ 32 ≤ d.sizeT := by
  rw [FitDevice.sizeT]
  split_ifs <;> decide

theorem FitDevice.sizeT_le : d.sizeT ≤ 2 ^ 64 := by
  rw [FitDevice.sizeT]
  split_ifs <;> decide

theorem FitDevice.size_le : d.size + d.erasesize + 0x80000 ≤ d.sizeT := d.addressable

/-- `mtd_roundup_to_eb`, whose product has 32 bits. -/
def mtdRoundupToEb (sz : ℕ) : ℕ :=
  if sz % d.erasesize = 0 then sz else (sz / d.erasesize % 2 ^ 32 + 1) * d.erasesize % 2 ^ 32

/-- `mtd_rounddown_to_eb`, whose product has 32 bits. -/
def mtdRounddownToEb (sz : ℕ) : ℕ :=
  if sz % d.erasesize = 0 then sz else sz / d.erasesize % 2 ^ 32 * d.erasesize % 2 ^ 32

/-- `mtd_next_eb` -/
def mtdNextEb (offset : ℕ) : ℕ := (mtdRounddownToEb d offset + d.erasesize) % d.sizeT

/-- `enum mtdsplit_part_type`, as far as it is found. -/
inductive PartType where
  | squashfs
  | jffs2
  | ubi
  deriving DecidableEq, Repr

/-- `SQUASHFS_MAGIC` -/
def squashfsMagic : ℕ := 0x73717368

/-- `mtd_check_rootfs_magic`: the type, or none for an error. -/
def mtdCheckRootfsMagic (offset : ℕ) : Option PartType :=
  let magic := slice d.flash offset 4
  if (d.read offset 4).rc ≠ 0 ∨ (d.read offset 4).retlen ≠ 4 then none
  else if Endian.getU32 .little magic 0 = squashfsMagic then some .squashfs
  else if d.endian.getU32 magic 0 = 0x19852003 then some .jffs2
  else if Endian.getU32 .big magic 0 = ubiMagic then some .ubi
  else none

/-- `mtd_find_rootfs_from` up to the end of the device, for some passes of its loop: the offset and
the type, or none for `-ENOENT`. -/
def mtdFindRootfsFrom : ℕ → ℕ → Option (Option (ℕ × PartType))
  | 0, _ => none
  | fuel + 1, offset =>
    if offset < d.size then
      match mtdCheckRootfsMagic d offset with
      | some type => some (some (offset, type))
      | none => mtdFindRootfsFrom fuel (mtdNextEb d offset)
    else some none

end Device

/-- A node of a tree, by what `fdt_getprop` gives for a name: the offset of the value in the tree,
and its length. -/
abbrev FdtNode := String → Option (ℕ × ℕ)

/-- `libfdt`: the nodes that `fdt_next_node` gives from `/images` on, each with its depth, if
`fdt_path_offset` finds it; and how far into memory it looks. -/
structure LibFdt where
  walk : Memory → Option (List (ℤ × FdtNode))
  looks : Memory → ℕ
  looks_only : ∀ m m' : Memory, (∀ i < looks m, m i = m' i) → walk m' = walk m

/-- The nodes that the loop over the images looks at. -/
def imageNodes (nodes : List (ℤ × FdtNode)) : List FdtNode :=
  ((nodes.takeWhile fun n => 0 < n.1).filter fun n => n.1 = 1).map Prod.snd

/-- A word as an `int`. -/
def toInt32 (n : ℕ) : ℤ := if n % 2 ^ 32 < 2 ^ 31 then n % 2 ^ 32 else n % 2 ^ 32 - 2 ^ 32

section Node

variable (mem : Memory) (node : FdtNode)

/-- Where the external data of a FIT begins. -/
def externalStart : ℕ := (be32 mem 4 + 3) % 2 ^ 32 / 4 * 4

/-- `fit_image_get_data_and_size`: `*data - fit` and the size, or none for an error. -/
def fitImageGetDataAndSize : Option (ℤ × ℤ) :=
  match node "data-position" with
  | some (position, _) =>
    (node "data-size").map fun size => (toInt32 (be32 mem position), toInt32 (be32 mem size.1))
  | none =>
    match node "data-offset" with
    | some (offset, _) =>
      (node "data-size").map fun size =>
        (toInt32 (be32 mem offset + externalStart mem), toInt32 (be32 mem size.1))
    | none => (node "data").map fun data => ((data.1 : ℤ), (data.2 : ℤ))

/-- The words of the tree that `fit_image_get_data_and_size` reads. -/
def dataCells : List ℕ :=
  match node "data-position" with
  | some (position, _) => position :: ((node "data-size").map Prod.fst).toList
  | none =>
    match node "data-offset" with
    | some (offset, _) => offset :: 4 :: ((node "data-size").map Prod.fst).toList
    | none => []

/-- The end of the image that a node describes, in the FIT. -/
def imageEnd : Option ℕ :=
  match node "data-position" with
  | some (position, _) =>
    (node "data-size").map fun size => be32 mem position + be32 mem size.1
  | none =>
    match node "data-offset" with
    | some (offset, _) =>
      (node "data-size").map fun size =>
        (be32 mem 4 + 3) / 4 * 4 + be32 mem offset + be32 mem size.1
    | none => (node "data").map fun data => data.1 + data.2

end Node

/-- The words that the loop over the images reads: those of the nodes up to the first that has no
data. -/
def loopCells (mem : Memory) : List FdtNode → List ℕ
  | [] => []
  | node :: nodes =>
    dataCells node ++ if (fitImageGetDataAndSize mem node).isSome then loopCells mem nodes else []

/-- The ends of the images that a FIT describes. -/
def imageEnds (fdt : LibFdt) (mem : Memory) : List ℕ :=
  ((fdt.walk mem).elim [] imageNodes).filterMap (imageEnd mem)

/-- What the parser is called with: a device, `libfdt`, `openwrt,cmdline-match` if it is there and
the command line, `openwrt,fit-offset` or 0, and what lies in memory in place of the header and
behind the buffer. -/
structure FitEnv where
  dev : FitDevice
  fdt : LibFdt
  cmdlineMatch : Option Bytes
  savedCommandLine : Bytes
  offsetStart : ℕ
  offsetStart_lt : offsetStart < 2 ^ 32
  stack : Memory
  behind : Memory

section Parse

variable (e : FitEnv)

/-- `OF_DT_HEADER` -/
def ofDtHeader : ℕ := 0xd00dfeed

/-- Where the search reads for an offset. -/
def FitEnv.headerAt (offset : ℕ) : ℕ := (offset + e.offsetStart) % e.dev.sizeT

/-- How the search for the header ends: with an error, or with an offset and the header that was
read last, which has the magic or not. -/
inductive HeaderSearch where
  | failed (rc : ℤ)
  | done (offset : ℕ) (found : Bool) (hdr : Memory)

/-- The search for the header of a FIT. -/
def fitSearch (hdr : Memory) (offset : ℕ) : HeaderSearch :=
  if offset + 40 ≤ e.dev.size then
    let r := e.dev.read (e.headerAt offset) 40
    if r.rc ≠ 0 then .failed r.rc
    else if r.retlen ≠ 40 then .failed eIo
    else
      let hdr' := e.dev.flash.from (e.headerAt offset)
      if be32 hdr' 0 ≠ ofDtHeader then fitSearch hdr' (offset + e.dev.erasesize)
      else .done offset true hdr'
  else .done offset false hdr
  termination_by e.dev.size - offset
  decreasing_by
    have := e.dev.erasesize_pos
    omega

/-- The result of the read of the FIT. -/
def FitEnv.fitRead (offset total : ℕ) : ReadResult :=
  e.dev.read offset ((total + e.offsetStart) % e.dev.sizeT)

/-- The buffer behind that read, with the memory behind it. -/
def FitEnv.buffer (offset total : ℕ) : Memory := fun i =>
  if i < (e.fitRead offset total).retlen then e.dev.flash (offset + i)
  else if i < total then 0 else e.behind i

/-- `img_total` -/
def imgTotal (data : ℤ × ℤ) : ℕ := ((data.2 + data.1) % e.dev.sizeT).toNat

/-- The loop over the images: `max_size`, or none if a node has no data. -/
def imagesLoop (mem : Memory) : List FdtNode → ℕ → Option ℕ
  | [], maxSize => some maxSize
  | node :: nodes, maxSize =>
    match fitImageGetDataAndSize mem node with
    | none => none
    | some data => imagesLoop mem nodes (max maxSize (imgTotal e data))

/-- The partitions for a large FIT. -/
def largeParts (offset total rootfs : ℕ) (type : PartType) : List Partition :=
  [⟨"kernel", offset, mtdRoundupToEb e.dev ((total + e.offsetStart) % e.dev.sizeT), false⟩,
    ⟨if type = .ubi then "ubi" else "rootfs", rootfs, e.dev.size - rootfs, false⟩]

/-- The parser for a large FIT, for some passes of the search for the root file system. -/
def parseLarge (fuel offset total : ℕ) : Option ParserResult :=
  match mtdFindRootfsFrom e.dev fuel ((offset + total + e.offsetStart) % e.dev.sizeT) with
  | none => none
  | some none => some (eNoEnt, [])
  | some (some (rootfs, type)) => some (2, largeParts e offset total rootfs type)

/-- The parser for a small FIT. -/
def parseSmall (offset total : ℕ) : ParserResult :=
  if (e.fitRead offset total).rc ≠ 0 then ((e.fitRead offset total).rc, [])
  else
    match e.fdt.walk (e.buffer offset total) with
    | none => (eNoEnt, [])
    | some nodes =>
      match imagesLoop e (e.buffer offset total) (imageNodes nodes) 0 with
      | none => (0, [])
      | some maxSize =>
        let start := (offset + mtdRoundupToEb e.dev maxSize) % 2 ^ 64
        (1, [⟨"rootfs_data", start, (e.dev.size + 2 ^ 64 - start) % 2 ^ 64, false⟩])

/-- The parser is not disabled: the command line has the text that is looked for in it. -/
def FitEnv.enabled : Bool :=
  e.cmdlineMatch.all fun text => e.savedCommandLine.tails.any text.isPrefixOf

/-- `mtdsplit_fit_parse`, for some passes of the search for the root file system. -/
def mtdsplitFitParse (fuel : ℕ) : Option ParserResult :=
  if e.enabled = false then some (eNoEnt, [])
  else
    match fitSearch e e.stack 0 with
    | .failed rc => some (rc, [])
    | .done offset _ hdr =>
      if be32 hdr 4 = 0 then some (eNoEnt, [])
      else if 0x80000 < be32 hdr 4 then parseLarge e fuel offset (be32 hdr 4)
      else some (parseSmall e offset (be32 hdr 4))

/-- What is written to the buffer and read of it, each piece with its length: by `mtd_read`, by
`libfdt`, and by the loop over the images. -/
def bufAccesses (offset total : ℕ) : List (ℕ × ℕ) :=
  let mem := e.buffer offset total
  (0, (e.fitRead offset total).retlen) ::
    if (e.fitRead offset total).rc ≠ 0 then []
    else (0, e.fdt.looks mem) ::
      (loopCells mem ((e.fdt.walk mem).elim [] imageNodes)).map fun cell => (cell, 4)

/-- The search for the header ends at an erase block. Those before it are read and have no magic;
and it is read and has the magic, or no header is found and it has no room for one. -/
structure EndsAt (block : ℕ) (found : Bool) : Prop where
  before : ∀ b < block, b * e.dev.erasesize + 40 ≤ e.dev.size ∧
    (e.dev.read (e.headerAt (b * e.dev.erasesize)) 40).rc = 0 ∧
    be32 e.dev.flash (e.headerAt (b * e.dev.erasesize)) ≠ ofDtHeader
  here : if found then block * e.dev.erasesize + 40 ≤ e.dev.size ∧
      (e.dev.read (e.headerAt (block * e.dev.erasesize)) 40).rc = 0 ∧
      be32 e.dev.flash (e.headerAt (block * e.dev.erasesize)) = ofDtHeader
    else e.dev.size < block * e.dev.erasesize + 40

/-- The header that was read last. -/
def lastHeader (block : ℕ) (found : Bool) : Memory :=
  match found, block with
  | true, block => e.dev.flash.from (e.headerAt (block * e.dev.erasesize))
  | false, 0 => e.stack
  | false, block + 1 => e.dev.flash.from (e.headerAt (block * e.dev.erasesize))

/-- A buffer for a FIT is allocated, for the FIT at an erase block. -/
def Allocates (block total : ℕ) : Prop :=
  e.enabled ∧ ∃ found, EndsAt e block found ∧ total = be32 (lastHeader e block found) 4 ∧
    0 < total ∧ total ≤ 0x80000

/-- The buffer is used as far as it is allocated; the partitions that are returned lie in the
device; and the last of them lies behind the FIT and the images that it describes. -/
structure FitSound : Prop where
  inBuffer : ∀ block total, Allocates e block total →
    ∀ a ∈ bufAccesses e (block * e.dev.erasesize) total, a.1 + a.2 ≤ total
  inside : ∀ fuel r, mtdsplitFitParse e fuel = some r →
    ∀ p ∈ r.2, p.offset + p.size ≤ e.dev.size
  behind : ∀ fuel r, mtdsplitFitParse e fuel = some r → ∀ p ∈ r.2.getLast?,
    ∀ block, EndsAt e block true →
      let fit := e.headerAt (block * e.dev.erasesize)
      fit + be32 e.dev.flash (fit + 4) ≤ p.offset ∧
        ∀ o ∈ imageEnds e.fdt (e.dev.flash.from fit), fit + o ≤ p.offset

/-- A large FIT is fine: it ends in the device with its last block, and where the search finds a
root file system, which may wrap, the FIT and its images end before. -/
def LargeFine (block total : ℕ) (found : Bool) : Prop :=
  let offset := block * e.dev.erasesize
  let fit := e.headerAt offset
  ∀ fuel rootfs type, mtdFindRootfsFrom e.dev fuel
      ((offset + total + e.offsetStart) % e.dev.sizeT) = some (some (rootfs, type)) →
    offset + mtdRoundupToEb e.dev ((total + e.offsetStart) % e.dev.sizeT) ≤ e.dev.size ∧
      (found = true → fit + total ≤ rootfs ∧
        ∀ o ∈ imageEnds e.fdt (e.dev.flash.from fit), fit + o ≤ rootfs)

/-- The greatest end of an image in the arithmetic of `size_t`, up to the end of its erase block. -/
def topOf (mem : Memory) (nodes : List FdtNode) : ℕ :=
  mtdRoundupToEb e.dev
    (((nodes.filterMap (fitImageGetDataAndSize mem)).map (imgTotal e)).foldl max 0)

/-- A small FIT is fine: no more is read than its length; as far as it is looked at it lies in the
buffer; and if all its images have data, the greatest end of one, up to the end of its erase block,
lies in the device, and behind the FIT and the ends of all images. -/
def SmallFine (block total : ℕ) (found : Bool) : Prop :=
  let offset := block * e.dev.erasesize
  let mem := e.buffer offset total
  (e.fitRead offset total).retlen ≤ total ∧
  ((e.fitRead offset total).rc = 0 → e.fdt.looks mem ≤ total ∧
    ∀ nodes, e.fdt.walk mem = some nodes →
      (∀ cell ∈ loopCells mem (imageNodes nodes), cell + 4 ≤ total) ∧
      ((∀ node ∈ imageNodes nodes, (imageEnd mem node).isSome) →
        if found then
          offset + topOf e mem (imageNodes nodes) ≤ e.dev.size ∧
            total ≤ topOf e mem (imageNodes nodes) ∧
            ∀ o ∈ imageEnds e.fdt mem, o ≤ topOf e mem (imageNodes nodes)
        else (offset + topOf e mem (imageNodes nodes)) % 2 ^ 64 ≤ e.dev.size))

/-- What is on the flash is fine: the parser is disabled, the search fails, or the FIT that it
finds has no length or is fine. -/
def FitFine : Prop :=
  e.enabled → ∀ block found, EndsAt e block found →
    let total := be32 (lastHeader e block found) 4
    0 < total → if 0x80000 < total then LargeFine e block total found
      else SmallFine e block total found

end Parse

section Search

variable {e : FitEnv} {block b total fuel : ℕ} {found found' : Bool} {hdr : Memory}

theorem slice_from (mem : Memory) (a p n : ℕ) : slice (mem.from a) p n = slice mem (a + p) n := by
  simp only [slice, Memory.from, Nat.add_assoc]

@[simp] theorem be32_from (mem : Memory) (a p : ℕ) : be32 (mem.from a) p = be32 mem (a + p) := by
  rw [be32, slice_from, be32]

/-- A block that is read is the end of the search, or the search goes on behind it. -/
theorem fitSearch_of_read {o : ℕ} (hroom : o + 40 ≤ e.dev.size)
    (hread : (e.dev.read (e.headerAt o) 40).rc = 0) :
    fitSearch e hdr o = if be32 e.dev.flash (e.headerAt o) ≠ ofDtHeader then
        fitSearch e (e.dev.flash.from (e.headerAt o)) (o + e.dev.erasesize)
      else .done o true (e.dev.flash.from (e.headerAt o)) := by
  rw [fitSearch, if_pos hroom, if_neg (not_not_intro hread),
    if_neg (not_not_intro (e.dev.read_ok _ _ hread).1)]
  simp only [be32_from, Nat.add_zero]

/-- The search comes from each block before its end to the end. -/
theorem EndsAt.search_eq (h : EndsAt e block found) (hb : b ≤ block) :
    fitSearch e (lastHeader e b false) (b * e.dev.erasesize) =
      .done (block * e.dev.erasesize) found (lastHeader e block found) := by
  induction hb using Nat.decreasingInduction with
  | self =>
    have here := h.here
    cases found with
    | true =>
      obtain ⟨hroom, hread, hmagic⟩ := here
      rw [fitSearch_of_read hroom hread, if_neg (not_not_intro hmagic)]
      rfl
    | false => rw [fitSearch, if_neg (Nat.not_le_of_lt here)]
  | of_succ k hk ih =>
    obtain ⟨hroom, hread, hmagic⟩ := h.before k hk
    rw [fitSearch_of_read hroom hread, if_pos hmagic]
    rw [Nat.succ_mul] at ih
    exact ih

/-- The search ends where its end is described. -/
theorem endsAt_of_fitSearch {offset o : ℕ} {hdr' : Memory} (ho : o = b * e.dev.erasesize)
    (hbefore : ∀ k < b, k * e.dev.erasesize + 40 ≤ e.dev.size ∧
      (e.dev.read (e.headerAt (k * e.dev.erasesize)) 40).rc = 0 ∧
      be32 e.dev.flash (e.headerAt (k * e.dev.erasesize)) ≠ ofDtHeader)
    (h : fitSearch e hdr o = .done offset found hdr') : ∃ block, EndsAt e block found := by
  fun_induction fitSearch e hdr o generalizing b with
  | case1 => cases h
  | case2 => cases h
  | case3 hdr o hroom r hread hlen hdr₁ hmagic =>
    rename_i ih
    subst ho
    refine ih (Nat.succ_mul b _).symm ?_ h
    intro k hk
    rcases Nat.lt_succ_iff_lt_or_eq.mp hk with hk | rfl
    · exact hbefore k hk
    · refine ⟨hroom, not_not.mp hread, ?_⟩
      rwa [be32_from, Nat.add_zero] at hmagic
  | case4 hdr o hroom r hread hlen hdr₁ =>
    rename_i hmagic
    injection h with _ hfound
    subst ho hfound
    refine ⟨b, hbefore, ?_⟩
    refine ⟨hroom, not_not.mp hread, ?_⟩
    rw [← not_not.mp hmagic, be32_from, Nat.add_zero]
  | case5 hdr o hroom =>
    cases h
    subst ho
    exact ⟨b, hbefore, Nat.lt_of_not_le hroom⟩

theorem lastHeader_zero (e : FitEnv) : lastHeader e 0 false = e.stack := rfl

theorem fitSearch_eq_done_iff {offset : ℕ} :
    fitSearch e e.stack 0 = .done offset found hdr ↔ ∃ block, EndsAt e block found ∧
      offset = block * e.dev.erasesize ∧ hdr = lastHeader e block found := by
  constructor
  · intro h
    obtain ⟨block, hend⟩ := endsAt_of_fitSearch (b := 0) (by simp) (by simp) h
    have hdone := hend.search_eq (Nat.zero_le _)
    rw [lastHeader_zero, Nat.zero_mul, h] at hdone
    cases hdone
    exact ⟨block, hend, rfl, rfl⟩
  · rintro ⟨block, hend, rfl, rfl⟩
    have hdone := hend.search_eq (Nat.zero_le _)
    rwa [lastHeader_zero, Nat.zero_mul] at hdone

theorem EndsAt.unique (h : EndsAt e block found) (h' : EndsAt e b found') :
    block = b ∧ found = found' := by
  have hdone := (h.search_eq (Nat.zero_le _)).symm.trans (h'.search_eq (Nat.zero_le _))
  injection hdone with hblock hfound
  exact ⟨Nat.eq_of_mul_eq_mul_right e.dev.erasesize_pos hblock, hfound⟩

theorem EndsAt.parse_eq (h : EndsAt e block found) (hon : e.enabled = true) :
    mtdsplitFitParse e fuel =
      if be32 (lastHeader e block found) 4 = 0 then some (eNoEnt, [])
      else if 0x80000 < be32 (lastHeader e block found) 4 then
        parseLarge e fuel (block * e.dev.erasesize) (be32 (lastHeader e block found) 4)
      else some (parseSmall e (block * e.dev.erasesize) (be32 (lastHeader e block found) 4)) := by
  rw [mtdsplitFitParse, if_neg (by simp [hon]), fitSearch_eq_done_iff.mpr ⟨block, h, rfl, rfl⟩]

theorem total_of_lastHeader (h : be32 (lastHeader e block true) 4 = total) :
    be32 e.dev.flash (e.headerAt (block * e.dev.erasesize) + 4) = total := by
  rwa [lastHeader, be32_from] at h

end Search

section Large

variable {e : FitEnv} {block total fuel o : ℕ} {found : Bool} {found' : Option (ℕ × PartType)}

theorem lt_of_mtdFindRootfsFrom {d : FitDevice} {rootfs : ℕ} {type : PartType}
    (h : mtdFindRootfsFrom d fuel o = some (some (rootfs, type))) : rootfs < d.size := by
  induction fuel generalizing o with
  | zero => cases h
  | succ fuel ih =>
    rw [mtdFindRootfsFrom] at h
    split_ifs at h with hlt
    · cases hcheck : mtdCheckRootfsMagic d o with
      | some t =>
        rw [hcheck] at h
        cases h
        exact hlt
      | none =>
        rw [hcheck] at h
        exact ih h
    · cases h

theorem large_iff (h : EndsAt e block found) (hon : e.enabled = true)
    (htotal : be32 (lastHeader e block found) 4 = total) (hlarge : 0x80000 < total) :
    FitSound e ↔ LargeFine e block total found := by
  have hparse : ∀ fuel, mtdsplitFitParse e fuel =
      parseLarge e fuel (block * e.dev.erasesize) total := by
    intro fuel
    rw [h.parse_eq hon, htotal, if_neg (by omega), if_pos hlarge]
  constructor
  · intro hsound fuel rootfs type hroot
    have hr : mtdsplitFitParse e fuel =
        some (2, largeParts e (block * e.dev.erasesize) total rootfs type) := by
      rw [hparse, parseLarge, hroot]
    refine ⟨hsound.inside fuel _ hr _ (List.mem_cons_self ..), ?_⟩
    rintro rfl
    obtain ⟨hfit, hends⟩ := hsound.behind fuel _ hr _ rfl block h
    rw [total_of_lastHeader htotal] at hfit
    exact ⟨hfit, hends⟩
  · intro hfine
    -- what is returned is made from a root file system that is found, or has no partitions
    have hcases : ∀ fuel r, mtdsplitFitParse e fuel = some r → r.2 = [] ∨
        ∃ rootfs type, mtdFindRootfsFrom e.dev fuel ((block * e.dev.erasesize + total +
          e.offsetStart) % e.dev.sizeT) = some (some (rootfs, type)) ∧
          r.2 = largeParts e (block * e.dev.erasesize) total rootfs type := by
      intro fuel r hr
      rw [hparse, parseLarge] at hr
      split at hr
      · cases hr
      · cases hr
        exact Or.inl rfl
      · rename_i rootfs type hroot
        cases hr
        exact Or.inr ⟨rootfs, type, hroot, rfl⟩
    refine ⟨?_, ?_, ?_⟩
    · rintro block' total' ⟨-, found', hend, rfl, -, hsmall⟩
      obtain ⟨rfl, rfl⟩ := h.unique hend
      omega
    · intro fuel r hr p hp
      rcases hcases fuel r hr with hnil | ⟨rootfs, type, hroot, hparts⟩
      · rw [hnil] at hp
        cases hp
      · rw [hparts] at hp
        rcases List.mem_cons.mp hp with rfl | hp
        · exact (hfine fuel rootfs type hroot).1
        · rw [List.mem_singleton.mp hp]
          have := lt_of_mtdFindRootfsFrom hroot
          simp only
          omega
    · intro fuel r hr p hp block' hend
      obtain ⟨rfl, rfl⟩ := h.unique hend
      rcases hcases fuel r hr with hnil | ⟨rootfs, type, hroot, hparts⟩
      · rw [hnil] at hp
        cases hp
      · rw [hparts] at hp
        cases hp
        obtain ⟨hfit, hends⟩ := (hfine fuel rootfs type hroot).2 rfl
        simp only [total_of_lastHeader htotal]
        exact ⟨hfit, hends⟩

end Large

section Small

variable {e : FitEnv} {block total fuel : ℕ} {found : Bool} {mem mem' : Memory}
  {node : FdtNode} {nodes : List FdtNode}

/-- The code finds data where an image is described. -/
theorem imageEnd_isSome (mem : Memory) (node : FdtNode) : (imageEnd mem node).isSome =
    (fitImageGetDataAndSize mem node).isSome := by
  rw [imageEnd, fitImageGetDataAndSize]
  split
  · simp
  · split <;> simp

/-- The loop gives the greatest end, if all nodes have data. -/
theorem imagesLoop_eq_some {m : ℕ} (h : ∀ node ∈ nodes, (imageEnd mem node).isSome) :
    imagesLoop e mem nodes m =
      some (((nodes.filterMap (fitImageGetDataAndSize mem)).map (imgTotal e)).foldl max m) := by
  induction nodes generalizing m with
  | nil => rfl
  | cons node nodes ih =>
    have hnode := h node (List.mem_cons_self ..)
    rw [imageEnd_isSome] at hnode
    obtain ⟨data, hdata⟩ := Option.isSome_iff_exists.mp hnode
    rw [imagesLoop, hdata, List.filterMap_cons_some hdata, List.map_cons, List.foldl_cons]
    exact ih fun n hn => h n (List.mem_cons_of_mem _ hn)

theorem imagesLoop_eq_none {m : ℕ} (h : ¬∀ node ∈ nodes, (imageEnd mem node).isSome) :
    imagesLoop e mem nodes m = none := by
  induction nodes generalizing m with
  | nil => simp at h
  | cons node nodes ih =>
    rw [imagesLoop]
    cases hdata : fitImageGetDataAndSize mem node with
    | none => rfl
    | some data =>
      refine ih fun hnodes => h ?_
      rw [List.forall_mem_cons]
      exact ⟨by rw [imageEnd_isSome, hdata]; rfl, hnodes⟩

/-- If all nodes have data, the loop reads the words of each. -/
theorem mem_loopCells {cell : ℕ} (h : ∀ node ∈ nodes, (imageEnd mem node).isSome)
    (hnode : node ∈ nodes) (hcell : cell ∈ dataCells node) : cell ∈ loopCells mem nodes := by
  induction nodes with
  | nil => cases hnode
  | cons first nodes ih =>
    rw [List.forall_mem_cons, imageEnd_isSome] at h
    rw [loopCells, if_pos h.1, List.mem_append]
    rcases List.mem_cons.mp hnode with rfl | hnode
    · exact Or.inl hcell
    · exact Or.inr (ih h.2 hnode)

theorem be32_congr {p : ℕ} (h : ∀ i < 4, mem (p + i) = mem' (p + i)) : be32 mem p = be32 mem' p := by
  have hslice : slice mem p 4 = slice mem' p 4 :=
    List.map_congr_left fun i hi => h i (List.mem_range.mp hi)
  rw [be32, hslice, be32]

/-- The end of an image only depends on the words that are read for it. -/
theorem imageEnd_congr (h : ∀ cell ∈ dataCells node, be32 mem cell = be32 mem' cell) :
    imageEnd mem node = imageEnd mem' node := by
  rw [dataCells] at h
  rw [imageEnd, imageEnd]
  cases hpos : node "data-position" with
  | some position =>
    rw [hpos] at h
    cases hsize : node "data-size" with
    | none => rfl
    | some size =>
      simp only [hsize, Option.map_some, Option.toList_some, List.forall_mem_cons] at h ⊢
      rw [h.1, h.2.1]
  | none =>
    rw [hpos] at h
    cases hoff : node "data-offset" with
    | some offset =>
      rw [hoff] at h
      cases hsize : node "data-size" with
      | none => rfl
      | some size =>
        simp only [hsize, Option.map_some, Option.toList_some, List.forall_mem_cons] at h ⊢
        rw [h.1, h.2.1, h.2.2.1]
    | none => rfl

/-- A tree is taken for the same by what looks at it only in some part. -/
theorem imageEnds_congr {fdt : LibFdt} (hsame : ∀ i < total, mem i = mem' i)
    (hlooks : fdt.looks mem ≤ total)
    (hcells : ∀ node ∈ (fdt.walk mem).elim [] imageNodes, ∀ cell ∈ dataCells node,
      cell + 4 ≤ total) :
    imageEnds fdt mem' = imageEnds fdt mem := by
  rw [imageEnds, fdt.looks_only mem mem' fun i hi => hsame i (hi.trans_le hlooks), imageEnds]
  refine List.filterMap_congr fun node hnode => imageEnd_congr fun cell hcell => ?_
  have hin := hcells node hnode cell hcell
  exact be32_congr fun i hi => (hsame _ (by omega)).symm

/-- What is read and written stays in the buffer. -/
theorem inBuffer_iff {offset : ℕ} : (∀ a ∈ bufAccesses e offset total, a.1 + a.2 ≤ total) ↔
    (e.fitRead offset total).retlen ≤ total ∧ ((e.fitRead offset total).rc = 0 →
      e.fdt.looks (e.buffer offset total) ≤ total ∧
        ∀ nodes, e.fdt.walk (e.buffer offset total) = some nodes →
          ∀ cell ∈ loopCells (e.buffer offset total) (imageNodes nodes), cell + 4 ≤ total) := by
  rw [bufAccesses, List.forall_mem_cons, Nat.zero_add]
  refine and_congr_right fun _ => ?_
  by_cases hread : (e.fitRead offset total).rc = 0
  · rw [if_neg (not_not_intro hread), List.forall_mem_cons, Nat.zero_add, List.forall_mem_map]
    simp only [hread, forall_const]
    refine and_congr_right fun _ => ?_
    cases e.fdt.walk (e.buffer offset total) with
    | none => simp [loopCells]
    | some nodes => simp
  · rw [if_pos hread]
    simp [hread]

/-- A FIT that is found and read is at the start of its block, if what is read fits its buffer. -/
theorem offsetStart_eq_zero (h : EndsAt e block true) (hsmall : total ≤ 0x80000)
    (hread : (e.fitRead (block * e.dev.erasesize) total).rc = 0)
    (hlen : (e.fitRead (block * e.dev.erasesize) total).retlen ≤ total) : e.offsetStart = 0 := by
  have hstart := e.offsetStart_lt
  have hsizeT := e.dev.le_sizeT
  -- the first header was read, so it lies in the device
  have hfirst : (e.dev.read (e.headerAt 0) 40).rc = 0 := by
    cases block with
    | zero =>
      have := h.here.2.1
      rwa [Nat.zero_mul] at this
    | succ block =>
      have := (h.before 0 (Nat.succ_pos _)).2.1
      rwa [Nat.zero_mul] at this
  have hin := (e.dev.read_ok _ _ hfirst).2
  rw [FitEnv.headerAt, Nat.zero_add, Nat.mod_eq_of_lt (by omega)] at hin
  have haddr := e.dev.size_le
  have hfull := (e.dev.read_ok _ _ hread).1
  rw [FitEnv.fitRead] at hlen
  rw [hfull, Nat.mod_eq_of_lt (by omega)] at hlen
  omega

/-- A block at the end of which a header is found begins in the device. -/
theorem EndsAt.headerAt_eq (h : EndsAt e block true) (hstart : e.offsetStart = 0) :
    e.headerAt (block * e.dev.erasesize) = block * e.dev.erasesize := by
  have hroom : block * e.dev.erasesize + 40 ≤ e.dev.size := h.here.1
  have haddr := e.dev.size_le
  rw [FitEnv.headerAt, hstart, Nat.add_zero, Nat.mod_eq_of_lt (by omega)]

theorem buffer_eq (hstart : e.offsetStart = 0) (hsmall : total ≤ 0x80000) {offset i : ℕ}
    (hread : (e.fitRead offset total).rc = 0) (hi : i < total) :
    e.buffer offset total i = e.dev.flash.from offset i := by
  have haddr := e.dev.size_le
  have hpos := e.dev.erasesize_pos
  have hfull : (e.fitRead offset total).retlen = total := by
    rw [FitEnv.fitRead, (e.dev.read_ok _ _ hread).1, hstart, Nat.add_zero,
      Nat.mod_eq_of_lt (by omega)]
  rw [FitEnv.buffer, hfull, if_pos hi]
  rfl

theorem topOf_lt : topOf e mem nodes < 2 ^ 64 := by
  have hsizeT := e.dev.sizeT_le
  have hpos : 0 < e.dev.sizeT := Nat.two_pow_pos _
  have htotal : ∀ data, imgTotal e data < 2 ^ 64 := by
    intro data
    rw [imgTotal]
    have hlt := Int.emod_lt_of_pos (data.2 + data.1) (Int.natCast_pos.mpr hpos)
    omega
  have hmax : ∀ (l : List (ℤ × ℤ)) m, m < 2 ^ 64 → (l.map (imgTotal e)).foldl max m < 2 ^ 64 := by
    intro l
    induction l with
    | nil => exact fun m hm => hm
    | cons data l ih => exact fun m hm => ih _ (max_lt hm (htotal data))
  rw [topOf, mtdRoundupToEb]
  split_ifs
  · exact hmax _ 0 (by decide)
  · exact (Nat.mod_lt _ (by decide)).trans (by decide)

/-- The place of a partition up to the end of the device says whether it lies in it. -/
theorem place_iff {size place : ℕ} (hsize : size < 2 ^ 64) (hplace : place < 2 ^ 64) :
    place + (size + 2 ^ 64 - place) % 2 ^ 64 ≤ size ↔ place ≤ size := by
  omega

/-- With images that all have data, a small FIT gives one partition. -/
theorem parseSmall_eq {offset : ℕ} {tree : List (ℤ × FdtNode)}
    (hread : (e.fitRead offset total).rc = 0)
    (hwalk : e.fdt.walk (e.buffer offset total) = some tree)
    (hdata : ∀ node ∈ imageNodes tree, (imageEnd (e.buffer offset total) node).isSome) :
    (parseSmall e offset total).2 = [⟨"rootfs_data",
      (offset + topOf e (e.buffer offset total) (imageNodes tree)) % 2 ^ 64,
      (e.dev.size + 2 ^ 64 -
        (offset + topOf e (e.buffer offset total) (imageNodes tree)) % 2 ^ 64) % 2 ^ 64,
      false⟩] := by
  rw [parseSmall, if_neg (not_not_intro hread), hwalk]
  simp only [imagesLoop_eq_some hdata]
  rfl

theorem parseSmall_eq_nil {offset : ℕ} (h : ¬((e.fitRead offset total).rc = 0 ∧
    ∃ tree, e.fdt.walk (e.buffer offset total) = some tree ∧
      ∀ node ∈ imageNodes tree, (imageEnd (e.buffer offset total) node).isSome)) :
    (parseSmall e offset total).2 = [] := by
  rw [parseSmall]
  split_ifs with hread
  · rfl
  · cases hwalk : e.fdt.walk (e.buffer offset total) with
    | none => rfl
    | some tree =>
      have hdata : ¬∀ node ∈ imageNodes tree, (imageEnd (e.buffer offset total) node).isSome :=
        fun hdata => h ⟨not_not.mp hread, tree, hwalk, hdata⟩
      simp only [imagesLoop_eq_none hdata]

/-- What is promised of the place of the partition behind a small FIT. -/
def PlaceSound (e : FitEnv) (block total : ℕ) (found : Bool) (place : ℕ) : Prop :=
  let fit := e.headerAt (block * e.dev.erasesize)
  place ≤ e.dev.size ∧ (found = true → fit + total ≤ place ∧
    ∀ o ∈ imageEnds e.fdt (e.dev.flash.from fit), fit + o ≤ place)

/-- The promise for a small FIT is one for the buffer and one for the place of the partition. -/
theorem smallSound_iff (h : EndsAt e block found) (hon : e.enabled = true)
    (htotal : be32 (lastHeader e block found) 4 = total) (hpos : 0 < total)
    (hsmall : total ≤ 0x80000) : FitSound e ↔
      (∀ a ∈ bufAccesses e (block * e.dev.erasesize) total, a.1 + a.2 ≤ total) ∧
      ((e.fitRead (block * e.dev.erasesize) total).rc = 0 → ∀ tree,
        e.fdt.walk (e.buffer (block * e.dev.erasesize) total) = some tree →
        (∀ node ∈ imageNodes tree,
          (imageEnd (e.buffer (block * e.dev.erasesize) total) node).isSome) →
        PlaceSound e block total found ((block * e.dev.erasesize +
          topOf e (e.buffer (block * e.dev.erasesize) total) (imageNodes tree)) % 2 ^ 64)) := by
  have hparse : ∀ fuel, mtdsplitFitParse e fuel =
      some (parseSmall e (block * e.dev.erasesize) total) := by
    intro fuel
    rw [h.parse_eq hon, htotal, if_neg (by omega), if_neg (by omega)]
  have hsize : e.dev.size < 2 ^ 64 := by
    have haddr := e.dev.size_le
    have hsizeT := e.dev.sizeT_le
    omega
  constructor
  · intro hsound
    refine ⟨hsound.inBuffer block total ⟨hon, found, h, htotal.symm, hpos, hsmall⟩, ?_⟩
    intro hread tree hwalk hdata
    have hparts := parseSmall_eq hread hwalk hdata
    have hinside := hsound.inside 0 _ (hparse 0)
    rw [hparts, List.forall_mem_singleton] at hinside
    refine ⟨(place_iff hsize (Nat.mod_lt _ (by decide))).mp hinside, ?_⟩
    rintro rfl
    have hlast := hsound.behind 0 _ (hparse 0)
    rw [hparts] at hlast
    obtain ⟨hfit, hends⟩ := hlast _ rfl block h
    rw [total_of_lastHeader htotal] at hfit
    exact ⟨hfit, hends⟩
  · rintro ⟨hbuffer, hplace⟩
    by_cases hcase : (e.fitRead (block * e.dev.erasesize) total).rc = 0 ∧
        ∃ tree, e.fdt.walk (e.buffer (block * e.dev.erasesize) total) = some tree ∧
          ∀ node ∈ imageNodes tree,
            (imageEnd (e.buffer (block * e.dev.erasesize) total) node).isSome
    · obtain ⟨hread, tree, hwalk, hdata⟩ := hcase
      have hparts := parseSmall_eq hread hwalk hdata
      have hsound := hplace hread tree hwalk hdata
      refine ⟨?_, ?_, ?_⟩
      · rintro block' total' ⟨-, found', hend, rfl, -, -⟩
        obtain ⟨rfl, rfl⟩ := h.unique hend
        rwa [htotal]
      · intro fuel r hr
        rw [hparse] at hr
        cases hr
        rw [hparts, List.forall_mem_singleton]
        exact (place_iff hsize (Nat.mod_lt _ (by decide))).mpr hsound.1
      · intro fuel r hr p hp block' hend
        obtain ⟨rfl, rfl⟩ := h.unique hend
        rw [hparse] at hr
        cases hr
        rw [hparts] at hp
        cases hp
        obtain ⟨hfit, hends⟩ := hsound.2 rfl
        simp only [total_of_lastHeader htotal]
        exact ⟨hfit, hends⟩
    · have hnil := parseSmall_eq_nil hcase
      refine ⟨?_, ?_, ?_⟩
      · rintro block' total' ⟨-, found', hend, rfl, -, -⟩
        obtain ⟨rfl, rfl⟩ := h.unique hend
        rwa [htotal]
      · intro fuel r hr p hp
        rw [hparse] at hr
        cases hr
        rw [hnil] at hp
        cases hp
      · intro fuel r hr p hp
        rw [hparse] at hr
        cases hr
        rw [hnil] at hp
        cases hp

/-- The place behind a FIT that is found, and is in the buffer, in terms of the buffer. -/
theorem placeSound_iff {tree : List (ℤ × FdtNode)} (h : EndsAt e block true) (hpos : 0 < total)
    (hsmall : total ≤ 0x80000) (hread : (e.fitRead (block * e.dev.erasesize) total).rc = 0)
    (hlen : (e.fitRead (block * e.dev.erasesize) total).retlen ≤ total)
    (hlooks : e.fdt.looks (e.buffer (block * e.dev.erasesize) total) ≤ total)
    (hwalk : e.fdt.walk (e.buffer (block * e.dev.erasesize) total) = some tree)
    (hcells : ∀ cell ∈ loopCells (e.buffer (block * e.dev.erasesize) total) (imageNodes tree),
      cell + 4 ≤ total)
    (hdata : ∀ node ∈ imageNodes tree,
      (imageEnd (e.buffer (block * e.dev.erasesize) total) node).isSome)
    {top : ℕ} (htop : top < 2 ^ 64) :
    PlaceSound e block total true ((block * e.dev.erasesize + top) % 2 ^ 64) ↔
      block * e.dev.erasesize + top ≤ e.dev.size ∧ total ≤ top ∧
        ∀ o ∈ imageEnds e.fdt (e.buffer (block * e.dev.erasesize) total), o ≤ top := by
  have hstart := offsetStart_eq_zero h hsmall hread hlen
  have hends : imageEnds e.fdt (e.dev.flash.from (block * e.dev.erasesize)) =
      imageEnds e.fdt (e.buffer (block * e.dev.erasesize) total) := by
    refine imageEnds_congr (fun i hi => buffer_eq hstart hsmall hread hi) hlooks ?_
    intro node hnode cell hcell
    rw [hwalk] at hnode
    exact hcells cell (mem_loopCells hdata hnode hcell)
  have hroom : block * e.dev.erasesize + 40 ≤ e.dev.size := h.here.1
  have haddr := e.dev.size_le
  have hsizeT := e.dev.sizeT_le
  simp only [PlaceSound, h.headerAt_eq hstart, hends, forall_const]
  generalize block * e.dev.erasesize = offset at *
  constructor
  · rintro ⟨hin, hfit, himages⟩
    -- a sum that wraps is before the FIT
    have hwrap : offset + top < 2 ^ 64 := by omega
    rw [Nat.mod_eq_of_lt hwrap] at hin hfit himages
    exact ⟨hin, by omega, fun o ho => by have := himages o ho; omega⟩
  · rintro ⟨hin, hfit, himages⟩
    rw [Nat.mod_eq_of_lt (by omega)]
    exact ⟨hin, by omega, fun o ho => Nat.add_le_add_left (himages o ho) _⟩

theorem small_iff (h : EndsAt e block found) (hon : e.enabled = true)
    (htotal : be32 (lastHeader e block found) 4 = total) (hpos : 0 < total)
    (hsmall : total ≤ 0x80000) : FitSound e ↔ SmallFine e block total found := by
  rw [smallSound_iff h hon htotal hpos hsmall, inBuffer_iff, SmallFine, and_assoc]
  refine and_congr_right fun hlen => ?_
  rw [← imp_and]
  refine imp_congr_right fun hread => ?_
  rw [and_assoc]
  refine and_congr_right fun hlooks => ?_
  rw [← forall_and]
  refine forall_congr' fun tree => ?_
  rw [← imp_and]
  refine imp_congr_right fun hwalk => ?_
  refine and_congr_right fun hcells => imp_congr_right fun hdata => ?_
  cases found with
  | true =>
    exact placeSound_iff h hpos hsmall hread hlen hlooks hwalk hcells hdata topOf_lt
  | false => simp [PlaceSound]

end Small

/-- The words of a tree in memory. -/
def be32Bytes (words : List ℕ) : Bytes := words.flatMap fun n => (u32le n).reverse

/-- A FIT with the image `kernel`, which has its data at `0x1000` and a size of 1 GiB: the header
and the reservations, the nodes, and the names of the properties. -/
def hugeFit : Bytes :=
  be32Bytes [0xd00dfeed, 160, 56, 136, 40, 17, 16, 0, 24, 80, 0, 0, 0, 0] ++
    be32Bytes [1, 0, 1] ++ ascii "images" ++ [0, 0] ++ be32Bytes [1] ++ ascii "kernel" ++ [0, 0] ++
    be32Bytes [3, 4, 0, 0x1000, 3, 4, 14, 0x40000000, 2, 2, 2, 9] ++
    ascii "data-position" ++ [0] ++ ascii "data-size" ++ [0]

/-- The node of the image. -/
def hugeNode : FdtNode := fun name =>
  if name = "data-position" then some (100, 4)
  else if name = "data-size" then some (116, 4) else none

/-- What `libfdt` finds in that FIT: behind the image the walk leaves `/images`. -/
def hugeFdt : LibFdt where
  walk := fun mem =>
    if slice mem 0 160 = hugeFit then some [(1, hugeNode), (-1, fun _ => none)] else none
  looks := fun _ => 160
  looks_only := by
    intro m m' hsame
    have hslice : slice m 0 160 = slice m' 0 160 :=
      List.map_congr_left fun i hi => by
        rw [Nat.zero_add]
        exact hsame i (List.mem_range.mp hi)
    rw [hslice]

/-- A device of 64 KiB with that FIT at its start. -/
def hugeDevice : FitDevice where
  endian := .little
  wide := true
  erasesize := 0x1000
  erasesize_pos := by decide
  size := 0x10000
  addressable := by decide
  flash := fun i => hugeFit.getD i 0xff
  read := fun from' len =>
    if from' + len ≤ 0x10000 then .ok len else ⟨eInval, 0, by decide⟩
  read_ok := by
    intro from' len h
    split_ifs at h ⊢ with hin
    · exact ⟨rfl, hin⟩
    · exact absurd h (by decide)

/-- The parser for that device. -/
def hugeEnv : FitEnv where
  dev := hugeDevice
  fdt := hugeFdt
  cmdlineMatch := none
  savedCommandLine := []
  offsetStart := 0
  offsetStart_lt := by decide
  stack := fun _ => 0
  behind := fun _ => 0

end NeonWrt.Mtdsplit
