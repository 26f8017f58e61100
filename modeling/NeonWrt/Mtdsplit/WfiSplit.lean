import NeonWrt.Mtdsplit.WfiScan

/-!
# The split of a whole flash image

The parsers of `mtdsplit_bcm_wfi.c` for flashes with two images. Each half has a boot flag, in the
name of a file or on a device of its own; the half with the greater one is split into its parts,
and the other half is one partition. If the active half cannot be split, both halves are
partitions; the value that is returned is then still the error. Memory is always allocated.
-/

namespace NeonWrt.Mtdsplit

open Lib

/-- `struct mtd_partition`, with `mask_flags` only as far as it is set. -/
structure Partition where
  name : String
  offset : ℕ
  size : ℕ
  maskWriteable : Bool
  deriving DecidableEq, Repr

/-- What a parser returns, and the partitions it has set. -/
abbrev ParserResult := ℤ × List Partition

/-- What the reads of `parse_bcm_wfi` return. -/
structure ParseReads where
  cferam : Reads
  kernel : Reads
  ubi : ℕ → ReadResult

section Image

variable (d : Device)

/-- `UBI_MAGIC` -/
def ubiMagic : ℕ := 0x55424923

/-- `be32_to_cpu` of the four bytes at an offset of the flash. -/
def Device.be32 (offs : ℕ) : ℕ := Endian.getU32 .big (slice d.flash offs 4) 0

/-- `ubifs_find`: the offset, or none for `-ENOENT`. -/
def ubifsFind (reads : ℕ → ReadResult) (finish offs : ℕ) : Option ℕ :=
  if offs < finish then
    if (reads offs).rc ≠ 0 ∨ (reads offs).retlen ≠ 4 then
      ubifsFind reads finish (offs + d.erasesize)
    else if d.be32 offs = ubiMagic then some offs
    else ubifsFind reads finish (offs + d.erasesize)
  else none
  termination_by finish - offs
  decreasing_by
    all_goals
      have := d.erasesize_pos
      omega

/-- `cferam_name` without its last character, from the property `brcm,cferam` if there is one. -/
def cferamPrefix (property : Option Bytes) : Bytes :=
  ((cstr (property.getD (ascii "cferam"))).take 32).dropLast

/-- The search for the CFE RAM of an image. -/
def cferamSearch (property : Option Bytes) (rd : ParseReads) (finish : ℕ) : Search :=
  ⟨d, rd.cferam, cferamPrefix property, finish, false⟩

/-- The search for the kernel of an image. -/
def kernelSearch (rd : ParseReads) (finish : ℕ) : Search :=
  ⟨d, rd.kernel, ascii "vmlinux.lz", finish, false⟩

/-- The end of `parse_bcm_wfi`, from the kernel on. `cfeOff` is set if there is a CFE RAM. -/
def parseKernel (fuel : ℕ) (rd : ParseReads) (off size : ℕ) (cfeOff : Option ℕ) (kernelStart : ℕ) :
    Option ParserResult := do
  let kernel ← jffs2FindFile (kernelSearch d rd (off + size)) fuel kernelStart
  if kernel.ret ≠ 0 then return (kernel.ret, [])
  let kernelOff := kernel.offs
  match ubifsFind d rd.ubi (off + size) (kernelOff + d.erasesize) with
  | none => return (eNoEnt, [])
  | some rootfsOff =>
    let cferam := match cfeOff with
      | some cfeOff => [⟨"cferam", cfeOff, kernelOff - cfeOff, true⟩]
      | none => []
    return (if cfeOff.isSome then 4 else 3,
      cferam ++ [⟨"firmware", kernelOff, size - (kernelOff - off), false⟩,
        ⟨"kernel", kernelOff, rootfsOff - kernelOff, false⟩,
        ⟨"ubi", rootfsOff, size - (rootfsOff - off), false⟩])

/-- `parse_bcm_wfi`, for some passes of its loops. -/
def parseBcmWfi (fuel : ℕ) (property : Option Bytes) (rd : ParseReads) (off size : ℕ)
    (cfePart : Bool) : Option ParserResult :=
  if cfePart then do
    let cfe ← jffs2FindFile (cferamSearch d property rd (off + size)) fuel off
    if cfe.ret ≠ 0 then return (cfe.ret, [])
    parseKernel d fuel rd off size (some cfe.offs) (cfe.offs + d.erasesize)
  else parseKernel d fuel rd off size none off

end Image

/-- `char_to_num` -/
def charToNum (c : UInt8) : ℤ := if 48 ≤ c ∧ c ≤ 57 then (c.toNat : ℤ) - 48 else 0

/-- The number in three characters. -/
def threeDigits (a b c : UInt8) : ℤ := charToNum a * 100 + charToNum b * 10 + charToNum c

/-- A character of a copied name, with what lies in memory behind the copy. -/
def nameAt (slack : Memory) (name : Bytes) (i : ℕ) : UInt8 :=
  if i < name.length then name.getD i 0 else if i = name.length then 0 else slack i

/-- `cferam_bootflag_value` of the name that a scan gives. -/
def cferamBootflagValue (slack : Memory) : Option (Bytes × ℕ) → ℤ
  | none => eNoEnt
  | some (name, nameLen) =>
    if 10 ≤ nameLen ∧ (List.range 7).map (nameAt slack name) = ascii "cferam." then
      threeDigits (nameAt slack name 7) (nameAt slack name 8) (nameAt slack name 9)
    else eNoEnt

/-- The loop of `sercomm_bootflag_value`. -/
def sercommLoop (d : Device) (reads : ℕ → ReadResult) (offs : ℕ) : ℤ :=
  if offs < d.size then
    if (reads offs).rc ≠ 0 ∨ (reads offs).retlen ≠ 10 then sercommLoop d reads (offs + d.erasesize)
    else if slice d.flash offs 7 ≠ ascii "eRcOmM." then sercommLoop d reads (offs + d.erasesize)
    else threeDigits (d.flash (offs + 7)) (d.flash (offs + 8)) (d.flash (offs + 9))
  else eNoEnt
  termination_by d.size - offs
  decreasing_by
    all_goals
      have := d.erasesize_pos
      omega

/-- `sercomm_bootflag_value` -/
def sercommBootflagValue (d : Device) (reads : ℕ → ReadResult) : ℤ := sercommLoop d reads 0

/-- One of the images: its name, where it begins, and its size. -/
structure Image where
  name : String
  off : ℕ
  size : ℕ
  deriving DecidableEq, Repr

/-- The partition of a whole image. -/
def Image.partition (i : Image) : Partition := ⟨i.name, i.off, i.size, false⟩

/-- The first half of a device. -/
def img1 (d : Device) : Image := ⟨"img1", 0, d.size / 2⟩

/-- The second half of a device. -/
def img2 (d : Device) : Image := ⟨"img2", d.size / 2, d.size - d.size / 2⟩

/-- The active image and the other one, by their boot flags. -/
def images (d : Device) (bf1 bf2 : ℤ) : Image × Image :=
  if bf2 ≤ bf1 then (img1 d, img2 d) else (img2 d, img1 d)

/-- The end of both parsers: what is made of the result for the active image. -/
def addInactive (d : Device) (inactive : Image) (r : ParserResult) : ParserResult :=
  if 0 < r.1 then (r.1 + 1, r.2 ++ [inactive.partition])
  else (r.1, [(img1 d).partition, (img2 d).partition])

/-- The surroundings of `mtdsplit_parse_bcm_wfi_split`: the device, its property, what the reads
return, and what lies behind the copies of the two names. -/
structure SplitEnv where
  dev : Device
  property : Option Bytes
  flag1 : Reads
  flag2 : Reads
  parse : ParseReads
  slack1 : Memory
  slack2 : Memory

/-- The scan of an image for the file with the boot flag. -/
def flagSearch (d : Device) (reads : Reads) (i : Image) : Search :=
  ⟨d, reads, ascii "cferam", i.off + i.size, true⟩

/-- `mtdsplit_parse_bcm_wfi_split`, for some passes of its loops. -/
def mtdsplitParseBcmWfiSplit (v : SplitEnv) (fuel : ℕ) : Option ParserResult := do
  let cfe1 ← jffs2FindFile (flagSearch v.dev v.flag1 (img1 v.dev)) fuel (img1 v.dev).off
  let cfe2 ← jffs2FindFile (flagSearch v.dev v.flag2 (img2 v.dev)) fuel (img2 v.dev).off
  let bf1 := cferamBootflagValue v.slack1 cfe1.outName
  let bf2 := cferamBootflagValue v.slack2 cfe2.outName
  let (active, inactive) := images v.dev bf1 bf2
  let r ← parseBcmWfi v.dev fuel v.property v.parse active.off active.size true
  return addInactive v.dev inactive r

/-- A device with a boot flag, and what its reads return. -/
structure FlagDevice where
  dev : Device
  reads : ℕ → ReadResult

/-- The surroundings of `mtdsplit_parse_ser_wfi`; the devices with the boot flags may be missing. -/
structure SerEnv where
  dev : Device
  property : Option Bytes
  bootflag1 : Option FlagDevice
  bootflag2 : Option FlagDevice
  parse : ParseReads

/-- `mtdsplit_parse_ser_wfi`, for some passes of its loops. -/
def mtdsplitParseSerWfi (v : SerEnv) (fuel : ℕ) : Option ParserResult :=
  match v.bootflag1, v.bootflag2 with
  | some mtdBf1, some mtdBf2 => do
    let bf1 := sercommBootflagValue mtdBf1.dev mtdBf1.reads
    let bf2 := sercommBootflagValue mtdBf2.dev mtdBf2.reads
    -- of two equal flags the second one is erased
    let bf2 := if bf1 = bf2 ∧ 0 ≤ bf2 then eNoEnt else bf2
    let (active, inactive) := images v.dev bf1 bf2
    let r ← parseBcmWfi v.dev fuel v.property v.parse active.off active.size false
    return addInactive v.dev inactive r
  | _, _ => some (eNoEnt, [])

/-- The result of a parser that takes `active` for the active image: the number of partitions, at
least two, with those of the active image inside it and the other image as one, or with both
images. -/
structure SplitSound (d : Device) (active inactive : Image) (parsed : Prop) (r : ParserResult) :
    Prop where
  count : r.1 = r.2.length
  two_le : 2 ≤ r.1
  layout : parsed → ∃ parts, r.2 = parts ++ [inactive.partition] ∧
    ∀ p ∈ parts, active.off ≤ p.offset ∧ p.offset + p.size ≤ active.off + active.size
  fallback : ¬parsed → r.2 = [(img1 d).partition, (img2 d).partition]

/-- An image can be parsed: its CFE RAM is found if there is one, then its kernel, and then UBI. -/
def Parsable (d : Device) (property : Option Bytes) (rd : ParseReads) (i : Image)
    (cfePart : Bool) : Prop :=
  ∃ kernelStart, (if cfePart then
      ∃ fuel cfe, jffs2FindFile (cferamSearch d property rd (i.off + i.size)) fuel i.off = some cfe ∧
        cfe.ret = 0 ∧ kernelStart = cfe.offs + d.erasesize
    else kernelStart = i.off) ∧
    ∃ fuel kernel, jffs2FindFile (kernelSearch d rd (i.off + i.size)) fuel kernelStart =
      some kernel ∧ kernel.ret = 0 ∧
        (ubifsFind d rd.ubi (i.off + i.size) (kernel.offs + d.erasesize)).isSome

/-- The boot flags of the two images, where the scans for them end. -/
def HasFlags (v : SplitEnv) (bf1 bf2 : ℤ) : Prop :=
  (∃ fuel cfe, jffs2FindFile (flagSearch v.dev v.flag1 (img1 v.dev)) fuel (img1 v.dev).off =
    some cfe ∧ bf1 = cferamBootflagValue v.slack1 cfe.outName) ∧
  ∃ fuel cfe, jffs2FindFile (flagSearch v.dev v.flag2 (img2 v.dev)) fuel (img2 v.dev).off =
    some cfe ∧ bf2 = cferamBootflagValue v.slack2 cfe.outName

/-- The promise of `mtdsplit_parse_bcm_wfi_split`: it returns a sound result, for the boot flags in
the names of the two files. -/
def BcmKeeps (v : SplitEnv) : Prop :=
  ∃ bf1 bf2, HasFlags v bf1 bf2 ∧ ∃ fuel r, mtdsplitParseBcmWfiSplit v fuel = some r ∧
    SplitSound v.dev (images v.dev bf1 bf2).1 (images v.dev bf1 bf2).2
      (Parsable v.dev v.property v.parse (images v.dev bf1 bf2).1 true) r

/-- The promise of `mtdsplit_parse_ser_wfi`, for the boot flags of the two devices. -/
def SerKeeps (v : SerEnv) : Prop :=
  ∃ f1 f2, v.bootflag1 = some f1 ∧ v.bootflag2 = some f2 ∧
    let i := images v.dev (sercommBootflagValue f1.dev f1.reads)
      (sercommBootflagValue f2.dev f2.reads)
    ∃ fuel r, mtdsplitParseSerWfi v fuel = some r ∧
      SplitSound v.dev i.1 i.2 (Parsable v.dev v.property v.parse i.1 false) r

section Parse

variable {d : Device} {rd : ParseReads} {property : Option Bytes} {i : Image} {cfePart : Bool}
  {fuel : ℕ} {r : ParserResult}

theorem ubifsFind_bounds {reads : ℕ → ReadResult} {finish offs o : ℕ}
    (h : ubifsFind d reads finish offs = some o) : offs ≤ o ∧ o < finish := by
  fun_induction ubifsFind d reads finish offs with
  | case1 offs hlt hread ih =>
    have := ih h
    omega
  | case2 offs hlt hread hmagic =>
    cases h
    exact ⟨le_rfl, hlt⟩
  | case3 offs hlt hread hmagic ih =>
    have := ih h
    omega
  | case4 => cases h

/-- Partitions of an image. -/
def Inside (i : Image) (parts : List Partition) : Prop :=
  ∀ p ∈ parts, i.off ≤ p.offset ∧ p.offset + p.size ≤ i.off + i.size

/-- The kernel and UBI of an image are found. -/
def KernelFound (d : Device) (rd : ParseReads) (i : Image) (kernelStart : ℕ) : Prop :=
  ∃ fuel kernel, jffs2FindFile (kernelSearch d rd (i.off + i.size)) fuel kernelStart =
    some kernel ∧ kernel.ret = 0 ∧
      (ubifsFind d rd.ubi (i.off + i.size) (kernel.offs + d.erasesize)).isSome

/-- The end of the parser gives the partitions of an image whose kernel and UBI are found, and
an error for any other. -/
theorem parseKernel_cases {cfeOff : Option ℕ} {kernelStart : ℕ}
    (hstart : i.off ≤ kernelStart) (hcfe : ∀ o ∈ cfeOff, i.off ≤ o ∧ o ≤ kernelStart)
    (h : parseKernel d fuel rd i.off i.size cfeOff kernelStart = some r) :
    (KernelFound d rd i kernelStart ∧ 0 < r.1 ∧ r.1 = r.2.length ∧ Inside i r.2) ∨
      (¬KernelFound d rd i kernelStart ∧ r.1 ≤ 0) := by
  obtain ⟨kernel, hkernel, h⟩ := Option.bind_eq_some_iff.mp h
  obtain ⟨hret, hbounds⟩ := ret_of_jffs2FindFile hkernel
  by_cases hzero : kernel.ret = 0
  · have hoffs := hbounds hzero
    rw [if_neg (not_not_intro hzero)] at h
    simp only at h
    cases hubi : ubifsFind d rd.ubi (i.off + i.size) (kernel.offs + d.erasesize) with
    | none =>
      rw [hubi] at h
      cases h
      refine Or.inr ⟨?_, by simp [eNoEnt]⟩
      rintro ⟨fuel', kernel', hkernel', -, hsome⟩
      rw [← jffs2FindFile_unique hkernel hkernel', hubi] at hsome
      cases hsome
    | some rootfsOff =>
      have hroot := ubifsFind_bounds hubi
      rw [hubi] at h
      simp only at h
      refine Or.inl ⟨⟨fuel, kernel, hkernel, hzero, by rw [hubi]; rfl⟩, ?_⟩
      have hfinish : kernel.offs < i.off + i.size := hoffs.2
      have hkernelOff := hoffs.1
      cases cfeOff with
      | none =>
        cases h
        refine ⟨by simp, by simp, ?_⟩
        simp only [Inside, List.nil_append, List.forall_mem_cons,
          List.not_mem_nil, false_imp_iff, implies_true, and_true]
        omega
      | some o =>
        obtain ⟨hlo, hhi⟩ := hcfe o rfl
        cases h
        refine ⟨by simp, by simp, ?_⟩
        simp only [Inside, List.cons_append, List.nil_append, List.forall_mem_cons,
          List.not_mem_nil, false_imp_iff, implies_true, and_true]
        omega
  · rw [if_pos hzero] at h
    cases h
    refine Or.inr ⟨?_, hret⟩
    rintro ⟨fuel', kernel', hkernel', hzero', -⟩
    exact hzero ((jffs2FindFile_unique hkernel hkernel') ▸ hzero')

/-- The parser gives the partitions of an image that can be parsed, and an error for any other. -/
theorem parseBcmWfi_cases (h : parseBcmWfi d fuel property rd i.off i.size cfePart = some r) :
    (Parsable d property rd i cfePart ∧ 0 < r.1 ∧ r.1 = r.2.length ∧ Inside i r.2) ∨
      (¬Parsable d property rd i cfePart ∧ r.1 ≤ 0) := by
  cases cfePart with
  | false =>
    rcases parseKernel_cases le_rfl (by simp) h with ⟨hfound, hr⟩ | ⟨hfound, hr⟩
    · exact Or.inl ⟨⟨i.off, rfl, hfound⟩, hr⟩
    · refine Or.inr ⟨?_, hr⟩
      rintro ⟨kernelStart, rfl, hkernel⟩
      exact hfound hkernel
  | true =>
    obtain ⟨cfe, hcfe, h⟩ := Option.bind_eq_some_iff.mp h
    obtain ⟨hret, hbounds⟩ := ret_of_jffs2FindFile hcfe
    by_cases hzero : cfe.ret = 0
    · rw [if_neg (not_not_intro hzero)] at h
      have hlo := (hbounds hzero).1
      rcases parseKernel_cases (by omega) (by simp [hlo]) h with ⟨hfound, hr⟩ | ⟨hfound, hr⟩
      · exact Or.inl ⟨⟨_, ⟨fuel, cfe, hcfe, hzero, rfl⟩, hfound⟩, hr⟩
      · refine Or.inr ⟨?_, hr⟩
        rintro ⟨kernelStart, ⟨fuel', cfe', hcfe', -, rfl⟩, hkernel⟩
        rw [← jffs2FindFile_unique hcfe hcfe'] at hkernel
        exact hfound hkernel
    · rw [if_pos hzero] at h
      cases h
      refine Or.inr ⟨?_, hret⟩
      rintro ⟨kernelStart, ⟨fuel', cfe', hcfe', hzero', -⟩, -⟩
      exact hzero ((jffs2FindFile_unique hcfe hcfe') ▸ hzero')

theorem parseKernel_returns (off : ℕ) (cfeOff : Option ℕ) {size kernelStart : ℕ} {kernel : Found}
    (h : jffs2FindFile (kernelSearch d rd (off + size)) fuel kernelStart = some kernel) :
    ∃ r, parseKernel d fuel rd off size cfeOff kernelStart = some r := by
  rw [parseKernel, h, Option.bind_eq_bind, Option.bind_some]
  by_cases hret : kernel.ret ≠ 0
  · rw [if_pos hret]
    exact ⟨_, rfl⟩
  · rw [if_neg hret]
    simp only
    cases ubifsFind d rd.ubi (off + size) (kernel.offs + d.erasesize) with
    | none => exact ⟨_, rfl⟩
    | some o => exact ⟨_, rfl⟩

/-- An image that can be parsed is parsed in some number of passes, and in more. -/
theorem Parsable.returns (h : Parsable d property rd i cfePart) :
    ∃ fuel₀, ∀ fuel, fuel₀ ≤ fuel →
      ∃ r, parseBcmWfi d fuel property rd i.off i.size cfePart = some r := by
  obtain ⟨kernelStart, hstart, fuel₂, kernel, hkernel, -⟩ := h
  cases cfePart with
  | false =>
    obtain rfl : kernelStart = i.off := hstart
    exact ⟨fuel₂, fun fuel hle => parseKernel_returns _ none (run_mono hle hkernel)⟩
  | true =>
    obtain ⟨fuel₁, cfe, hcfe, hzero, rfl⟩ := hstart
    refine ⟨max fuel₁ fuel₂, fun fuel hle => ?_⟩
    have hcfe' : jffs2FindFile (cferamSearch d property rd (i.off + i.size)) fuel i.off = some cfe :=
      run_mono ((le_max_left _ _).trans hle) hcfe
    obtain ⟨r, hr⟩ := parseKernel_returns i.off (some cfe.offs)
      (run_mono ((le_max_right _ _).trans hle) hkernel)
    refine ⟨r, ?_⟩
    rw [parseBcmWfi, if_pos rfl, hcfe', Option.bind_eq_bind, Option.bind_some,
      if_neg (not_not_intro hzero)]
    exact hr

/-- The result for the active image with the other one is sound if that image can be parsed, and
otherwise it is not. -/
theorem splitSound_iff {inactive : Image}
    (h : parseBcmWfi d fuel property rd i.off i.size cfePart = some r) :
    SplitSound d i inactive (Parsable d property rd i cfePart) (addInactive d inactive r) ↔
      Parsable d property rd i cfePart := by
  rcases parseBcmWfi_cases h with ⟨hparsed, hpos, hcount, hinside⟩ | ⟨hparsed, hneg⟩
  · refine iff_of_true ?_ hparsed
    rw [addInactive, if_pos hpos]
    exact ⟨by simp [hcount], by simp only; omega, fun _ => ⟨r.2, rfl, hinside⟩, fun h => absurd hparsed h⟩
  · refine iff_of_false (fun hsound => ?_) hparsed
    have := hsound.two_le
    rw [addInactive, if_neg (by omega)] at this
    simp only at this
    omega

end Parse

section Parsers

variable {v : SplitEnv} {w : SerEnv} {bf1 bf2 : ℤ} {fuel : ℕ} {r : ParserResult}

/-- A result of the first parser is made from one for the active image. -/
theorem parse_of_split (hflags : HasFlags v bf1 bf2)
    (h : mtdsplitParseBcmWfiSplit v fuel = some r) :
    ∃ r', parseBcmWfi v.dev fuel v.property v.parse (images v.dev bf1 bf2).1.off
        (images v.dev bf1 bf2).1.size true = some r' ∧
      addInactive v.dev (images v.dev bf1 bf2).2 r' = r := by
  obtain ⟨⟨fuel₁, cfe₁, hcfe₁, rfl⟩, ⟨fuel₂, cfe₂, hcfe₂, rfl⟩⟩ := hflags
  obtain ⟨cfe₁', hcfe₁', h⟩ := Option.bind_eq_some_iff.mp h
  obtain ⟨cfe₂', hcfe₂', h⟩ := Option.bind_eq_some_iff.mp h
  obtain rfl := jffs2FindFile_unique hcfe₁ hcfe₁'
  obtain rfl := jffs2FindFile_unique hcfe₂ hcfe₂'
  obtain ⟨r', hr', h⟩ := Option.bind_eq_some_iff.mp h
  cases h
  exact ⟨r', hr', rfl⟩

/-- With boot flags and an active image that can be parsed, the first parser returns. -/
theorem Parsable.split_returns (hflags : HasFlags v bf1 bf2)
    (h : Parsable v.dev v.property v.parse (images v.dev bf1 bf2).1 true) :
    ∃ fuel r, parseBcmWfi v.dev fuel v.property v.parse (images v.dev bf1 bf2).1.off
        (images v.dev bf1 bf2).1.size true = some r ∧
      mtdsplitParseBcmWfiSplit v fuel = some (addInactive v.dev (images v.dev bf1 bf2).2 r) := by
  obtain ⟨fuel, hreturns⟩ := h.returns
  obtain ⟨⟨fuel₁, cfe₁, hcfe₁, rfl⟩, ⟨fuel₂, cfe₂, hcfe₂, rfl⟩⟩ := hflags
  -- passes enough for the two scans and for the image
  obtain ⟨r, hr⟩ := hreturns (max fuel (max fuel₁ fuel₂)) (le_max_left _ _)
  refine ⟨_, r, hr, ?_⟩
  have hle₁ : fuel₁ ≤ max fuel (max fuel₁ fuel₂) := by omega
  have hle₂ : fuel₂ ≤ max fuel (max fuel₁ fuel₂) := by omega
  have h₁ := run_mono hle₁ hcfe₁
  have h₂ := run_mono hle₂ hcfe₂
  rw [mtdsplitParseBcmWfiSplit, jffs2FindFile, h₁, Option.bind_eq_bind, Option.bind_some,
    jffs2FindFile, h₂, Option.bind_eq_bind, Option.bind_some]
  simp only [hr]
  rfl

/-- Erasing the second of two equal boot flags leaves the choice of the image. -/
theorem images_erased (d : Device) (bf1 bf2 : ℤ) :
    images d bf1 (if bf1 = bf2 ∧ 0 ≤ bf2 then eNoEnt else bf2) = images d bf1 bf2 := by
  split_ifs with h
  · have hle : eNoEnt ≤ bf1 := by
      simp only [eNoEnt]
      omega
    rw [images, images, if_pos hle, if_pos h.1.ge]
  · rfl

/-- With both boot flags, the second parser makes its result from one for the active image. -/
theorem serWfi_eq {f1 f2 : FlagDevice} (h1 : w.bootflag1 = some f1) (h2 : w.bootflag2 = some f2) :
    mtdsplitParseSerWfi w fuel =
      (parseBcmWfi w.dev fuel w.property w.parse
        (images w.dev (sercommBootflagValue f1.dev f1.reads)
          (sercommBootflagValue f2.dev f2.reads)).1.off
        (images w.dev (sercommBootflagValue f1.dev f1.reads)
          (sercommBootflagValue f2.dev f2.reads)).1.size false).map
        (addInactive w.dev (images w.dev (sercommBootflagValue f1.dev f1.reads)
          (sercommBootflagValue f2.dev f2.reads)).2) := by
  rw [mtdsplitParseSerWfi, h1, h2]
  simp only [images_erased]
  rw [Option.map_eq_bind]
  rfl

end Parsers

/-- Each parser keeps its promise exactly if the scans for the boot flags end and the active image
can be parsed; the second one also needs the devices with the boot flags. -/
theorem wfiSplit_iff (v : SplitEnv) (w : SerEnv) :
    (BcmKeeps v ↔ ∃ bf1 bf2, HasFlags v bf1 bf2 ∧
      Parsable v.dev v.property v.parse (images v.dev bf1 bf2).1 true) ∧
    (SerKeeps w ↔ ∃ f1 f2, w.bootflag1 = some f1 ∧ w.bootflag2 = some f2 ∧
      Parsable w.dev w.property w.parse (images w.dev (sercommBootflagValue f1.dev f1.reads)
        (sercommBootflagValue f2.dev f2.reads)).1 false) := by
  constructor
  · constructor
    · rintro ⟨bf1, bf2, hflags, fuel, r, hr, hsound⟩
      refine ⟨bf1, bf2, hflags, ?_⟩
      obtain ⟨r', hparse, rfl⟩ := parse_of_split hflags hr
      exact (splitSound_iff hparse).mp hsound
    · rintro ⟨bf1, bf2, hflags, hparsable⟩
      obtain ⟨fuel, r, hparse, hr⟩ := hparsable.split_returns hflags
      exact ⟨bf1, bf2, hflags, fuel, _, hr, (splitSound_iff hparse).mpr hparsable⟩
  · constructor
    · rintro ⟨f1, f2, h1, h2, fuel, r, hr, hsound⟩
      refine ⟨f1, f2, h1, h2, ?_⟩
      rw [serWfi_eq h1 h2] at hr
      obtain ⟨r', hparse, hr⟩ := Option.map_eq_some_iff.mp hr
      rw [← hr] at hsound
      exact (splitSound_iff hparse).mp hsound
    · rintro ⟨f1, f2, h1, h2, hparsable⟩
      refine ⟨f1, f2, h1, h2, ?_⟩
      obtain ⟨fuel, hreturns⟩ := hparsable.returns
      obtain ⟨r, hparse⟩ := hreturns fuel le_rfl
      refine ⟨fuel, addInactive w.dev _ r, ?_, (splitSound_iff hparse).mpr hparsable⟩
      rw [serWfi_eq h1 h2, hparse]
      rfl

/-- A device of two blocks, on which no block begins with the magic of JFFS2. -/
def erasedDevice : Device where
  endian := .little
  crc32 := fun _ => 0
  erasesize := 64
  erasesize_pos := Nat.succ_pos 63
  size := 128
  flash := fun _ => 0xff
  behind := fun _ => 0

/-- The surroundings of the first parser with that device. -/
def erasedEnv : SplitEnv where
  dev := erasedDevice
  property := none
  flag1 := ⟨fun _ => .ok 2, fun _ => .ok 64⟩
  flag2 := ⟨fun _ => .ok 2, fun _ => .ok 64⟩
  parse := ⟨⟨fun _ => .ok 2, fun _ => .ok 64⟩, ⟨fun _ => .ok 2, fun _ => .ok 64⟩, fun _ => .ok 4⟩
  slack1 := fun _ => 0
  slack2 := fun _ => 0

/-- Without an image the first parser sets two partitions and returns an error. -/
theorem not_bcmKeeps : ¬BcmKeeps erasedEnv := by
  rintro ⟨bf1, bf2, hflags, fuel, r, hr, hsound⟩
  obtain ⟨r', hparse, rfl⟩ := parse_of_split hflags hr
  obtain ⟨-, ⟨fuel', cfe, hcfe, hret, -⟩, -⟩ := (splitSound_iff hparse).mp hsound
  have hnone : ∀ i ∈ [img1 erasedDevice, img2 erasedDevice],
      (jffs2FindFile (cferamSearch erasedDevice none erasedEnv.parse (i.off + i.size)) 2 i.off).map
        Found.ret = some eNoEnt := by
    decide +kernel
  have hactive : (images erasedDevice bf1 bf2).1 ∈ [img1 erasedDevice, img2 erasedDevice] := by
    rw [images]
    split_ifs <;> simp
  obtain ⟨out, hout, hnoent⟩ := Option.map_eq_some_iff.mp (hnone _ hactive)
  rw [jffs2FindFile_unique hcfe hout, hnoent] at hret
  exact absurd hret (by decide)

end NeonWrt.Mtdsplit
