import Mathlib.Data.List.Nodup
import NeonWrt.Nvram.Reading

/-!
# The round trip of a commit

What a commit writes can be opened again, with the variables that were written and
the special parameters that the header spells. So the variables of a handle make the
round trip if all of them are written and the length in the header is less than the
space, which an open for writing checks. A special parameter may be left out if the
header spells its very text. Through a private mapping nothing is written at all, and
the partition must have the variables already.
-/

namespace NeonWrt.Nvram

open Lib

/-- All the variables of a handle. -/
def allTuples (h : Handle) : List Tuple := (List.range 257).flatMap h.nvramHash

theorem mem_allTuples {h : Handle} (hp : h.Placed) {n v : CStr} :
    ⟨n, v⟩ ∈ allTuples h ↔ nvramGet h n = some v := by
  rw [allTuples, List.mem_flatMap, nvramGet_eq_lookup, lookup_eq_some (hp.nodup _)]
  constructor
  · rintro ⟨i, -, hmem⟩
    rwa [hp.chain i _ hmem]
  · intro hmem
    exact ⟨chainOf n, List.mem_range.mpr (Nat.mod_lt _ (by decide)), hmem⟩

theorem allTuples_nodup {h : Handle} (hp : h.Placed) : ((allTuples h).map (·.name)).Nodup := by
  rw [allTuples, List.map_flatMap, List.nodup_flatMap]
  refine ⟨fun i _ => hp.nodup i, List.nodup_range.imp fun {i j} hij => ?_⟩
  -- a name is in the chain of its hash alone
  intro n hi hj
  obtain ⟨t, ht, rfl⟩ := List.mem_map.mp hi
  obtain ⟨u, hu, heq⟩ := List.mem_map.mp hj
  exact hij ((hp.chain i t ht).symm.trans ((congrArg chainOf heq).symm.trans (hp.chain j u hu)))

theorem kept_sublist (h : Handle) : (kept h).Sublist (allTuples h) := by
  rw [allTuples, List.flatMap_def]
  exact keepAll_sublist _ _

/-- What is written is read back as it was, and so is nothing else. -/
theorem lookup_kept {h : Handle} (hp : h.Placed) {n v : CStr} :
    lookup (kept h) n = some v ↔ ⟨n, v⟩ ∈ kept h :=
  lookup_eq_some (((kept_sublist h).map _).nodup (allTuples_nodup hp))

/-- A variable that is left out is not there under another value. -/
theorem lookup_kept_eq_none {h : Handle} (hp : h.Placed) {n v : CStr} (hv : nvramGet h n = some v)
    (hleft : ⟨n, v⟩ ∉ kept h) : lookup (kept h) n = none := by
  rw [Option.eq_none_iff_forall_ne_some]
  intro w hw
  have hmem := (lookup_kept hp).mp hw
  have hsame := (mem_allTuples hp).mp ((kept_sublist h).subset hmem)
  obtain rfl := Option.some.inj (hv.symm.trans hsame)
  exact hleft hmem

theorem length_text_le {t : Tuple} {ts : List Tuple} (ht : t ∈ ts) :
    t.text.length ≤ (texts ts).length := by
  induction ts with
  | nil => exact absurd ht List.not_mem_nil
  | cons u ts ih =>
    rw [texts_cons, List.length_append]
    rcases List.mem_cons.mp ht with rfl | ht
    · omega
    · have hrest := ih ht
      omega

theorem headerWords_fields (h : Handle) :
    (∃ x < 65536, (headerWords h).1 = 256 + x * 65536) ∧ (headerWords h).2.1 < 4294967296 ∧
      (headerWords h).2.2 < 4294967296 := by
  have hmod : ∀ n : ℕ, n % 65536 < 65536 := fun n => Nat.mod_lt n (by decide)
  rw [headerWords]
  -- from the four special variables, or the defaults
  split
  · next init config refresh ncdl _ _ _ _ =>
    have hconfig := hmod (strtoulAny config)
    have hrefresh := hmod (strtoulAny refresh)
    refine ⟨⟨_, hmod (strtoulAny init), rfl⟩, by dsimp only; omega, ?_⟩
    exact strtoul_fst_lt 32 _ _
  · exact ⟨⟨sdramInit, by decide, rfl⟩, by decide, by decide⟩

theorem nvramMagic_mod : nvramMagic % 4294967296 = nvramMagic := rfl

theorem getU32_header {b : Bytes} {off magic len init config ncdl : ℕ}
    (h : HasAt b off (header magic len init config ncdl)) :
    getU32 b off = magic % 4294967296 ∧ getU32 b (off + 4) = len % 4294967296 ∧
      getU32 b (off + 8) = init % 4294967296 ∧ getU32 b (off + 12) = config % 4294967296 ∧
      getU32 b (off + 16) = ncdl % 4294967296 := by
  rw [header] at h
  obtain ⟨hmagic, h⟩ := HasAt.append_iff.mp h
  obtain ⟨hlen, h⟩ := HasAt.append_iff.mp h
  obtain ⟨hinit, h⟩ := HasAt.append_iff.mp h
  obtain ⟨hconfig, hncdl⟩ := HasAt.append_iff.mp h
  exact ⟨hmagic.getU32, hlen.getU32, hinit.getU32, hconfig.getU32, hncdl.getU32⟩

/-- The part of the header that the CRC is taken of does not depend on the CRC. -/
theorem drop_header (x magic len config ncdl : ℕ) (crc : UInt8) :
    (header magic len (256 + x * 65536 + crc.toNat) config ncdl).drop 9 =
      (header 0 0 (256 + x * 65536) config ncdl).drop 9 := by
  have hcrc := crc.toNat_lt
  -- only the lowest byte of the third word changes, and that is dropped
  have hsecond : (256 + x * 65536 + crc.toNat) / 256 = (256 + x * 65536) / 256 := by omega
  have hthird : (256 + x * 65536 + crc.toNat) / 65536 = (256 + x * 65536) / 65536 := by omega
  have hfourth : (256 + x * 65536 + crc.toNat) / 16777216 = (256 + x * 65536) / 16777216 := by omega
  simp only [header, u32le, List.cons_append, List.nil_append, List.drop_succ_cons, List.drop_zero,
    hsecond, hthird, hfourth]

theorem hndcrc8_append (a b : Bytes) (crc : UInt8) :
    hndcrc8 (a ++ b) crc = hndcrc8 b (hndcrc8 a crc) :=
  List.foldl_append

/-- The partition after a commit. -/
def newPart (h : Handle) : Bytes :=
  h.mmap.take h.offset ++ (header nvramMagic (newLength h) ((headerWords h).1 + (newCrc h).toNat)
    (headerWords h).2.1 (headerWords h).2.2 ++ newData h)

/-- A handle on a partition that was opened, whatever was done to its variables since. -/
structure Opened (h : Handle) : Prop where
  placed : h.Placed
  magic : findMagic h.mmap = some h.offset
  room : h.offset + 21 ≤ h.mmap.length
  size : h.mmap.length + 4 ≤ 4294967296

section Reopen

variable {h : Handle}

theorem length_data {space pad : ℕ} {text : Bytes} (hpad : 21 + text.length + pad ≤ space) :
    (text ++ (0 :: List.replicate pad 0 ++ List.replicate (space - 21 - text.length - pad) 0xFF) :
      Bytes).length = space - 20 := by
  simp only [List.length_append, List.length_cons, List.length_replicate]
  omega

theorem length_newData (hpad : 21 + (texts (kept h)).length + padLength h ≤ h.space) :
    (newData h).length = h.space - 20 := by
  rw [newData]
  exact length_data hpad

theorem length_newPart (ho : Opened h)
    (hpad : 21 + (texts (kept h)).length + padLength h ≤ h.space) :
    (newPart h).length = h.mmap.length := by
  have hroom := ho.room
  have hspace : h.space = h.mmap.length - h.offset := rfl
  rw [newPart, List.length_append, List.length_append, length_header, length_newData hpad,
    List.length_take_of_le (by omega)]
  omega

theorem getU32_newPart (ho : Opened h) :
    getU32 (newPart h) h.offset = nvramMagic ∧ getU32 (newPart h) (h.offset + 4) = newLength h ∧
      getU32 (newPart h) (h.offset + 8) = (headerWords h).1 + (newCrc h).toNat ∧
      getU32 (newPart h) (h.offset + 12) = (headerWords h).2.1 ∧
      getU32 (newPart h) (h.offset + 16) = (headerWords h).2.2 := by
  have hfront : (h.mmap.take h.offset).length = h.offset :=
    List.length_take_of_le (by have := ho.room; omega)
  have hat := hasAt_middle (h.mmap.take h.offset) (header nvramMagic (newLength h)
    ((headerWords h).1 + (newCrc h).toNat) (headerWords h).2.1 (headerWords h).2.2) (newData h)
  rw [hfront] at hat
  obtain ⟨hmagic, hlen, hinit, hconfig, hncdl⟩ := getU32_header hat
  obtain ⟨⟨x, hx, hfirst⟩, hsecond, hthird⟩ := headerWords_fields h
  have hcrc := (newCrc h).toNat_lt
  -- the new length is at most the partition rounded up to four, which is below 2^32
  have hsmall : newLength h < 4294967296 := by
    have hroom := ho.room
    have hsize := ho.size
    have hkept := length_texts_kept h
    have hspace : h.space = h.mmap.length - h.offset := rfl
    rw [newLength, roundUp]
    omega
  refine ⟨hmagic.trans nvramMagic_mod, hlen.trans (Nat.mod_eq_of_lt hsmall), hinit.trans (Nat.mod_eq_of_lt ?_),
    hconfig.trans (Nat.mod_eq_of_lt hsecond), hncdl.trans (Nat.mod_eq_of_lt hthird)⟩
  omega

theorem findMagic_newPart (ho : Opened h)
    (hpad : 21 + (texts (kept h)).length + padLength h ≤ h.space) :
    findMagic (newPart h) = some h.offset := by
  refine findMagic_of_front ho.magic (length_newPart ho hpad) (fun k hk => ?_) (getU32_newPart ho).1
  have hroom := ho.room
  rw [newPart, List.getElem?_append_left (by rw [List.length_take_of_le (by omega)]; exact hk),
    List.getElem?_take, if_pos hk]

/-- The mapping of a new partition gives the variables that were written, and the
parameters that are missing. -/
theorem rehash_newPart (ho : Opened h)
    (hpad : 21 + (texts (kept h)).length + padLength h ≤ h.space) (k : Handle)
    (hmmap : k.mmap = newPart h) (hoffset : k.offset = h.offset) :
    ∃ h', rehash k = some h' ∧ SameMapping k h' ∧ ∀ n, nvramGet h' n =
      (lookup (kept h) n).or (lookup (sdramParams (headerWords h).1 (headerWords h).2.1
        (headerWords h).2.2) n) := by
  obtain ⟨-, -, hinit, hconfig, hncdl⟩ := getU32_newPart ho
  have hroom := ho.room
  have hspace : h.space = h.mmap.length - h.offset := rfl
  have hkspace : k.space = h.space := by
    rw [Handle.space, hmmap, hoffset, length_newPart ho hpad, hspace]
  have hkept := length_texts_kept h
  refine @rehash_texts k (kept h) (List.replicate (padLength h) 0 ++ List.replicate
    (h.space - 21 - (texts (kept h)).length - padLength h) 0xFF) _ _ _ ?_ (fun t ht => ?_) ?_
    (fun t ht => ?_) (by omega) ?_
  -- the text begins behind the header
  · have hlen : (h.mmap.take h.offset ++ header nvramMagic (newLength h)
        ((headerWords h).1 + (newCrc h).toNat) (headerWords h).2.1 (headerWords h).2.2).length =
          h.offset + 20 := by
      rw [List.length_append, length_header, List.length_take_of_le (by omega)]
    rw [hmmap, hoffset, newPart, ← List.append_assoc, List.drop_left' hlen, newData, List.cons_append]
  · obtain ⟨i, -, hi⟩ := List.mem_flatMap.mp ((kept_sublist h).subset ht)
    exact ho.placed.plain i t hi
  · exact ((kept_sublist h).map _).nodup (allTuples_nodup ho.placed)
  -- a value is shorter than the text, and that is shorter than the space
  · have htext := length_text_le ht
    rw [length_text] at htext
    omega
  · -- the CRC is not a part of the parameters
    obtain ⟨⟨x, hx, hfirst⟩, -, -⟩ := headerWords_fields h
    have hcrc := (newCrc h).toNat_lt
    have hsame : ((headerWords h).1 + (newCrc h).toNat) / 65536 % 65536 =
        (headerWords h).1 / 65536 % 65536 := by
      rw [hfirst]
      omega
    rw [hmmap, hoffset, hinit, hconfig, hncdl, sdramParams, sdramParams, hsame]

/-- The CRC of a new partition is the one that `nvram info` calculates. -/
theorem crc_newPart (ho : Opened h) {h' : Handle} (hmmap : h'.mmap = newPart h)
    (hoffset : h'.offset = h.offset) : h'.crcStored = h'.crcCalculated.toNat := by
  obtain ⟨-, hlen, hinit, -, -⟩ := getU32_newPart ho
  obtain ⟨⟨x, hx, hfirst⟩, -, -⟩ := headerWords_fields h
  have hcrc := (newCrc h).toNat_lt
  have hroom := ho.room
  have hfront : (h.mmap.take h.offset).length = h.offset := List.length_take_of_le (by omega)
  have hstored : h'.crcStored = (newCrc h).toNat := by
    rw [Handle.crcStored, hmmap, hoffset, hinit, hfirst]
    omega
  have hlong : 22 ≤ newLength h := by
    rw [newLength, roundUp]
    omega
  -- both are taken over the header from its tenth byte on and the data area
  have hcalculated : h'.crcCalculated = newCrc h := by
    rw [Handle.crcCalculated, hmmap, hoffset, hlen, newPart, newCrc, ← List.drop_drop,
      List.drop_left' hfront, List.drop_append_of_le_length (by rw [length_header]; decide),
      hfirst, drop_header]
    have hpart : ((header 0 0 (256 + x * 65536) (headerWords h).2.1 (headerWords h).2.2).drop 9).length =
        11 := rfl
    generalize (header 0 0 (256 + x * 65536) (headerWords h).2.1 (headerWords h).2.2).drop 9 = part at *
    have htake : part.take (newLength h - 9) = part := List.take_of_length_le (by omega)
    rw [List.take_append, hndcrc8_append, htake, hpart, Nat.sub_sub]
  rw [hstored, hcalculated]

end Reopen

/-- Every name reads the same, but for the special parameters, which do if they are set. -/
def Keeps (h h' : Handle) : Prop :=
  (∀ n, n ∉ sdramNames → nvramGet h' n = nvramGet h n) ∧
    ∀ n ∈ sdramNames, ∀ v, nvramGet h n = some v → nvramGet h' n = some v

/-- The partition can be opened in both modes, with the right CRC and the variables of
the handle. -/
def Reopens (h : Handle) (part : Bytes) : Prop :=
  ∀ addr rdonly, ∃ h', nvramOpen addr part rdonly = some h' ∧
    h'.crcStored = h'.crcCalculated.toNat ∧ Keeps h h'

/-- A commit writes nothing outside the partition, and once it has returned the
partition holds the variables of the handle. -/
def CommitKeeps (part : Bytes) (h : Handle) : Prop :=
  (nvramCommit h).1.outside = false ∧
    ((nvramCommit h).2.isSome = true →
      Reopens h (if h.shared then (nvramCommit h).1.bytes else part))

/-- What is left out of the text are special parameters as the new header spells them,
and the new length is less than the space. -/
def Fits (h : Handle) : Prop :=
  newLength h < h.space ∧ ∀ t ∈ allTuples h, t ∉ kept h →
    t ∈ sdramParams (headerWords h).1 (headerWords h).2.1 (headerWords h).2.2

/-- The partition that was opened as `h₀` has the variables of the handle already, a
length less than its space, and the right CRC. -/
def Unchanged (h₀ h : Handle) : Prop :=
  getU32 h₀.mmap (h₀.offset + 4) < h₀.space ∧ h₀.crcStored = h₀.crcCalculated.toNat ∧ Keeps h h₀

/-- The condition for a commit: the zeros behind the text end inside the partition, and
either the variables fit, or nothing has to be written through a private mapping. -/
def Commits (h₀ h : Handle) : Prop :=
  21 + (texts (kept h)).length + padLength h ≤ h.space ∧
    if h.shared then Fits h else Unchanged h₀ h

theorem Commits.fits {h₀ h : Handle} (hc : Commits h₀ h) (hshared : h.shared = true) : Fits h := by
  rw [Commits, if_pos hshared] at hc
  exact hc.2

/-- A new partition can be opened again exactly if everything fits. -/
theorem reopens_newPart_iff {h : Handle} (ho : Opened h)
    (hpad : 21 + (texts (kept h)).length + padLength h ≤ h.space) :
    Reopens h (newPart h) ↔ Fits h := by
  have hmagic := findMagic_newPart ho hpad
  have hlen : getU32 (newPart h) (h.offset + 4) = newLength h := (getU32_newPart ho).2.1
  have hsize : (newPart h).length - h.offset = h.space := by
    rw [length_newPart ho hpad, Handle.space]
  have hread := fun addr rdonly => rehash_newPart ho hpad
    ⟨addr, newPart h, h.offset, fun _ => [], !rdonly⟩ rfl rfl
  constructor
  · intro hreopens
    -- what is left out must come back as a parameter, since nothing else is read
    obtain ⟨h', hopen, -, hplain, hsdram⟩ := hreopens 0 false
    obtain ⟨offset, hoffset, hcheck, hrehash⟩ := nvramOpen_eq_some.mp hopen
    obtain rfl := Option.some.inj (hmagic.symm.trans hoffset)
    rw [hlen, hsize] at hcheck
    refine ⟨hcheck.resolve_left (by decide), fun t ht hleft => ?_⟩
    obtain ⟨h'', hrehash', -, hget⟩ := hread 0 false
    obtain rfl := Option.some.inj (hrehash.symm.trans hrehash')
    have hvalue := (mem_allTuples ho.placed (n := t.name) (v := t.value)).mp ht
    have hnew : nvramGet h' t.name = some t.value := by
      by_cases hname : t.name ∈ sdramNames
      · exact hsdram _ hname _ hvalue
      · rw [hplain _ hname, hvalue]
    rw [hget, lookup_kept_eq_none ho.placed hvalue hleft, Option.none_or] at hnew
    exact (lookup_eq_some (by rw [map_name_sdramParams]; exact sdramNames_nodup)).mp hnew
  · rintro ⟨hlength, hleft⟩ addr rdonly
    obtain ⟨h', hrehash, hsame, hget⟩ := hread addr rdonly
    refine ⟨h', nvramOpen_eq_some.mpr ⟨h.offset, hmagic, Or.inr ?_, hrehash⟩, ?_, fun n hn => ?_,
      fun n hn v hv => ?_⟩
    · rwa [hlen, hsize]
    · exact crc_newPart ho hsame.mmap hsame.offset
    -- other names: read from the text or not at all
    · have hparam : lookup (sdramParams (headerWords h).1 (headerWords h).2.1 (headerWords h).2.2) n =
          none := lookup_eq_none.mpr (by rwa [map_name_sdramParams])
      rw [hget, hparam, Option.or_none]
      ext v
      rw [lookup_kept ho.placed, ← mem_allTuples ho.placed]
      refine ⟨fun hmem => (kept_sublist h).subset hmem, fun hmem => ?_⟩
      by_contra hnot
      have hname := List.mem_map_of_mem (f := Tuple.name) (hleft _ hmem hnot)
      rw [map_name_sdramParams] at hname
      exact hn hname
    -- special parameters: from the text, or left out because the header has them
    · have hmem := (mem_allTuples ho.placed).mpr hv
      rw [hget]
      by_cases hkept : ⟨n, v⟩ ∈ kept h
      · rw [(lookup_kept ho.placed).mpr hkept]
        rfl
      · rw [lookup_kept_eq_none ho.placed hv hkept, Option.none_or,
          lookup_eq_some (by rw [map_name_sdramParams]; exact sdramNames_nodup)]
        exact hleft _ hmem hkept

/-- What an open handle on a partition is, whatever was done since. -/
theorem opened_run {addr : ℕ} {part : Bytes} {rdonly : Bool} {h₀ : Handle}
    (hopen : nvramOpen addr part rdonly = some h₀) (hsize : part.length + 4 ≤ 4294967296)
    {ops : List Op} (hops : ∀ op ∈ ops, op.Plain) :
    Opened (run h₀ ops) ∧ h₀.Placed ∧ SameMapping h₀ (run h₀ ops) ∧ h₀.mmap = part ∧
      findMagic part = some h₀.offset ∧ h₀.shared = !rdonly := by
  obtain ⟨offset, hmagic, -, hrehash⟩ := nvramOpen_eq_some.mp hopen
  obtain ⟨hsame, hplaced, hroom⟩ := rehash_placed hrehash
  have hrun := sameMapping_run h₀ ops
  have hoffset : h₀.offset = offset := hsame.offset
  have hmmap : h₀.mmap = part := hsame.mmap
  refine ⟨⟨hplaced.run hops, ?_, ?_, ?_⟩, hplaced, hrun, hmmap, hoffset ▸ hmagic, hsame.shared⟩
  · rw [hrun.mmap, hrun.offset, hmmap, hoffset, hmagic]
  · rw [hrun.mmap, hrun.offset, hmmap, hoffset]
    exact hroom
  · rw [hrun.mmap, hmmap]
    exact hsize

/-- A partition that is left alone can be opened with the variables of a handle exactly
if it has them already. -/
theorem reopens_part_iff {addr : ℕ} {part : Bytes} {rdonly : Bool} {h₀ h : Handle}
    (hopen : nvramOpen addr part rdonly = some h₀) : Reopens h part ↔ Unchanged h₀ h := by
  obtain ⟨offset, hmagic, -, hrehash⟩ := nvramOpen_eq_some.mp hopen
  obtain ⟨hsame, -, -⟩ := rehash_placed hrehash
  have hoffset : h₀.offset = offset := hsame.offset
  have hmmap : h₀.mmap = part := hsame.mmap
  constructor
  · intro hreopens
    obtain ⟨h', hopen', hcrc, hkeeps⟩ := hreopens 0 false
    obtain ⟨offset', hoffset', hcheck, hrehash'⟩ := nvramOpen_eq_some.mp hopen'
    obtain rfl := Option.some.inj (hmagic.symm.trans hoffset')
    -- opening the same bytes again gives the table that was there at first
    obtain rfl := Option.some.inj ((rehash_again hrehash).symm.trans hrehash')
    refine ⟨?_, hcrc, hkeeps⟩
    rw [Handle.space, hmmap, hoffset]
    exact hcheck.resolve_left (by decide)
  · rintro ⟨hlength, hcrc, hkeeps⟩ addr' rdonly'
    refine ⟨h₀.remap addr' (!rdonly'), nvramOpen_eq_some.mpr ⟨offset, hmagic, Or.inr ?_, ?_⟩, hcrc, hkeeps⟩
    · rwa [Handle.space, hmmap, hoffset] at hlength
    · exact rehash_again hrehash

/-- A commit keeps the variables exactly under its condition. -/
theorem commitKeeps_iff {addr : ℕ} {part : Bytes} {rdonly : Bool} {h₀ : Handle}
    (hopen : nvramOpen addr part rdonly = some h₀) (hsize : part.length + 4 ≤ 4294967296)
    {ops : List Op} (hops : ∀ op ∈ ops, op.Plain) :
    CommitKeeps part (run h₀ ops) ↔ Commits h₀ (run h₀ ops) := by
  obtain ⟨ho, -, hsame, hmmap, -, -⟩ := opened_run hopen hsize hops
  generalize run h₀ ops = h at *
  rw [CommitKeeps, Commits, nvramCommit]
  dsimp only
  -- either the zeros end inside, and the commit writes a whole new partition
  by_cases hpad : 21 + (texts (kept h)).length + padLength h ≤ h.space
  · have hregenerate := regenerate_eq h ho.room hpad
    have hbytes : (regenerate h).bytes = newPart h := by rw [hregenerate, newPart]
    have hinside : (regenerate h).outside = false := by rw [hregenerate]
    obtain ⟨h', hread, -, -⟩ := rehash_newPart ho hpad { h with mmap := newPart h } rfl rfl
    rw [hinside, hbytes, hread]
    simp only [Option.isSome_some, true_implies, true_and, hpad]
    split_ifs
    · exact reopens_newPart_iff ho hpad
    · exact reopens_part_iff hopen
  -- or they do not, and both sides are false
  · have houtside := regenerate_outside h ho.room (not_le.mp hpad)
    rw [houtside]
    constructor
    · exact fun hkeeps => absurd hkeeps.1 (by decide)
    · exact fun hcommits => absurd hcommits.1 hpad

/-- Every name always reads what was set last, and a commit after that keeps it. -/
def RoundTrip (part : Bytes) (h₀ : Handle) (ops : List Op) : Prop :=
  (∀ before, before <+: ops → ∀ name,
    nvramGet (run h₀ before) name = lastSet name h₀ before (nvramGet h₀ name)) ∧
  CommitKeeps part (run h₀ ops)

/-- The variables of an open handle make the round trip exactly under the condition for
a commit. -/
theorem roundTrip_iff {addr : ℕ} {part : Bytes} {rdonly : Bool} {h₀ : Handle}
    (hopen : nvramOpen addr part rdonly = some h₀) (hsize : part.length + 4 ≤ 4294967296)
    {ops : List Op} (hops : ∀ op ∈ ops, op.Plain) :
    RoundTrip part h₀ ops ↔ Commits h₀ (run h₀ ops) := by
  obtain ⟨-, hplaced, -⟩ := opened_run hopen hsize hops
  rw [RoundTrip, commitKeeps_iff hopen hsize hops]
  refine and_iff_right fun before hbefore name => nvramGet_run hplaced (fun op hop => ?_) name
  exact hops op (hbefore.subset hop)

/-- A variable that is longer than the space for text is left out. -/
theorem not_fits_of_long {h : Handle} (hp : h.Placed) {n v : CStr} (hv : nvramGet h n = some v)
    (hn : n ∉ sdramNames) (hlong : h.space < n.bytes.length + v.bytes.length + 24) : ¬ Fits h := by
  rintro ⟨-, hleft⟩
  have hparam := hleft ⟨n, v⟩ ((mem_allTuples hp).mpr hv) fun hkept => by
    have hroom := (length_text_le hkept).trans (length_texts_kept h)
    rw [length_text] at hroom
    dsimp only at hroom
    omega
  have hname := List.mem_map_of_mem (f := Tuple.name) hparam
  rw [map_name_sdramParams] at hname
  exact hn hname

/-- A partition with a header and no variables. -/
def freshPart (n : ℕ) : Bytes :=
  header nvramMagic 24 (nvramVersion * 256) 0 0 ++ u32le 0 ++ List.replicate n 0xFF

theorem length_freshPart (n : ℕ) : (freshPart n).length = n + 24 := by
  rw [freshPart, List.length_append, List.length_replicate, Nat.add_comm]
  rfl

/-- A fresh partition can be opened for writing. -/
theorem nvramOpen_freshPart {n : ℕ} (addr : ℕ) (hn : 0 < n) :
    ∃ h, nvramOpen addr (freshPart n) false = some h ∧ h.space = n + 24 ∧ h.shared = true := by
  have hat : HasAt (freshPart n) 0 (header nvramMagic 24 (nvramVersion * 256) 0 0) := by
    rw [freshPart, List.append_assoc]
    exact hasAt_middle [] _ _
  obtain ⟨hword, hlen, -⟩ := getU32_header hat
  have hmagic : findMagic (freshPart n) = some 0 := by
    refine findMagic_eq_some.mpr ⟨0, rfl, ?_, ?_, fun j hj => absurd hj (Nat.not_lt_zero j)⟩
    · rw [length_freshPart]
      omega
    · simp only [Bool.and_eq_true, Bool.or_eq_true, decide_eq_true_eq, Nat.mul_zero, hword]
      exact ⟨Or.inr (Nat.zero_le _), nvramMagic_mod⟩
  have hsome : ∃ h, rehash ⟨addr, freshPart n, 0, fun _ => [], true⟩ = some h := ⟨_, rfl⟩
  obtain ⟨h, hrehash⟩ := hsome
  obtain ⟨hsame, -, -⟩ := rehash_placed hrehash
  refine ⟨h, nvramOpen_eq_some.mpr ⟨0, hmagic, Or.inr ?_, hrehash⟩, ?_, hsame.shared⟩
  · rw [hlen, length_freshPart]
    omega
  · rw [hsame.space, Handle.space]
    exact length_freshPart n

theorem plain_set {n v : CStr} (hn : 61 ∉ n.bytes) : ∀ op ∈ [Op.set n v], op.Plain := by
  intro op hop
  obtain rfl := List.mem_singleton.mp hop
  exact hn

/-- A small fresh partition, opened for writing. -/
def smallHandle : Handle := (nvramOpen 0 (freshPart 232) false).get (by decide +kernel)

/-- A short value makes the round trip. -/
theorem roundTrip_small :
    RoundTrip (freshPart 232) smallHandle [.set (CStr.lit "a") (CStr.lit "b")] := by
  have hopen : nvramOpen 0 (freshPart 232) false = some smallHandle := (Option.some_get _).symm
  have hshared : (run smallHandle [.set (CStr.lit "a") (CStr.lit "b")]).shared = true := by
    decide +kernel
  have hcommits : Commits smallHandle (run smallHandle [.set (CStr.lit "a") (CStr.lit "b")]) := by
    refine ⟨by decide +kernel, ?_⟩
    rw [if_pos hshared]
    exact ⟨by decide +kernel, by decide +kernel⟩
  exact (roundTrip_iff hopen (by decide +kernel) (plain_set (by decide))).mpr hcommits

/-- A value that a handle takes, and that a commit leaves out. -/
def longValue : CStr where
  bytes := List.replicate 32745 120
  noNul h := absurd (List.eq_of_mem_replicate h) (by decide)

/-- The long value is set in a fresh partition of 32 KiB, the commit returns, and the
value is lost. -/
theorem exists_lost_value : ¬ ∀ addr part rdonly h₀ ops, nvramOpen addr part rdonly = some h₀ →
    part.length + 4 ≤ 4294967296 → (∀ op ∈ ops, Op.Plain op) → RoundTrip part h₀ ops := by
  intro hall
  obtain ⟨h₀, hopen, hspace, hshared⟩ := nvramOpen_freshPart (n := 32744) 0 (by decide)
  have hsize : (freshPart 32744).length + 4 ≤ 4294967296 := by
    rw [length_freshPart]
    decide
  have hops := @plain_set (CStr.lit "a") longValue (by decide)
  obtain ⟨ho, -, hsame, -⟩ := opened_run hopen hsize hops
  have hfits : Fits (run h₀ [.set (CStr.lit "a") longValue]) :=
    ((roundTrip_iff hopen hsize hops).mp (hall 0 _ false _ _ hopen hsize hops)).fits
      (hsame.shared.trans hshared)
  have hlength : longValue.bytes.length = 32745 := List.length_replicate
  -- the handle takes the value, which needs more room than the text has
  refine not_fits_of_long ho.placed (n := CStr.lit "a") (v := longValue) ?_ (by decide) ?_ hfits
  · refine (nvramGet_nvramSet h₀ (CStr.lit "a") longValue (CStr.lit "a")).trans (if_pos ⟨rfl, ?_⟩)
    rw [hspace, hlength]
    decide
  · rw [hsame.space, hspace, hlength]
    decide

end NeonWrt.Nvram
