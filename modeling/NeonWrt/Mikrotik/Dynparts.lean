import NeonWrt.Lib.Binary
import NeonWrt.Lib.Halting

/-!
# The scan for well-known partitions

`routerboot_find_dynparts` reads a word at every block of a device and looks for the
magic numbers of the partitions it has not found yet. What a read gives is decided
by the number of reads before it, so that any pattern of failing and short reads is
covered; a short read leaves the end of the buffer as it was.

After a failed read the scan tries the same offset again, however often. The number
of bytes a read gives is looked at for the header of a device tree only.
-/

namespace NeonWrt.Mikrotik.Dynparts

open Lib StateTransition

/-- `RB_BLOCK_SIZE`. -/
def rbBlockSize : ℕ := 0x1000

/-- `struct routerboot_dynpart`. The size of a device tree is read from the device. -/
structure Dynpart where
  name : String
  magic : ℕ
  sizeFixup : Bool
  offset : ℕ
  size : ℕ
  found : Bool
  deriving DecidableEq, Repr

/-- `rb_dynparts`, as it is when the parser is loaded. -/
def rbDynparts : Endian → List Dynpart
  | .little =>
    [⟨"hard_config", 0x64726148, false, 0, rbBlockSize, false⟩,
      ⟨"soft_config", 0x74666f53, false, 0, rbBlockSize, false⟩,
      ⟨"dtb_config", 0xedfe0dd0, true, 0, 0, false⟩]
  | .big =>
    [⟨"hard_config", 0x64726148, false, 0, rbBlockSize, false⟩,
      ⟨"soft_config", 0x74666f53, false, 0, rbBlockSize, false⟩,
      ⟨"dtb_config", 0xd00dfeed, true, 0, 0, false⟩]

/-- What `mtd_read` returns, and how many bytes it has read. -/
structure ReadResult where
  err : ℤ
  bytesRead : ℕ
  deriving DecidableEq, Repr

/-- A device: its size, what is on the flash, and what each read gives, counted from the start of
the scan. A `size_t` has `width` bits. -/
structure Device where
  endian : Endian
  width : ℕ
  size : ℕ
  flash : ℕ → UInt8
  reads : ℕ → ReadResult

/-- The word in four bytes of memory. -/
def word (e : Endian) (mem : ℕ → UInt8) (o : ℕ) : ℕ :=
  e.getU32 [mem o, mem (o + 1), mem (o + 2), mem (o + 3)] 0

variable (d : Device)

/-- What a buffer holds after a read of `n` bytes. -/
def Device.fill (buf : ℕ → UInt8) (off n : ℕ) : ℕ → UInt8 :=
  fun i => if i < n then d.flash (off + i) else buf i

/-- `sizeof(fdt_header)`. -/
def fdtHeaderSize : ℕ := 40

/-- `routerboot_dtbsfixup`, whose read is the given one: the size of the device tree. -/
def routerbootDtbsfixup (r : ReadResult) (offset : ℕ) : Option ℕ :=
  -- `totalsize` is the second word of the header
  let psize := word .big d.flash (offset + 4)
  if r.err ≠ 0 then none
  else if r.bytesRead ≠ fdtHeaderSize then none
  else if psize = 0 then none
  else some psize

/-- A match that is reported: the partition, and how many bytes the read of its magic has given. -/
structure Match where
  part : Dynpart
  bytesRead : ℕ
  deriving DecidableEq, Repr

/-- The variables of the loop: the offset, `buf`, the number of reads so far, the partitions, and
the matches so far. -/
structure Scan where
  offset : ℕ
  buf : ℕ → UInt8
  calls : ℕ
  parts : List Dynpart
  hits : List Match

/-- What comes out of the inner loop: the partitions, the number of reads, `allfound`, how much is
skipped, and the match. -/
structure Lookup where
  parts : List Dynpart
  calls : ℕ
  allfound : Bool
  skip : ℕ
  hit : Option Dynpart
  deriving DecidableEq, Repr

/-- A partition before the ones that are looked at next. -/
def Lookup.after (p : Dynpart) (r : Lookup) : Lookup :=
  { r with parts := p :: r.parts, allfound := p.found && r.allfound }

/-- `ALIGN_DOWN(size - RB_BLOCK_SIZE, RB_BLOCK_SIZE)` for sizes above the block size. -/
def skipOf (size : ℕ) : ℕ :=
  if rbBlockSize < size then (size - rbBlockSize) / rbBlockSize * rbBlockSize else 0

/-- The inner loop ends with a match. -/
def Lookup.found (p : Dynpart) (ps : List Dynpart) (calls : ℕ) : Lookup :=
  ⟨{ p with found := true } :: ps, calls, false, skipOf p.size, some p⟩

/-- The inner loop over the partitions. -/
def lookup (magic offset : ℕ) : ℕ → List Dynpart → Lookup
  | calls, [] => ⟨[], calls, true, 0, none⟩
  | calls, p :: ps =>
    if p.found then (lookup magic offset calls ps).after p
    else if p.magic = magic then
      if p.sizeFixup then
        match routerbootDtbsfixup d (d.reads calls) offset with
        | none => (lookup magic offset (calls + 1) ps).after { p with offset := offset }
        | some psize => .found { p with offset := offset, size := psize } ps (calls + 1)
      else .found { p with offset := offset } ps calls
    else (lookup magic offset calls ps).after p

/-- The buffer after the read of a round. -/
def Scan.read (d : Device) (s : Scan) : ℕ → UInt8 :=
  d.fill s.buf s.offset (d.reads s.calls).bytesRead

/-- The inner loop of a round. -/
def Scan.look (d : Device) (s : Scan) : Lookup :=
  lookup d (word d.endian (s.read d) 0) s.offset (s.calls + 1) s.parts

/-- One round of the loop of `routerboot_find_dynparts`. -/
def step (s : Scan) : Option Scan :=
  if d.size ≤ s.offset then none
  else if (d.reads s.calls).err ≠ 0 then
    some { s with buf := s.read d, calls := s.calls + 1 }
  else if (s.look d).allfound then none
  else
    some
      { offset := ((s.offset + (s.look d).skip) % 2 ^ d.width + rbBlockSize) % 2 ^ d.width
        buf := s.read d
        calls := (s.look d).calls
        parts := (s.look d).parts
        hits := ((s.look d).hit.map fun p => ⟨p, (d.reads s.calls).bytesRead⟩).toList ++ s.hits }

/-- The scan before its first round. The buffer holds anything. -/
def start (buf : ℕ → UInt8) (parts : List Dynpart) : Scan := ⟨0, buf, 0, parts, []⟩

section

variable (buf : ℕ → UInt8) (parts : List Dynpart)

/-- The magic has been read where the match is reported. -/
def Device.Genuine (m : Match) : Prop :=
  4 ≤ m.bytesRead ∧ word d.endian d.flash m.part.offset = m.part.magic

/-- The scan ends, and all it reports is genuine. -/
def Sound : Prop :=
  Halts (step d) (start buf parts) ∧
    ∀ s, Reaches (step d) (start buf parts) s → ∀ m ∈ s.hits, d.Genuine m

/-- The word in the buffer is the magic of a partition that is not found yet and whose size, where
it has to be read, the next read gives. -/
def Wanted (s : Scan) (magic : ℕ) : Prop :=
  ∃ p ∈ s.parts, p.found = false ∧ p.magic = magic ∧
    (p.sizeFixup = true → (routerbootDtbsfixup d (d.reads (s.calls + 1)) s.offset).isSome)

/-- From no offset on all reads fail, offsets do not wrap at the end of the device unless all is
found at some point, and no short read leaves the magic of a wanted partition in the buffer. -/
structure Fine : Prop where
  retried : ∀ s, Reaches (step d) (start buf parts) s → s.offset < d.size →
    ∃ k, s.calls ≤ k ∧ (d.reads k).err = 0
  ends : d.size + rbBlockSize ≤ 2 ^ d.width ∨
    ∃ s, Reaches (step d) (start buf parts) s ∧ ∀ p ∈ s.parts, p.found = true
  whole : ∀ s, Reaches (step d) (start buf parts) s → s.offset < d.size →
    (d.reads s.calls).err = 0 → (d.reads s.calls).bytesRead < 4 →
    ¬ Wanted d s (word d.endian (s.read d) 0)

end

/-- What a scan never changes of a partition. -/
def Dynpart.key (p : Dynpart) : String × ℕ × Bool := (p.name, p.magic, p.sizeFixup)

/-- The partitions are those of `rb_dynparts`, with any offsets and sizes, found or not. -/
def Known (e : Endian) (parts : List Dynpart) : Prop :=
  parts.map Dynpart.key = (rbDynparts e).map Dynpart.key

variable {d} {buf : ℕ → UInt8} {parts ps : List Dynpart} {s t : Scan} {magic offset calls : ℕ}

/-- How many partitions are not found yet. -/
def unfound (ps : List Dynpart) : ℕ := ps.countP fun p => !p.found

theorem unfound_cons (p : Dynpart) (ps : List Dynpart) :
    unfound (p :: ps) = unfound ps + if p.found then 0 else 1 := by
  cases hp : p.found <;> simp [unfound, hp]

/-- What the inner loop does: it goes over all partitions, or it ends with a match. -/
inductive Looked (d : Device) (magic offset : ℕ) (ps : List Dynpart) (l : Lookup) : Prop where
  | missed (hhit : l.hit = none) (hskip : l.skip = 0) (hunfound : unfound l.parts = unfound ps)
  | matched (p : Dynpart) (hhit : l.hit = some p) (hmagic : p.magic = magic)
      (hoffset : p.offset = offset) (hskip : rbBlockSize ∣ l.skip)
      (hunfound : unfound l.parts + 1 = unfound ps)

theorem dvd_skipOf (size : ℕ) : rbBlockSize ∣ skipOf size := by
  unfold skipOf
  split_ifs
  · exact Nat.dvd_mul_left _ _
  · exact Nat.dvd_zero _

theorem Looked.after {p q : Dynpart} {l : Lookup} (h : Looked d magic offset ps l)
    (hfound : q.found = p.found) : Looked d magic offset (p :: ps) (l.after q) := by
  cases h with
  | missed hhit hskip hunfound =>
    refine .missed hhit hskip ?_
    rw [Lookup.after, unfound_cons, unfound_cons, hfound, hunfound]
  | matched r hhit hmagic hoffset hskip hunfound =>
    refine .matched r hhit hmagic hoffset hskip ?_
    rw [Lookup.after, unfound_cons, unfound_cons, hfound, ← hunfound]
    omega

theorem Looked.found {p q : Dynpart} (hmagic : q.magic = magic) (hoffset : q.offset = offset)
    (hfound : p.found = false) : Looked d magic offset (p :: ps) (.found q ps calls) := by
  refine .matched q rfl hmagic hoffset (dvd_skipOf _) ?_
  rw [Lookup.found, unfound_cons, unfound_cons, hfound]
  rfl

theorem looked_lookup (d : Device) (magic offset calls : ℕ) (ps : List Dynpart) :
    Looked d magic offset ps (lookup d magic offset calls ps) := by
  induction ps generalizing calls with
  | nil => exact .missed rfl rfl rfl
  | cons p ps ih =>
    rw [lookup]
    by_cases hfound : p.found = true
    · rw [if_pos hfound]
      exact (ih calls).after rfl
    rw [if_neg hfound]
    have hnot : p.found = false := Bool.not_eq_true _ ▸ hfound
    by_cases hmagic : p.magic = magic
    · rw [if_pos hmagic]
      by_cases hfixup : p.sizeFixup = true
      · rw [if_pos hfixup]
        cases routerbootDtbsfixup d (d.reads calls) offset with
        | none => exact (ih (calls + 1)).after rfl
        | some psize => exact .found hmagic rfl hnot
      · rw [if_neg hfixup]
        exact .found hmagic rfl hnot
    · rw [if_neg hmagic]
      exact (ih calls).after rfl

theorem lookup_allfound_iff :
    (lookup d magic offset calls ps).allfound = true ↔ ∀ p ∈ ps, p.found = true := by
  induction ps generalizing calls with
  | nil => simp [lookup]
  | cons p ps ih =>
    rw [lookup, List.forall_mem_cons]
    by_cases hfound : p.found = true
    · rw [if_pos hfound, and_iff_right hfound, ← @ih calls, Lookup.after, hfound, Bool.true_and]
    · rw [if_neg hfound]
      refine iff_of_false ?_ fun h => hfound h.1
      rw [Bool.not_eq_true] at hfound ⊢
      split_ifs
      · cases routerbootDtbsfixup d (d.reads calls) offset with
        | none => simp [Lookup.after, hfound]
        | some psize => rfl
      · rfl
      · simp [Lookup.after, hfound]

theorem map_key_lookup :
    (lookup d magic offset calls ps).parts.map Dynpart.key = ps.map Dynpart.key := by
  induction ps generalizing calls with
  | nil => rfl
  | cons p ps ih =>
    rw [lookup]
    split_ifs
    · exact congrArg (p.key :: ·) ih
    · cases routerbootDtbsfixup d (d.reads calls) offset with
      | none => exact congrArg (p.key :: ·) ih
      | some psize => rfl
    · rfl
    · exact congrArg (p.key :: ·) ih

theorem hit_eq_none_of_ne (h : ∀ p ∈ ps, p.magic ≠ magic) :
    (lookup d magic offset calls ps).hit = none := by
  induction ps generalizing calls with
  | nil => rfl
  | cons p ps ih =>
    obtain ⟨hp, hps⟩ := List.forall_mem_cons.mp h
    rw [lookup]
    split_ifs
    · exact ih hps
    · exact ih hps

/-- With distinct magics, the inner loop ends with a match exactly if the one partition with the
magic is wanted. -/
theorem hit_isSome_iff (hnodup : (ps.map Dynpart.magic).Nodup) :
    (lookup d magic offset calls ps).hit.isSome ↔
      ∃ p ∈ ps, p.found = false ∧ p.magic = magic ∧
        (p.sizeFixup = true → (routerbootDtbsfixup d (d.reads calls) offset).isSome) := by
  induction ps generalizing calls with
  | nil => simp [lookup]
  | cons p ps ih =>
    rw [List.map_cons, List.nodup_cons] at hnodup
    rw [lookup, List.exists_mem_cons_iff]
    by_cases hfound : p.found = true
    · rw [if_pos hfound, hfound]
      simpa [Lookup.after] using ih hnodup.2
    rw [if_neg hfound]
    have hnot : p.found = false := Bool.not_eq_true _ ▸ hfound
    by_cases hmagic : p.magic = magic
    · have hrest : ∀ q ∈ ps, q.magic ≠ magic := by
        intro q hq heq
        exact hnodup.1 (List.mem_map.mpr ⟨q, hq, heq.trans hmagic.symm⟩)
      have hnone : ¬ ∃ q ∈ ps, q.found = false ∧ q.magic = magic ∧
          (q.sizeFixup = true → (routerbootDtbsfixup d (d.reads calls) offset).isSome) :=
        fun ⟨q, hq, _, heq, _⟩ => hrest q hq heq
      rw [if_pos hmagic, or_iff_left hnone]
      by_cases hfixup : p.sizeFixup = true
      · rw [if_pos hfixup]
        cases hsize : routerbootDtbsfixup d (d.reads calls) offset with
        | none => simp [Lookup.after, hit_eq_none_of_ne hrest, hfixup]
        | some psize => simp [Lookup.found, hnot, hmagic]
      · rw [if_neg hfixup]
        simp [Lookup.found, hnot, hmagic, hfixup]
    · rw [if_neg hmagic]
      simpa [Lookup.after, hmagic] using ih hnodup.2

theorem Known.nodup {e : Endian} (h : Known e parts) : (parts.map Dynpart.magic).Nodup := by
  have hmagics : parts.map Dynpart.magic = (rbDynparts e).map Dynpart.magic := by
    have hcongr := congrArg (List.map fun k => k.2.1) h
    rwa [List.map_map, List.map_map] at hcongr
  rw [hmagics]
  cases e <;> decide

/-- What a round does: it ends the scan, it fails to read, or it goes on to another offset. -/
theorem step_cases (h : step d s = some t) :
    s.offset < d.size ∧
      (((d.reads s.calls).err ≠ 0 ∧ t = { s with buf := s.read d, calls := s.calls + 1 }) ∨
        ((d.reads s.calls).err = 0 ∧ (s.look d).allfound = false ∧
          t = ⟨((s.offset + (s.look d).skip) % 2 ^ d.width + rbBlockSize) % 2 ^ d.width,
            s.read d, (s.look d).calls, (s.look d).parts,
            ((s.look d).hit.map fun p => ⟨p, (d.reads s.calls).bytesRead⟩).toList ++ s.hits⟩)) := by
  rw [step] at h
  split_ifs at h with hend herr hall
  · exact ⟨Nat.lt_of_not_le hend, .inl ⟨herr, (Option.some.inj h).symm⟩⟩
  · exact ⟨Nat.lt_of_not_le hend,
      .inr ⟨not_not.mp herr, Bool.not_eq_true _ ▸ hall, (Option.some.inj h).symm⟩⟩

theorem step_eq_none_iff : step d s = none ↔
    d.size ≤ s.offset ∨ ((d.reads s.calls).err = 0 ∧ ∀ p ∈ s.parts, p.found = true) := by
  have hall : (s.look d).allfound = true ↔ ∀ p ∈ s.parts, p.found = true := lookup_allfound_iff
  rw [step, ← hall]
  split_ifs with hend herr hfound <;> simp_all

theorem known_of_reaches {e : Endian} (hparts : Known e parts)
    (h : Reaches (step d) (start buf parts) s) : Known e s.parts := by
  induction h with
  | refl => exact hparts
  | tail _ hstep ih =>
    obtain ⟨-, ⟨-, rfl⟩ | ⟨-, -, rfl⟩⟩ := step_cases hstep
    · exact ih
    · exact map_key_lookup.trans ih

theorem offset_of_reaches (hw : 12 ≤ d.width) (h : Reaches (step d) (start buf parts) s) :
    rbBlockSize ∣ s.offset ∧ s.offset < 2 ^ d.width := by
  have hblock : rbBlockSize ∣ 2 ^ d.width := Nat.pow_dvd_pow 2 hw
  have hpow : 0 < 2 ^ d.width := Nat.two_pow_pos _
  induction h with
  | refl => exact ⟨Nat.dvd_zero _, hpow⟩
  | @tail s t _ hstep ih =>
    obtain ⟨-, ⟨-, rfl⟩ | ⟨-, -, rfl⟩⟩ := step_cases hstep
    · exact ih
    · have hskip : rbBlockSize ∣ (s.look d).skip := by
        cases looked_lookup d (word d.endian (s.read d) 0) s.offset (s.calls + 1) s.parts with
        | missed _ hskip _ =>
          rw [Scan.look, hskip]
          exact Nat.dvd_zero _
        | matched _ _ _ _ hskip _ => exact hskip
      refine ⟨?_, Nat.mod_lt _ hpow⟩
      rw [Nat.mod_add_mod, Nat.dvd_mod_iff hblock]
      exact Nat.dvd_add (Nat.dvd_add ih.1 hskip) (Nat.dvd_refl _)

/-- A scan that fails to read from some point on does not end. -/
theorem not_halts_of_failing (hlt : s.offset < d.size)
    (hfail : ∀ k, s.calls ≤ k → (d.reads k).err ≠ 0) : ¬ Halts (step d) s := by
  rintro ⟨t, hreach, hend⟩
  have hstuck : t.offset = s.offset ∧ s.calls ≤ t.calls := by
    clear hend
    induction hreach with
    | refl => exact ⟨rfl, Nat.le_refl _⟩
    | tail _ hstep ih =>
      obtain ⟨-, ⟨-, rfl⟩ | ⟨hok, -, -⟩⟩ := step_cases hstep
      · exact ⟨ih.1, Nat.le_succ_of_le ih.2⟩
      · exact absurd hok (hfail _ ih.2)
  rcases step_eq_none_iff.mp hend with hle | ⟨hok, -⟩
  · rw [hstuck.1] at hle
    exact Nat.not_le.mpr hlt hle
  · exact hfail _ hstuck.2 hok

/-- A scan whose reads do not all fail comes to one that does not. -/
theorem reaches_read {k : ℕ} (hlt : s.offset < d.size) (hk : s.calls ≤ k)
    (hok : (d.reads k).err = 0) :
    ∃ t, Reaches (step d) s t ∧ t.offset = s.offset ∧ t.parts = s.parts ∧
      (d.reads t.calls).err = 0 := by
  obtain ⟨n, rfl⟩ := Nat.exists_eq_add_of_le hk
  induction n generalizing s with
  | zero => exact ⟨s, .refl, rfl, rfl, hok⟩
  | succ n ih =>
    by_cases herr : (d.reads s.calls).err = 0
    · exact ⟨s, .refl, rfl, rfl, herr⟩
    · have hstep : step d s = some { s with buf := s.read d, calls := s.calls + 1 } := by
        rw [step, if_neg (Nat.not_le.mpr hlt), if_pos herr]
      obtain ⟨t, hreach, hoffset, hparts, hread⟩ :=
        @ih { s with buf := s.read d, calls := s.calls + 1 } hlt (Nat.le_add_right _ _)
          (by rwa [Nat.add_assoc, Nat.add_comm 1 n])
      exact ⟨t, .head hstep hreach, hoffset, hparts, hread⟩

/-- What decreases with every read that succeeds: the partitions that are not found yet, and then
what is left of the device. -/
def Scan.left (d : Device) (s : Scan) : ℕ := unfound s.parts * (d.size + 1) + (d.size - s.offset)

theorem left_lt (hsize : d.size + rbBlockSize ≤ 2 ^ d.width) (h : step d s = some t)
    (hok : (d.reads s.calls).err = 0) : t.left d < s.left d := by
  obtain ⟨hlt, ⟨herr, -⟩ | ⟨-, -, rfl⟩⟩ := step_cases h
  · exact absurd hok herr
  have hblock : 0 < rbBlockSize := by decide
  unfold Scan.left
  cases looked_lookup d (word d.endian (s.read d) 0) s.offset (s.calls + 1) s.parts with
  | missed _ hskip hunfound =>
    -- nothing is skipped, and the next block is in reach of a `size_t`
    have hnext : ((s.offset + (s.look d).skip) % 2 ^ d.width + rbBlockSize) % 2 ^ d.width =
        s.offset + rbBlockSize := by
      rw [Scan.look, hskip, Nat.add_zero, Nat.mod_add_mod, Nat.mod_eq_of_lt (by omega)]
    have hsame : unfound (s.look d).parts = unfound s.parts := hunfound
    dsimp only
    rw [hnext, hsame]
    omega
  | matched _ _ _ _ _ hunfound =>
    have hone : unfound s.parts = unfound (s.look d).parts + 1 := hunfound.symm
    dsimp only
    rw [hone, Nat.add_mul, Nat.one_mul]
    omega

theorem Fine.halts (hfine : Fine d buf parts) : Halts (step d) (start buf parts) := by
  have hreturn : ∀ {s}, Reaches (step d) (start buf parts) s → Halts (step d) s →
      Halts (step d) (start buf parts) := fun hreach ⟨t, hst, hend⟩ => ⟨t, hreach.trans hst, hend⟩
  rcases hfine.ends with hsize | ⟨s, hreach, hall⟩
  · suffices hall : ∀ n s, s.left d = n → Reaches (step d) (start buf parts) s → Halts (step d) s
      from hall _ _ rfl .refl
    intro n
    induction n using Nat.strong_induction_on with
    | _ n ih =>
      rintro s rfl hreach
      by_cases hend : d.size ≤ s.offset
      · exact .of_none (step_eq_none_iff.mpr (.inl hend))
      obtain ⟨k, hk, hok⟩ := hfine.retried s hreach (Nat.lt_of_not_le hend)
      obtain ⟨t, hst, hoffset, hparts, hread⟩ := reaches_read (Nat.lt_of_not_le hend) hk hok
      have hleft : t.left d = s.left d := by rw [Scan.left, hoffset, hparts, Scan.left]
      suffices ht : Halts (step d) t from by
        obtain ⟨u, htu, hu⟩ := ht
        exact ⟨u, hst.trans htu, hu⟩
      cases hnext : step d t with
      | none => exact .of_none hnext
      | some u =>
        have hlt := left_lt hsize hnext hread
        rw [hleft] at hlt
        exact .step hnext (ih _ hlt u rfl ((hreach.trans hst).tail hnext))
  · apply hreturn hreach
    by_cases hend : d.size ≤ s.offset
    · exact .of_none (step_eq_none_iff.mpr (.inl hend))
    obtain ⟨k, hk, hok⟩ := hfine.retried s hreach (Nat.lt_of_not_le hend)
    obtain ⟨t, hst, -, hparts, hread⟩ := reaches_read (Nat.lt_of_not_le hend) hk hok
    exact ⟨t, hst, step_eq_none_iff.mpr (.inr ⟨hread, hparts ▸ hall⟩)⟩

/-- After a read of four bytes the buffer holds what is on the flash. -/
theorem word_read (h : 4 ≤ (d.reads s.calls).bytesRead) :
    word d.endian (s.read d) 0 = word d.endian d.flash s.offset := by
  have hbyte : ∀ i < 4, s.read d i = d.flash (s.offset + i) := fun i hi => if_pos (by omega)
  rw [word, word, hbyte 0 (by decide), hbyte (0 + 1) (by decide), hbyte (0 + 2) (by decide),
    hbyte (0 + 3) (by decide)]
  rfl

theorem Fine.genuine (hparts : Known d.endian parts) (hfine : Fine d buf parts)
    (h : Reaches (step d) (start buf parts) s) : ∀ m ∈ s.hits, d.Genuine m := by
  induction h with
  | refl => simp [start]
  | @tail s t hreach hstep ih =>
    obtain ⟨hlt, ⟨-, rfl⟩ | ⟨hok, -, rfl⟩⟩ := step_cases hstep
    · exact ih
    intro m hm
    rw [List.mem_append] at hm
    rcases hm with hnew | hold
    · rw [Option.mem_toList, Option.map_eq_some_iff] at hnew
      obtain ⟨p, hhit, rfl⟩ := hnew
      have hwanted : Wanted d s (word d.endian (s.read d) 0) :=
        (hit_isSome_iff (known_of_reaches hparts hreach).nodup).mp
          (Option.isSome_iff_exists.mpr ⟨p, hhit⟩)
      have hfour : 4 ≤ (d.reads s.calls).bytesRead := by
        by_contra hshort
        exact hfine.whole s hreach hlt hok (Nat.lt_of_not_le hshort) hwanted
      refine ⟨hfour, ?_⟩
      cases looked_lookup d (word d.endian (s.read d) 0) s.offset (s.calls + 1) s.parts with
      | missed hnone _ _ =>
        rw [Scan.look, hnone] at hhit
        cases hhit
      | matched q hq hmagic hoffset _ _ =>
        rw [Scan.look, hq] at hhit
        cases hhit
        rw [hoffset, hmagic, word_read hfour]
    · exact ih m hold

theorem Sound.whole (hparts : Known d.endian parts) (hsound : Sound d buf parts)
    (hreach : Reaches (step d) (start buf parts) s) (hlt : s.offset < d.size)
    (hok : (d.reads s.calls).err = 0) (hshort : (d.reads s.calls).bytesRead < 4) :
    ¬ Wanted d s (word d.endian (s.read d) 0) := by
  intro hwanted
  obtain ⟨p, hhit⟩ := Option.isSome_iff_exists.mp
    ((hit_isSome_iff (known_of_reaches hparts hreach).nodup).mpr hwanted)
  cases hnext : step d s with
  | none =>
    rcases step_eq_none_iff.mp hnext with hle | ⟨-, hall⟩
    · exact Nat.not_le.mpr hlt hle
    · obtain ⟨q, hq, hnot, -⟩ := hwanted
      rw [hall q hq] at hnot
      cases hnot
  | some t =>
    obtain ⟨-, ⟨herr, -⟩ | ⟨-, -, ht⟩⟩ := step_cases hnext
    · exact herr hok
    -- the round reports the match, which is not genuine
    have hmem : ⟨p, (d.reads s.calls).bytesRead⟩ ∈ t.hits := by
      rw [ht, Scan.look, hhit]
      exact List.mem_cons_self
    have hfour := (hsound.2 t (hreach.tail hnext) _ hmem).1
    exact Nat.not_le.mpr hshort hfour

theorem Sound.ends (hw : 12 ≤ d.width) (hsound : Sound d buf parts) :
    d.size + rbBlockSize ≤ 2 ^ d.width ∨
      ∃ s, Reaches (step d) (start buf parts) s ∧ ∀ p ∈ s.parts, p.found = true := by
  obtain ⟨⟨s, hreach, hend⟩, -⟩ := hsound
  by_cases hsize : d.size + rbBlockSize ≤ 2 ^ d.width
  · exact .inl hsize
  · refine .inr ⟨s, hreach, ?_⟩
    obtain ⟨⟨n, hn⟩, hlt⟩ := offset_of_reaches hw hreach
    obtain ⟨m, hm⟩ : rbBlockSize ∣ 2 ^ d.width := Nat.pow_dvd_pow 2 hw
    rcases step_eq_none_iff.mp hend with hle | ⟨-, hall⟩
    · -- the last block a `size_t` can address is not behind the device
      have hblock : rbBlockSize = 4096 := rfl
      rw [hblock] at hn hm hsize
      omega
    · exact hall

/-- A scan ends and reports genuine matches only, if and only if all it comes to is fine. -/
theorem findDynparts_sound_iff (d : Device) (buf : ℕ → UInt8) (parts : List Dynpart) (hw : 12 ≤ d.width)
    (hparts : Known d.endian parts) : Sound d buf parts ↔ Fine d buf parts := by
  constructor
  · intro hsound
    refine ⟨fun s hreach hlt => ?_, hsound.ends hw, fun s => hsound.whole hparts⟩
    by_contra hnone
    push Not at hnone
    obtain ⟨t, hend, hnext⟩ := hsound.1
    refine not_halts_of_failing hlt hnone ?_
    rcases reaches_total hreach hend with hst | hts
    · exact ⟨t, hst, hnext⟩
    · rcases hts.cases_head with rfl | ⟨u, hu, -⟩
      · exact .of_none hnext
      · rw [hnext] at hu
        cases hu
  · exact fun hfine => ⟨hfine.halts, fun s hreach => hfine.genuine hparts hreach⟩

/-- A device of one block, with nothing on it, all of whose reads give the same. -/
def oneBlock (r : ReadResult) : Device := ⟨.little, 32, rbBlockSize, fun _ => 0, fun _ => r⟩

theorem sound_oneBlock : Sound (oneBlock ⟨0, 4⟩) (fun _ => 0) (rbDynparts .little) :=
  (findDynparts_sound_iff (oneBlock ⟨0, 4⟩) (fun _ => 0) (rbDynparts .little) (by decide) rfl).mpr
    ⟨fun s _ _ => ⟨s.calls, Nat.le_refl _, rfl⟩, .inl (by decide),
      fun _ _ _ _ hshort => absurd hshort (Nat.lt_irrefl 4)⟩

/-- A device whose reads all fail is read forever. -/
theorem not_sound_oneBlock : ¬ ∀ (d : Device) (buf : ℕ → UInt8) (parts : List Dynpart),
    12 ≤ d.width → Known d.endian parts → Sound d buf parts := by
  intro h
  have hsound := h (oneBlock ⟨-5, 0⟩) (fun _ => 0) (rbDynparts .little) (by decide) rfl
  have herr : (-5 : ℤ) ≠ 0 := by decide
  exact not_halts_of_failing (by decide) (fun _ _ => herr) hsound.1

end NeonWrt.Mikrotik.Dynparts
