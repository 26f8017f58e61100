import NeonWrt.Lib.Binary
import NeonWrt.Lib.Halting
import Mathlib.Data.Finite.Prod

/-!
# The scan for files of a Broadcom whole flash image

`jffs2_find_file` of `mtdsplit_bcm_wfi.c` reads the blocks of a range that begin with the magic of
JFFS2, and walks over each from node to node: by four bytes where there is no directory entry, and
by the length of the entry where there is one. The two loops are one here, whose states say where
the scan is. A block lies in a buffer with other memory behind it, and a state has the pieces of
the buffer that are read there. The checksum is a parameter.

The walk takes the length of an entry as it is. So an entry may lead back to itself or, as offsets
have 32 bits, to what comes before it; and an entry may begin so late that it ends behind the
buffer.
-/

namespace NeonWrt.Mtdsplit

open Lib StateTransition

/-- A buffer with the memory behind it. -/
abbrev Memory := ℕ → UInt8

/-- What `mtd_read` returns, which is 0 or a negative error, and how many bytes it has read. -/
structure ReadResult where
  rc : ℤ
  retlen : ℕ
  nonpos : rc ≤ 0
  deriving DecidableEq, Repr

/-- A read that succeeds. -/
def ReadResult.ok (n : ℕ) : ReadResult := ⟨0, n, le_rfl⟩

/-- What the reads of one scan return, by the block they are made for: those of the magic, and those
of the whole block. -/
structure Reads where
  magic : ℕ → ReadResult
  block : ℕ → ReadResult

/-- A device: its CPU and checksum, the size of its blocks, its size, what is on the flash, and what
lies in memory behind the buffer for a block. -/
structure Device where
  endian : Endian
  crc32 : Bytes → ℕ
  erasesize : ℕ
  erasesize_pos : 0 < erasesize
  size : ℕ
  flash : Memory
  behind : Memory

/-- The error `-ENOENT`. -/
def eNoEnt : ℤ := -2

/-- The error `-EINVAL`. -/
def eInval : ℤ := -22

/-- `JFFS2_MAGIC_BITMASK` -/
def jffs2MagicBitmask : ℕ := 0x1985

/-- `JFFS2_NODETYPE_DIRENT` -/
def jffs2NodetypeDirent : ℕ := 0xe001

/-- `OPENWRT_NAME` -/
def openwrtName : Bytes := ascii "1-openwrt"

/-- Some bytes of memory. -/
def slice (mem : Memory) (p n : ℕ) : Bytes := (List.range n).map fun i => mem (p + i)

section Nodes

variable (d : Device)

/-- The buffer behind the read of a whole block. -/
def Device.fill (offs : ℕ) : Memory :=
  fun i => if i < d.erasesize then d.flash (offs + i) else d.behind i

/-- A field of 16 bits. -/
def Device.u16 (mem : Memory) (p : ℕ) : ℕ := d.endian.getU16 (slice mem p 2) 0

/-- A field of 32 bits. -/
def Device.u32 (mem : Memory) (p : ℕ) : ℕ := d.endian.getU32 (slice mem p 4) 0

/-- `jffs2_dirent_crc` -/
def jffs2DirentCrc (mem : Memory) (p : ℕ) : ℕ := d.crc32 (slice mem p 32)

/-- `jffs2_dirent_valid` -/
def jffs2DirentValid (mem : Memory) (p : ℕ) : Bool :=
  d.u16 mem p = jffs2MagicBitmask && d.u16 mem (p + 2) = jffs2NodetypeDirent &&
    d.u32 mem (p + 20) ≠ 0 && d.u32 mem (p + 32) = jffs2DirentCrc d mem p

/-- `!memcmp(node->name, text, length)` -/
def hasName (mem : Memory) (p : ℕ) (text : Bytes) : Bool := slice mem (p + 40) text.length = text

/-- The offset behind an entry, in 32 bits. -/
def advance (mem : Memory) (p : ℕ) : ℕ :=
  ((p + d.u32 mem (p + 4)) % 2 ^ 32 + 3) % 2 ^ 32 / 4 * 4

/-- `node->nsize` -/
def nsize (mem : Memory) (p : ℕ) : ℕ := (mem (p + 28)).toNat

/-- `kstrndup(node->name, node->nsize, GFP_KERNEL)` -/
def kstrndup (mem : Memory) (p : ℕ) : Bytes := cstr (slice mem (p + 40) (nsize mem p))

/-- How far from a node memory is read: the fields up to the first that is not that of an entry,
the name as far as it is compared with the marker or else with the file, and all of it if it is
copied. -/
def extent (name : Bytes) (copied : Bool) (mem : Memory) (p : ℕ) : ℕ :=
  if d.u16 mem p ≠ jffs2MagicBitmask then 2
  else if d.u16 mem (p + 2) ≠ jffs2NodetypeDirent then 4
  else if d.u32 mem (p + 20) = 0 then 24
  else if d.u32 mem (p + 32) ≠ jffs2DirentCrc d mem p then 36
  else if hasName mem p openwrtName then 49
  else if hasName mem p name ∧ copied then
    40 + max 9 (max name.length (min (nsize mem p) ((kstrndup mem p).length + 1)))
  else 40 + max 9 name.length

end Nodes

/-- Where the scan is: `*offs`, `valid`, and `block_offs` within a block. -/
structure Scan where
  offs : ℕ
  valid : Bool
  block : Option ℕ
  deriving DecidableEq, Repr

/-- What the function returns: the value, `*offs`, and the name with its length if there is one. -/
structure Found where
  ret : ℤ
  offs : ℕ
  outName : Option (Bytes × ℕ)
  deriving DecidableEq, Repr

/-- The arguments of the function, with what its reads return. `wanted` says that `out_name` is no
null pointer; `finish` is the end of the range. -/
structure Search where
  dev : Device
  reads : Reads
  name : Bytes
  finish : ℕ
  wanted : Bool

section Find

variable (q : Search)

/-- The state before the loop. -/
def Scan.start (offs : ℕ) : Scan := ⟨offs, false, none⟩

/-- A pass of the loop over the blocks, up to the walk, or one of the walk over a block. -/
def step (s : Scan) : Scan ⊕ Found :=
  match s.block with
  | none =>
    if q.finish ≤ s.offs then .inr ⟨eNoEnt, s.offs, none⟩
    else if (q.reads.magic s.offs).rc ≠ 0 ∨ (q.reads.magic s.offs).retlen ≠ 2 then
      .inl { s with offs := s.offs + q.dev.erasesize }
    else if q.dev.u16 q.dev.flash s.offs ≠ jffs2MagicBitmask then
      .inl { s with offs := s.offs + q.dev.erasesize }
    else if (q.reads.block s.offs).rc ≠ 0 then .inr ⟨(q.reads.block s.offs).rc, s.offs, none⟩
    else if (q.reads.block s.offs).retlen ≠ q.dev.erasesize then .inr ⟨eInval, s.offs, none⟩
    else .inl { s with block := some 0 }
  | some p =>
    let mem := q.dev.fill s.offs
    if q.dev.erasesize ≤ p then .inl ⟨s.offs + q.dev.erasesize, s.valid, none⟩
    else if jffs2DirentValid q.dev mem p = false then
      .inl { s with block := some ((p + 4) % 2 ^ 32) }
    else if hasName mem p openwrtName then
      .inl { s with valid := true, block := some (advance q.dev mem p) }
    else if hasName mem p q.name then
      if s.valid = false then .inr ⟨eInval, s.offs, none⟩
      else .inr ⟨0, s.offs, if q.wanted then some (kstrndup mem p, nsize mem p) else none⟩
    else .inl { s with block := some (advance q.dev mem p) }

/-- The state behind a pass, if the function does not return there. -/
def next (s : Scan) : Option Scan := (step q s).getLeft?

/-- The function for some passes of its loops. -/
def run : ℕ → Scan → Option Found
  | 0, _ => none
  | fuel + 1, s =>
    match step q s with
    | .inl s' => run fuel s'
    | .inr out => some out

/-- `jffs2_find_file`, for some passes of its loops. -/
def jffs2FindFile (fuel offs : ℕ) : Option Found := run q fuel (.start offs)

/-- The pieces of the buffer that a pass reads, each with its length, in order. -/
def bufReads (s : Scan) : List (ℕ × ℕ) :=
  match s.block with
  | none => []
  | some p =>
    let mem := q.dev.fill s.offs
    if q.dev.erasesize ≤ p then []
    else if q.dev.u16 mem p ≠ jffs2MagicBitmask then [(p, 2)]
    else if q.dev.u16 mem (p + 2) ≠ jffs2NodetypeDirent then [(p, 2), (p + 2, 2)]
    else if q.dev.u32 mem (p + 20) = 0 then [(p, 2), (p + 2, 2), (p + 20, 4)]
    else if q.dev.u32 mem (p + 32) ≠ jffs2DirentCrc q.dev mem p then
      [(p, 2), (p + 2, 2), (p + 20, 4), (p + 32, 4), (p, 32)]
    else
      let entry := [(p, 2), (p + 2, 2), (p + 20, 4), (p + 32, 4), (p, 32), (p + 40, 9)]
      if hasName mem p openwrtName then entry ++ [(p + 4, 4)]
      else if hasName mem p q.name then
        -- `kstrndup` looks for the end of the name in `nsize` bytes
        if s.valid ∧ q.wanted then
          entry ++ [(p + 40, q.name.length), (p + 28, 1),
            (p + 40, min (nsize mem p) ((kstrndup mem p).length + 1))]
        else entry ++ [(p + 40, q.name.length)]
      else entry ++ [(p + 40, q.name.length), (p + 4, 4)]

/-- A scan comes to a state. -/
def Visits (offs : ℕ) (s : Scan) : Prop := Reaches (next q) (.start offs) s

/-- A state at an entry of a block with some name. -/
def AtEntry (s : Scan) (text : Bytes) : Prop :=
  ∃ p, s.block = some p ∧ p + 40 + text.length ≤ q.dev.erasesize ∧
    jffs2DirentValid q.dev (q.dev.fill s.offs) p = true ∧
    hasName (q.dev.fill s.offs) p text = true

/-- A scan ends, reads inside the buffer, and finds only an offset whose block has an entry with
the name, to which the scan comes behind one with the marker. -/
structure FindSound (offs : ℕ) : Prop where
  terminates : ∃ fuel out, jffs2FindFile q fuel offs = some out
  inside : ∀ s, Visits q offs s → ∀ r ∈ bufReads q s, r.1 + r.2 ≤ q.dev.erasesize
  genuine : ∀ fuel out, jffs2FindFile q fuel offs = some out → out.ret = 0 →
    ∃ m s, Visits q offs m ∧ AtEntry q m openwrtName ∧ Reaches₁ (next q) m s ∧
      AtEntry q s q.name ∧ out.offs = s.offs

/-- The scan comes to no state again: no entry leads back to a node that was passed. -/
def Fresh (offs : ℕ) : Prop := ∀ s, Visits q offs s → ¬Reaches₁ (next q) s s

/-- Each node the scan comes to lies in the buffer as far as it is looked at. -/
def Fits (offs : ℕ) : Prop :=
  ∀ s p, Visits q offs s → s.block = some p → p < q.dev.erasesize →
    p + extent q.dev q.name (s.valid && q.wanted) (q.dev.fill s.offs) p ≤ q.dev.erasesize

end Find

section Run

variable {q : Search} {s t : Scan} {offs fuel p : ℕ} {out : Found}

theorem next_eq_some : next q s = some t ↔ step q s = .inl t := by
  rw [next]
  cases step q s <;> simp

theorem next_eq_none : next q s = none ↔ ∃ out, step q s = .inr out := by
  rw [next]
  cases step q s <;> simp

/-- A result comes from a state that is reached. -/
theorem run_eq_some_iff :
    (∃ fuel, run q fuel s = some out) ↔ ∃ t, Reaches (next q) s t ∧ step q t = .inr out := by
  constructor
  · rintro ⟨fuel, h⟩
    induction fuel generalizing s with
    | zero => cases h
    | succ fuel ih =>
      rw [run] at h
      cases hstep : step q s with
      | inl s' =>
        rw [hstep] at h
        obtain ⟨t, hreach, ht⟩ := ih h
        exact ⟨t, hreach.head (next_eq_some.mpr hstep), ht⟩
      | inr out' =>
        rw [hstep] at h
        cases h
        exact ⟨s, .refl, hstep⟩
  · rintro ⟨t, hreach, ht⟩
    induction hreach using Relation.ReflTransGen.head_induction_on with
    | refl => exact ⟨1, by rw [run, ht]⟩
    | head hstep _ ih =>
      obtain ⟨fuel, hrun⟩ := ih
      exact ⟨fuel + 1, by rw [run, next_eq_some.mp hstep]; exact hrun⟩

theorem jffs2FindFile_eq_some_iff :
    (∃ fuel, jffs2FindFile q fuel offs = some out) ↔
      ∃ t, Visits q offs t ∧ step q t = .inr out :=
  run_eq_some_iff

/-- The function returns exactly if its loops end. -/
theorem returns_iff_halts :
    (∃ fuel out, jffs2FindFile q fuel offs = some out) ↔ Halts (next q) (.start offs) := by
  rw [exists_comm]
  constructor
  · rintro ⟨out, h⟩
    obtain ⟨t, hreach, ht⟩ := jffs2FindFile_eq_some_iff.mp h
    exact ⟨t, hreach, next_eq_none.mpr ⟨out, ht⟩⟩
  · rintro ⟨t, hreach, ht⟩
    obtain ⟨out, hstep⟩ := next_eq_none.mp ht
    exact ⟨out, jffs2FindFile_eq_some_iff.mpr ⟨t, hreach, hstep⟩⟩

theorem run_mono {fuel' : ℕ} (hle : fuel ≤ fuel') (h : run q fuel s = some out) :
    run q fuel' s = some out := by
  induction fuel generalizing fuel' s with
  | zero => cases h
  | succ fuel ih =>
    obtain ⟨k, rfl⟩ : ∃ k, fuel' = k + 1 := ⟨fuel' - 1, by omega⟩
    rw [run] at h ⊢
    cases hstep : step q s with
    | inl s' =>
      rw [hstep] at h
      exact ih (by omega) h
    | inr out' =>
      rw [hstep] at h
      exact h

/-- Within a block the scan is in the range, at an offset of 32 bits. -/
theorem bounds_of_visits (h : Visits q offs s) (hp : s.block = some p) :
    s.offs < q.finish ∧ p < 2 ^ 32 := by
  induction h generalizing p with
  | refl => cases hp
  | @tail b c _ hstep ih =>
    have hstep := next_eq_some.mp hstep
    rw [step] at hstep
    cases hb : b.block with
    | none =>
      simp only [hb] at hstep
      split_ifs at hstep with hend
      all_goals cases hstep
      · cases hp
      · cases hp
      · cases hp
        exact ⟨Nat.lt_of_not_le hend, by decide⟩
    | some r =>
      have hr := (ih hb).1
      simp only [hb] at hstep
      split_ifs at hstep
      all_goals cases hstep
      · cases hp
      · cases hp
        exact ⟨hr, Nat.mod_lt _ (by decide)⟩
      · cases hp
        refine ⟨hr, ?_⟩
        rw [advance]
        omega
      · cases hp
        refine ⟨hr, ?_⟩
        rw [advance]
        omega

/-- The scan only moves forward in the range, and gives 0 or an error. -/
theorem offs_le_of_visits (h : Visits q offs s) : offs ≤ s.offs := by
  induction h with
  | refl => exact le_rfl
  | @tail b c _ hnext ih =>
    have hstep := next_eq_some.mp hnext
    rw [step] at hstep
    cases hb : b.block with
    | none =>
      simp only [hb] at hstep
      split_ifs at hstep
      all_goals cases hstep
      · exact Nat.le_add_right_of_le ih
      · exact Nat.le_add_right_of_le ih
      · exact ih
    | some p =>
      simp only [hb] at hstep
      split_ifs at hstep
      all_goals cases hstep
      · exact Nat.le_add_right_of_le ih
      all_goals exact ih

/-- What is returned is 0, with an offset of the range, or an error. -/
theorem ret_of_jffs2FindFile (h : jffs2FindFile q fuel offs = some out) :
    out.ret ≤ 0 ∧ (out.ret = 0 → offs ≤ out.offs ∧ out.offs < q.finish) := by
  obtain ⟨s, hs, hstep⟩ := jffs2FindFile_eq_some_iff.mp ⟨fuel, h⟩
  rw [step] at hstep
  cases hblock : s.block with
  | none =>
    simp only [hblock] at hstep
    split_ifs at hstep with _ _ _ hrc
    all_goals cases hstep
    · exact ⟨by simp [eNoEnt], by simp [eNoEnt]⟩
    · exact ⟨(q.reads.block s.offs).nonpos, fun h => absurd h hrc⟩
    · exact ⟨by simp [eInval], by simp [eInval]⟩
  | some p =>
    have hend := (bounds_of_visits hs hblock).1
    simp only [hblock] at hstep
    split_ifs at hstep
    all_goals cases hstep
    · exact ⟨by simp [eInval], by simp [eInval]⟩
    all_goals exact ⟨le_rfl, fun _ => ⟨offs_le_of_visits hs, hend⟩⟩

theorem jffs2FindFile_unique {fuel' : ℕ} {out' : Found} (h : jffs2FindFile q fuel offs = some out)
    (h' : jffs2FindFile q fuel' offs = some out') : out = out' := by
  have hmax := run_mono (le_max_left fuel fuel') h
  rw [run_mono (le_max_right fuel fuel') h'] at hmax
  exact (Option.some.inj hmax).symm

/-- The scan goes on from finitely many states. -/
theorem halts_iff (q : Search) (offs : ℕ) : Halts (next q) (.start offs) ↔ Fresh q offs := by
  have hblocks : (insert none (some '' {p | p < 2 ^ 32}) : Set (Option ℕ)).Finite :=
    ((Set.finite_lt_nat _).image _).insert _
  have hfin := ((Set.finite_lt_nat q.finish).prod (Set.finite_univ.prod hblocks)).image
    fun x : ℕ × Bool × Option ℕ => Scan.mk x.1 x.2.1 x.2.2
  refine halts_iff_fresh hfin fun s hs hsome => ⟨(s.offs, s.valid, s.block), ?_, rfl⟩
  cases hblock : s.block with
  | some p =>
    obtain ⟨hoffs, hp⟩ := bounds_of_visits hs hblock
    exact ⟨hoffs, trivial, Or.inr ⟨p, hp, rfl⟩⟩
  | none =>
    refine ⟨?_, trivial, Or.inl rfl⟩
    by_contra hend
    have hnone : next q s = none := by
      refine next_eq_none.mpr ⟨⟨eNoEnt, s.offs, none⟩, ?_⟩
      rw [step, hblock]
      exact if_pos (Nat.le_of_not_lt hend)
    rw [hnone] at hsome
    cases hsome

/-- What is read of a node lies in the buffer if all that is looked at does. -/
theorem bufReads_inside_iff (hblock : s.block = some p) (hp : p < q.dev.erasesize) :
    (∀ r ∈ bufReads q s, r.1 + r.2 ≤ q.dev.erasesize) ↔
      p + extent q.dev q.name (s.valid && q.wanted) (q.dev.fill s.offs) p ≤ q.dev.erasesize := by
  rw [bufReads, extent, hblock]
  simp only [if_neg (Nat.not_le.mpr hp)]
  split_ifs
  all_goals simp_all
  all_goals omega

theorem direntValid_iff {d : Device} {mem : Memory} : jffs2DirentValid d mem p = true ↔
    ((d.u16 mem p = jffs2MagicBitmask ∧ d.u16 mem (p + 2) = jffs2NodetypeDirent) ∧
      d.u32 mem (p + 20) ≠ 0) ∧ d.u32 mem (p + 32) = jffs2DirentCrc d mem p := by
  simp [jffs2DirentValid]

/-- An entry is looked at as far as its name is compared. -/
theorem le_extent (name : Bytes) (copied : Bool) {d : Device} {mem : Memory}
    (h : jffs2DirentValid d mem p = true) :
    (hasName mem p openwrtName = true → 49 ≤ extent d name copied mem p) ∧
      (hasName mem p openwrtName = false → 40 + name.length ≤ extent d name copied mem p) := by
  obtain ⟨⟨⟨h1, h2⟩, h3⟩, h4⟩ := direntValid_iff.mp h
  rw [extent, if_neg (not_not_intro h1), if_neg (not_not_intro h2), if_neg h3,
    if_neg (not_not_intro h4)]
  constructor
  · intro hm
    rw [if_pos hm]
  · intro hm
    rw [if_neg (by simp [hm])]
    split_ifs
    · omega
    · omega

/-- Where the marker has been seen, the scan has come to an entry with it. -/
theorem marker_of_valid (hfits : Fits q offs) (h : Visits q offs s) (hvalid : s.valid = true) :
    ∃ m, Visits q offs m ∧ AtEntry q m openwrtName ∧ Reaches₁ (next q) m s := by
  induction h with
  | refl => cases hvalid
  | @tail b c hb hnext ih =>
    cases hbv : b.valid with
    | true =>
      obtain ⟨m, hm, hentry, hreach⟩ := ih hbv
      exact ⟨m, hm, hentry, hreach.tail hnext⟩
    | false =>
      refine ⟨b, hb, ?_, .single hnext⟩
      have hstep := next_eq_some.mp hnext
      rw [step] at hstep
      cases hblock : b.block with
      | none =>
        simp only [hblock] at hstep
        split_ifs at hstep
        all_goals cases hstep
        all_goals simp [hbv] at hvalid
      | some p =>
        simp only [hblock] at hstep
        split_ifs at hstep with hend hdirent hmarker
        all_goals cases hstep
        · simp [hbv] at hvalid
        · simp [hbv] at hvalid
        · have hdirent := Bool.of_not_eq_false hdirent
          have hfit := hfits b p hb hblock (Nat.lt_of_not_le hend)
          have hext := (le_extent q.name (b.valid && q.wanted) hdirent).1 hmarker
          exact ⟨p, hblock, by change p + 40 + 9 ≤ _; omega, hdirent, hmarker⟩
        · simp [hbv] at hvalid

/-- A success is given at an entry with the name, behind one with the marker. -/
theorem genuine_of_fits (hfits : Fits q offs) (h : Visits q offs s) (hstep : step q s = .inr out)
    (hret : out.ret = 0) :
    ∃ m, Visits q offs m ∧ AtEntry q m openwrtName ∧ Reaches₁ (next q) m s ∧
      AtEntry q s q.name ∧ out.offs = s.offs := by
  rw [step] at hstep
  cases hblock : s.block with
  | none =>
    simp only [hblock] at hstep
    split_ifs at hstep with _ _ _ hrc
    all_goals cases hstep
    · exact absurd hret (by simp [eNoEnt])
    · exact absurd hret hrc
    · exact absurd hret (by simp [eInval])
  | some p =>
    simp only [hblock] at hstep
    split_ifs at hstep with hend hdirent hmarker hname hvalid
    all_goals cases hstep
    · exact absurd hret (by simp [eInval])
    all_goals
      have hdirent := Bool.of_not_eq_false hdirent
      have hfit := hfits s p h hblock (Nat.lt_of_not_le hend)
      have hext := (le_extent q.name (s.valid && q.wanted) hdirent).2
        (Bool.eq_false_iff.mpr hmarker)
      obtain ⟨m, hm, hentry, hreach⟩ := marker_of_valid hfits h (Bool.of_not_eq_false hvalid)
      exact ⟨m, hm, hentry, hreach, ⟨p, hblock, by omega, hdirent, hname⟩, rfl⟩

/-- A scan is sound exactly if it comes to no node again, and all nodes it comes to lie in their
block as far as they are looked at. -/
theorem findFile_sound_iff (q : Search) (offs : ℕ) :
    FindSound q offs ↔ Fresh q offs ∧ Fits q offs := by
  constructor
  · intro h
    refine ⟨(halts_iff q offs).mp (returns_iff_halts.mp h.terminates), ?_⟩
    intro s p hs hblock hp
    exact (bufReads_inside_iff hblock hp).mp (h.inside s hs)
  · rintro ⟨hfresh, hfits⟩
    refine ⟨returns_iff_halts.mpr ((halts_iff q offs).mpr hfresh), fun s hs r hr => ?_, ?_⟩
    · cases hblock : s.block with
      | none => simp [bufReads, hblock] at hr
      | some p =>
        by_cases hp : p < q.dev.erasesize
        · exact (bufReads_inside_iff hblock hp).mpr (hfits s p hs hblock hp) r hr
        · simp [bufReads, hblock, Nat.le_of_not_lt hp] at hr
    · intro fuel out hout hret
      obtain ⟨s, hs, hstep⟩ := jffs2FindFile_eq_some_iff.mp ⟨fuel, hout⟩
      obtain ⟨m, hm⟩ := genuine_of_fits hfits hs hstep hret
      exact ⟨m, s, hm⟩

end Run

/-- An erase block of 64 bytes with an entry at its head, whose checksum is 0. -/
def sampleFlash (totlen : UInt8) (i : ℕ) : UInt8 :=
  match i with
  | 0 => 0x85
  | 1 => 0x19
  | 2 => 0x01
  | 3 => 0xe0
  | 4 => totlen
  | 20 => 1
  | 40 => 0x61
  | _ => 0

/-- The scan of that block for another name. -/
def sampleSearch (totlen : UInt8) : Search where
  dev := ⟨.little, fun _ => 0, 64, by decide, 64, sampleFlash totlen, fun _ => 0⟩
  reads := ⟨fun _ => .ok 2, fun _ => .ok 64⟩
  name := ascii "cferam"
  finish := 64
  wanted := false

/-- An entry of length zero leads back to itself. -/
theorem not_findSound : ¬FindSound (sampleSearch 0) 0 := by
  intro h
  have hhead : next (sampleSearch 0) (.start 0) = some ⟨0, false, some 0⟩ := by decide +kernel
  have hnode : next (sampleSearch 0) ⟨0, false, some 0⟩ = some ⟨0, false, some 0⟩ := by
    decide +kernel
  exact (returns_iff_halts.mp h.terminates).acyclic (.single hhead) (.single hnode)

end NeonWrt.Mtdsplit
