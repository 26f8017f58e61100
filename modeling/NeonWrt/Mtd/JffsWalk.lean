import NeonWrt.Lib.Binary
import NeonWrt.Lib.Halting

/-!
# Walking over the nodes of a JFFS2 block

Before a file is appended to a JFFS2 partition, `mtd_parse_jffs2data` walks over
the nodes of each block and keeps the inode number of the wanted directory and
the highest inode and version numbers. It steps by the length that a node gives
for itself, and compares as much of a name as the node says it is long.

Memory is a function of the address, counted from the start of the block, so that
an access behind the block is one as well.
-/

namespace NeonWrt.Mtd

open Lib StateTransition

/-- `PAD`, in `uint32_t`. -/
def pad4 (n : ℕ) : ℕ := (n + 3) % 4294967296 / 4 * 4

/-- `JFFS2_MAGIC_BITMASK` -/
def magicBitmask : ℕ := 0x1985

/-- `JFFS2_NODETYPE_DIRENT` -/
def nodetypeDirent : ℕ := 0xe001

/-- The memory from the start of the block on. -/
abbrev Memory := ℕ → UInt8

/-- Some bytes of the memory. -/
def bytesAt (mem : Memory) (a n : ℕ) : Bytes := (List.range n).map fun i => mem (a + i)

section Fields

variable (en : Endian) (mem : Memory) (ofs : ℕ)

/-- `magic` -/
def nodeMagic : ℕ := en.getU16 (bytesAt mem ofs 2) 0

/-- `nodetype` -/
def nodeType : ℕ := en.getU16 (bytesAt mem (ofs + 2) 2) 0

/-- `totlen` -/
def nodeTotlen : ℕ := en.getU32 (bytesAt mem (ofs + 4) 4) 0

/-- `pino` -/
def direntPino : ℕ := en.getU32 (bytesAt mem (ofs + 12) 4) 0

/-- `version` -/
def direntVersion : ℕ := en.getU32 (bytesAt mem (ofs + 16) 4) 0

/-- `ino` -/
def direntIno : ℕ := en.getU32 (bytesAt mem (ofs + 20) 4) 0

/-- `nsize` -/
def direntNsize : ℕ := (mem (ofs + 28)).toNat

/-- The name of a dirent. -/
def direntName : Bytes := bytesAt mem (ofs + 40) (direntNsize mem ofs)

end Fields

/-- `strncmp` of a string in memory and another one: whether it is zero, and how many bytes of the
first are read. -/
def strncmp (mem : Memory) : ℕ → Bytes → ℕ → Bool × ℕ
  | _, _, 0 => (true, 0)
  | a, [], _ + 1 => (mem a == 0, 1)
  | a, c :: cs, n + 1 =>
    if mem a ≠ c then (false, 1)
    else
      let r := strncmp mem (a + 1) cs n
      (r.1, r.2 + 1)

/-- The static variables `target_ino`, `last_ino` and `last_version`. -/
structure Inodes where
  targetIno : ℕ
  lastIno : ℕ
  lastVersion : ℕ

/-- The variable `ofs` and the static ones. The driver does not keep `sources`, the dirents that
`target_ino` was taken from. -/
structure ParseState where
  ofs : ℕ
  inodes : Inodes
  sources : List ℕ

section Walk

variable (en : Endian) (mem : Memory) (size : ℕ) (dir : CStr)

/-- The right directory name, in a subdirectory of the root. -/
def isTarget (ofs : ℕ) : Bool :=
  dir.bytes ≠ [] && direntPino en mem ofs == 1 &&
    (strncmp mem (ofs + 40) dir.bytes (direntNsize mem ofs)).1

/-- What a dirent does to the static variables. -/
def takeDirent (ofs : ℕ) (s : Inodes) : Inodes where
  targetIno := if isTarget en mem dir ofs then direntIno en mem ofs else s.targetIno
  lastIno := if s.lastIno < direntIno en mem ofs then direntIno en mem ofs else s.lastIno
  lastVersion :=
    if s.lastVersion < direntVersion en mem ofs then direntVersion en mem ofs else s.lastVersion

/-- A node follows: `ofs` is in the block and has the magic number. -/
def isNode (ofs : ℕ) : Bool := ofs < size && nodeMagic en mem ofs == magicBitmask

/-- The offset behind a node, in `unsigned int`. -/
def nextOfs (ofs : ℕ) : Option ℕ :=
  if isNode en mem size ofs then some ((ofs + pad4 (nodeTotlen en mem ofs)) % 4294967296) else none

/-- A round of `mtd_parse_jffs2data`; there is no next one where the loop ends. -/
def parseStep (s : ParseState) : Option ParseState :=
  (nextOfs en mem size s.ofs).map fun ofs =>
    if nodeType en mem s.ofs = nodetypeDirent then
      { ofs := ofs
        inodes := takeDirent en mem dir s.ofs s.inodes
        sources := if isTarget en mem dir s.ofs then s.ofs :: s.sources else s.sources }
    else { s with ofs := ofs }

/-- The addresses that a round reads from a dirent. -/
def direntReads (ofs : ℕ) : List ℕ :=
  (if dir.bytes = [] then []
    else List.range' (ofs + 12) 4 ++
      if direntPino en mem ofs = 1 then
        (ofs + 28) :: List.range' (ofs + 40)
          (strncmp mem (ofs + 40) dir.bytes (direntNsize mem ofs)).2
      else []) ++
    List.range' (ofs + 16) 8

/-- The addresses that a round reads. -/
def nodeReads (ofs : ℕ) : List ℕ :=
  if size ≤ ofs then []
  else if !isNode en mem size ofs then List.range' ofs 2
  else List.range' ofs 8 ++
    if nodeType en mem ofs = nodetypeDirent then direntReads en mem dir ofs else []

/-- From a state with `ofs` at the start of the block the walk ends, reads no byte outside of the
block, and has taken `target_ino` from dirents of the wanted name only. -/
structure WalkSound (s₀ : Inodes) : Prop where
  ends : Halts (parseStep en mem size dir) ⟨0, s₀, []⟩
  inside : ∀ s, Reaches (parseStep en mem size dir) ⟨0, s₀, []⟩ s →
    ∀ a ∈ nodeReads en mem size dir s.ofs, a < size
  exact : ∀ s, Reaches (parseStep en mem size dir) ⟨0, s₀, []⟩ s →
    ∀ ofs ∈ s.sources, direntName mem ofs = dir.bytes

/-- What the walk relies on at an offset. A node has its header in the block and is not followed,
after any number of nodes, by itself. A dirent has in the block its numbers and, where names are
compared, its length and as much of the name as is compared; one whose name agrees with the wanted
name as far as it goes is as long as that. -/
structure FineAt (ofs : ℕ) : Prop where
  magic : ofs < size → ofs + 2 ≤ size
  header : isNode en mem size ofs → ofs + 8 ≤ size
  onward : ¬ Reaches₁ (nextOfs en mem size) ofs ofs
  numbers : isNode en mem size ofs → nodeType en mem ofs = nodetypeDirent → ofs + 24 ≤ size
  name : isNode en mem size ofs → nodeType en mem ofs = nodetypeDirent → dir.bytes ≠ [] →
    direntPino en mem ofs = 1 → ofs + 29 ≤ size ∧
      ((strncmp mem (ofs + 40) dir.bytes (direntNsize mem ofs)).2 ≠ 0 →
        ofs + 40 + (strncmp mem (ofs + 40) dir.bytes (direntNsize mem ofs)).2 ≤ size) ∧
      ((strncmp mem (ofs + 40) dir.bytes (direntNsize mem ofs)).1 →
        direntNsize mem ofs = dir.bytes.length)

end Walk

theorem bytesAt_succ (mem : Memory) (a n : ℕ) :
    bytesAt mem a (n + 1) = mem a :: bytesAt mem (a + 1) n := by
  simp only [bytesAt, List.range_succ_eq_map, List.map_cons, List.map_map, Nat.add_zero,
    List.cons.injEq, true_and]
  refine List.map_congr_left fun i _ => ?_
  rw [Function.comp_apply, Nat.succ_eq_add_one, Nat.add_right_comm, Nat.add_assoc]

theorem length_bytesAt (mem : Memory) (a n : ℕ) : (bytesAt mem a n).length = n := by
  simp [bytesAt]

theorem bytesAt_of_strncmp {mem : Memory} {a n : ℕ} {cs : Bytes} (h : (strncmp mem a cs n).1 = true)
    (hlen : n = cs.length) : bytesAt mem a n = cs := by
  induction cs generalizing a n with
  | nil =>
    rw [hlen]
    rfl
  | cons c cs ih =>
    subst hlen
    rw [List.length_cons, strncmp] at h
    split_ifs at h with hne
    rw [List.length_cons, bytesAt_succ, ih h rfl, not_not.mp hne]

/-- A name that agrees with another one as far as it goes is that name if it is as long. -/
theorem direntName_eq_iff {mem : Memory} {ofs : ℕ} {cs : Bytes}
    (h : (strncmp mem (ofs + 40) cs (direntNsize mem ofs)).1 = true) :
    direntName mem ofs = cs ↔ direntNsize mem ofs = cs.length := by
  constructor
  · rintro rfl
    exact (length_bytesAt _ _ _).symm
  · exact bytesAt_of_strncmp h

section Runs

variable {en : Endian} {mem : Memory} {size : ℕ} {dir : CStr} {s s' : ParseState} {s₀ : Inodes}
  {ofs : ℕ}

theorem isNode_iff : isNode en mem size ofs = true ↔ ofs < size ∧ nodeMagic en mem ofs = magicBitmask := by
  simp [isNode]

theorem isTarget_iff : isTarget en mem dir ofs = true ↔ dir.bytes ≠ [] ∧ direntPino en mem ofs = 1 ∧
    (strncmp mem (ofs + 40) dir.bytes (direntNsize mem ofs)).1 = true := by
  simp [isTarget, and_assoc]

theorem nextOfs_isSome : (nextOfs en mem size ofs).isSome ↔ isNode en mem size ofs = true := by
  rw [nextOfs]
  split_ifs with h <;> simp [h]

theorem parseStep_ofs (s : ParseState) :
    (parseStep en mem size dir s).map ParseState.ofs = nextOfs en mem size s.ofs := by
  rw [parseStep, Option.map_map]
  refine (Option.map_congr fun o _ => ?_).trans Option.map_id'
  rw [Function.comp_apply]
  split_ifs <;> rfl

/-- A round takes `target_ino` from the node it is at or not at all. -/
theorem parseStep_sources (h : parseStep en mem size dir s = some s') :
    s'.sources = if nodeType en mem s.ofs = nodetypeDirent ∧ isTarget en mem dir s.ofs = true
      then s.ofs :: s.sources else s.sources := by
  obtain ⟨o, -, rfl⟩ := Option.map_eq_some_iff.mp h
  split_ifs with hdirent htarget hboth hboth <;> simp_all

/-- The dirents that `target_ino` can have been taken from. -/
theorem sources_of_reaches (h : Reaches (parseStep en mem size dir) ⟨0, s₀, []⟩ s) :
    ∀ o ∈ s.sources, Reaches (nextOfs en mem size) 0 o ∧ isNode en mem size o = true ∧
      nodeType en mem o = nodetypeDirent ∧ isTarget en mem dir o = true := by
  induction h with
  | refl => exact fun o ho => absurd ho List.not_mem_nil
  | @tail s s' hreach hstep ih =>
    intro o ho
    rw [parseStep_sources hstep] at ho
    split_ifs at ho with htaken
    · rcases List.mem_cons.mp ho with rfl | ho
      · have hnext : (nextOfs en mem size s.ofs).isSome := by
          rw [← @parseStep_ofs en mem size dir, Option.mem_def.mp hstep]
          rfl
        exact ⟨Reaches.map parseStep_ofs hreach, nextOfs_isSome.mp hnext, htaken⟩
      · exact ih o ho
    · exact ih o ho

theorem exists_source (hreach : Reaches (nextOfs en mem size) 0 ofs)
    (hnode : isNode en mem size ofs = true) (hdirent : nodeType en mem ofs = nodetypeDirent)
    (htarget : isTarget en mem dir ofs = true) :
    ∃ s, Reaches (parseStep en mem size dir) ⟨0, s₀, []⟩ s ∧ ofs ∈ s.sources := by
  obtain ⟨s, hs, rfl⟩ := @Reaches.lift _ _ _ ⟨0, s₀, []⟩ _ _ (@parseStep_ofs en mem size dir) _ hreach
  have hnext : ((parseStep en mem size dir s).map ParseState.ofs).isSome := by
    rw [parseStep_ofs]
    exact nextOfs_isSome.mpr hnode
  rw [Option.isSome_map] at hnext
  obtain ⟨s', hs'⟩ := Option.isSome_iff_exists.mp hnext
  refine ⟨s', hs.tail hs', ?_⟩
  rw [parseStep_sources hs', if_pos ⟨hdirent, htarget⟩]
  exact List.mem_cons_self

theorem forall_mem_range'_lt {a n b : ℕ} : (∀ i ∈ List.range' a n, i < b) ↔ (n ≠ 0 → a + n ≤ b) := by
  constructor
  · intro h hn
    have hlast := h (a + (n - 1)) (List.mem_range'_1.mpr (by omega))
    omega
  · intro h i hi
    rw [List.mem_range'_1] at hi
    have hle := h (by omega)
    omega

theorem direntReads_lt : (∀ a ∈ direntReads en mem dir ofs, a < size) ↔ ofs + 24 ≤ size ∧
    (dir.bytes ≠ [] → direntPino en mem ofs = 1 → ofs + 29 ≤ size ∧
      ((strncmp mem (ofs + 40) dir.bytes (direntNsize mem ofs)).2 ≠ 0 →
        ofs + 40 + (strncmp mem (ofs + 40) dir.bytes (direntNsize mem ofs)).2 ≤ size)) := by
  rw [direntReads, List.forall_mem_append, forall_mem_range'_lt]
  by_cases hdir : dir.bytes = []
  · simp only [hdir, if_true, ne_eq, not_true_eq_false, false_implies, and_true]
    simp
  · rw [if_neg hdir, List.forall_mem_append, forall_mem_range'_lt]
    by_cases hpino : direntPino en mem ofs = 1
    · rw [if_pos hpino, List.forall_mem_cons, forall_mem_range'_lt]
      simp only [hdir, hpino, ne_eq, not_false_eq_true, true_implies]
      omega
    · simp only [hpino, if_false, List.not_mem_nil, false_implies, implies_true, and_true]
      omega

theorem nodeReads_lt : (∀ a ∈ nodeReads en mem size dir ofs, a < size) ↔ (ofs < size → ofs + 2 ≤ size) ∧
    (isNode en mem size ofs = true → ofs + 8 ≤ size ∧ (nodeType en mem ofs = nodetypeDirent →
      ∀ a ∈ direntReads en mem dir ofs, a < size)) := by
  rw [nodeReads]
  by_cases hout : size ≤ ofs
  · have hnode : ¬ isNode en mem size ofs = true := fun h => absurd (isNode_iff.mp h).1 (by omega)
    simp [hout, hnode, Nat.not_lt.mpr hout]
  rw [if_neg hout]
  by_cases hnode : isNode en mem size ofs = true
  · rw [if_neg (by simp [hnode]), List.forall_mem_append, forall_mem_range'_lt]
    have hlt := (isNode_iff.mp hnode).1
    by_cases hdirent : nodeType en mem ofs = nodetypeDirent
    · rw [if_pos hdirent]
      constructor
      · rintro ⟨hheader, hreads⟩
        exact ⟨fun _ => by omega, fun _ => ⟨by omega, fun _ => hreads⟩⟩
      · rintro ⟨-, h⟩
        exact ⟨fun _ => (h hnode).1, (h hnode).2 hdirent⟩
    · rw [if_neg hdirent]
      constructor
      · rintro ⟨hheader, -⟩
        exact ⟨fun _ => by omega, fun _ => ⟨by omega, fun h => absurd h hdirent⟩⟩
      · rintro ⟨-, h⟩
        exact ⟨fun _ => (h hnode).1, fun _ ha => absurd ha List.not_mem_nil⟩
  · rw [if_pos (by simp [hnode]), forall_mem_range'_lt]
    constructor
    · intro h
      exact ⟨fun _ => h (by decide), fun hn => absurd hn hnode⟩
    · rintro ⟨h, -⟩ -
      exact h (by omega)

theorem halts_iff : Halts (parseStep en mem size dir) ⟨0, s₀, []⟩ ↔
    ∀ o, Reaches (nextOfs en mem size) 0 o → ¬ Reaches₁ (nextOfs en mem size) o o := by
  rw [halts_congr parseStep_ofs]
  refine halts_iff_acyclic (Set.finite_lt_nat size) fun o ho => ?_
  exact (isNode_iff.mp (nextOfs_isSome.mp ho)).1

/-- The walk is sound exactly on the blocks whose nodes are fine. -/
theorem walkSound_iff (s₀ : Inodes) : WalkSound en mem size dir s₀ ↔
    ∀ ofs, Reaches (nextOfs en mem size) 0 ofs → FineAt en mem size dir ofs := by
  constructor
  · intro h ofs hreach
    obtain ⟨s, hs, rfl⟩ := @Reaches.lift _ _ _ ⟨0, s₀, []⟩ _ _ (@parseStep_ofs en mem size dir) _ hreach
    have hreads := nodeReads_lt.mp (h.inside s hs)
    constructor
    · exact hreads.1
    · exact fun hnode => (hreads.2 hnode).1
    · exact halts_iff.mp h.ends s.ofs hreach
    · exact fun hnode hdirent => (direntReads_lt.mp ((hreads.2 hnode).2 hdirent)).1
    · intro hnode hdirent hdir hpino
      have hname := (direntReads_lt.mp ((hreads.2 hnode).2 hdirent)).2 hdir hpino
      refine ⟨hname.1, hname.2, fun hmatch => ?_⟩
      have htarget := isTarget_iff.mpr ⟨hdir, hpino, hmatch⟩
      obtain ⟨s', hs', hmem⟩ : ∃ s', Reaches (parseStep en mem size dir) ⟨0, s₀, []⟩ s' ∧
          s.ofs ∈ s'.sources := exists_source hreach hnode hdirent htarget
      exact (direntName_eq_iff hmatch).mp (h.exact s' hs' _ hmem)
  · intro h
    constructor
    · exact halts_iff.mpr fun o ho => (h o ho).onward
    · intro s hs
      have hfine := h s.ofs (Reaches.map parseStep_ofs hs)
      refine nodeReads_lt.mpr ⟨hfine.magic, fun hnode => ⟨hfine.header hnode, fun hdirent => ?_⟩⟩
      refine direntReads_lt.mpr ⟨hfine.numbers hnode hdirent, fun hdir hpino => ?_⟩
      have hname := hfine.name hnode hdirent hdir hpino
      exact ⟨hname.1, hname.2.1⟩
    · intro s hs o ho
      obtain ⟨hreach, hnode, hdirent, htarget⟩ := sources_of_reaches hs o ho
      obtain ⟨hdir, hpino, hmatch⟩ := isTarget_iff.mp htarget
      exact (direntName_eq_iff hmatch).mpr
        (((h o hreach).name hnode hdirent hdir hpino).2.2 hmatch)

end Runs

/-- A memory that starts with some bytes and is `0xff` behind them. -/
def memoryOf (b : Bytes) : Memory := fun a => b.getD a 0xff

/-- A node header without the checksum. -/
def nodeHeader (type totlen : ℕ) : Bytes :=
  Endian.little.u16 magicBitmask ++ Endian.little.u16 type ++ Endian.little.u32 totlen

/-- A node that says that it has no length. -/
def emptyNode : Memory := memoryOf (nodeHeader 0x2003 0)

/-- A node after which the block has room for half a header. -/
def lastWord : Memory := fun a =>
  if a < 65532 then memoryOf (nodeHeader 0x2004 65532) a
  else memoryOf (Endian.little.u16 magicBitmask) (a - 65532)

/-- A dirent `ro` of the root directory. -/
def direntRo : Memory :=
  memoryOf (nodeHeader nodetypeDirent 42 ++ List.replicate 4 0 ++ Endian.little.u32 1 ++
    Endian.little.u32 1 ++ Endian.little.u32 7 ++ List.replicate 4 0 ++ [2, 4, 0, 0] ++
    List.replicate 8 0 ++ ascii "ro")

theorem direntRo_reaches {o : ℕ} (h : Reaches (nextOfs .little direntRo 65536) 0 o) :
    o = 0 ∨ o = 44 := by
  have hfirst : nextOfs .little direntRo 65536 0 = some 44 := by decide +kernel
  have hend : nextOfs .little direntRo 65536 44 = none := by decide +kernel
  induction h with
  | refl => exact .inl rfl
  | tail _ hstep ih =>
    rcases ih with rfl | rfl
    · exact .inr (Option.some.inj (hstep.symm.trans hfirst))
    · rw [hend] at hstep
      cases hstep

/-- The walk is sound when the directory `ro` is wanted. -/
theorem direntRo_sound : WalkSound .little direntRo 65536 (CStr.lit "ro") ⟨0, 0, 0⟩ := by
  refine (walkSound_iff ⟨0, 0, 0⟩).mpr fun o ho => ?_
  have honward : ¬ Reaches₁ (nextOfs .little direntRo 65536) o o := by
    have hhalts : Halts (nextOfs .little direntRo 65536) 0 :=
      Halts.step (b := 44) (by decide +kernel) (.of_none (by decide +kernel))
    exact hhalts.acyclic ho
  rcases direntRo_reaches ho with rfl | rfl
  · exact ⟨fun _ => by decide, fun _ => by decide, honward, fun _ _ => by decide,
      fun _ _ _ _ => by decide +kernel⟩
  · have hnode : ¬ isNode .little direntRo 65536 44 = true := by decide +kernel
    exact ⟨fun _ => by decide, fun h => absurd h hnode, honward, fun h => absurd h hnode,
      fun h => absurd h hnode⟩

/-- Three blocks on which it is not: it does not get past a node without a length, it reads the
header of a node beyond the end of the block, and it takes the directory `ro` for `root`. -/
theorem walk_unsound :
    ¬ WalkSound .little emptyNode 65536 (CStr.lit "") ⟨0, 0, 0⟩ ∧
    ¬ WalkSound .little lastWord 65536 (CStr.lit "") ⟨0, 0, 0⟩ ∧
    ¬ WalkSound .little direntRo 65536 (CStr.lit "root") ⟨0, 0, 0⟩ := by
  refine ⟨fun h => ?_, fun h => ?_, fun h => ?_⟩
  · have hstay : nextOfs .little emptyNode 65536 0 = some 0 := by decide +kernel
    exact ((walkSound_iff _).mp h 0 .refl).onward (.single hstay)
  · have hnext : nextOfs .little lastWord 65536 0 = some 65532 := by decide +kernel
    have hheader := ((walkSound_iff _).mp h 65532 (.single hnext)).header (by decide +kernel)
    exact absurd hheader (by decide)
  · have hname := ((walkSound_iff _).mp h 0 .refl).name (by decide +kernel) (by decide +kernel)
      (by decide) (by decide +kernel)
    exact absurd (hname.2.2 (by decide +kernel)) (by decide +kernel)

end NeonWrt.Mtd
