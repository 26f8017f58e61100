import NeonWrt.Lib.Binary
import Mathlib.Data.List.Pairwise
import Mathlib.Data.List.Chain
import Mathlib.Data.List.DropRight

/-!
# Updating a RedBoot partition table

`mtd` can write images to partitions that it lays out anew, and then rewrites the
FIS directory of the boot loader: `fis_remap` replaces the entries of some old
partitions by those of new ones. It moves the entries behind them up or down in
place, which it only gets right in one direction.

The directory is a list of slots. An access outside of the mapped erase block ends
the process, which is `none`.
-/

namespace NeonWrt.Mtd.Fis

open Lib

/-- `struct fis_image_desc` -/
structure Desc where
  name : Bytes
  flashBase : ℕ
  memBase : ℕ
  size : ℕ
  entryPoint : ℕ
  dataLength : ℕ
  pad : Bytes
  crcDesc : ℕ
  crcFile : ℕ
  deriving DecidableEq

/-- `struct fis_part`, without its offset, which is never set. -/
structure Part where
  name : Bytes
  loadaddr : ℕ
  size : ℕ
  length : ℕ
  crc : ℕ
  deriving DecidableEq

/-- A slot filled with `0xff`. -/
def Desc.blank : Desc where
  name := List.replicate 16 0xff
  flashBase := 0xffffffff
  memBase := 0xffffffff
  size := 0xffffffff
  entryPoint := 0xffffffff
  dataLength := 0xffffffff
  pad := List.replicate 212 0xff
  crcDesc := 0xffffffff
  crcFile := 0xffffffff

/-- The name of a slot ends the directory. -/
def endsDir (name : Bytes) : Bool := name.getD 0 0 == 0 || name.getD 0 0 == 0xff

/-- `strncmp` of two names of 16 bytes is zero. -/
def sameName (a b : Bytes) : Bool := a.takeWhile (· ≠ 0) == b.takeWhile (· ≠ 0)

/-- The entry is one of the old partitions. -/
def isOld (old : List Bytes) (d : Desc) : Bool := old.any (sameName d.name)

/-- The variables of the first loop. -/
structure Scan where
  offset : ℕ
  first : Option ℕ
  last : Option ℕ

/-- The first loop of `fis_remap`: the highest flash address, and the first and the last of the old
entries, by slot. -/
def scanOld (old : List Bytes) : List Desc → ℕ → Scan → Scan
  | [], _, s => s
  | d :: ds, i, s =>
    if endsDir d.name then s
    else
      let offset := if s.offset < d.flashBase then d.flashBase else s.offset
      scanOld old ds (i + 1)
        (if isOld old d then ⟨offset, s.first.or (some i), some i⟩ else { s with offset := offset })

/-- The second loop: the flash address where the space that is available ends. -/
def spaceEnd (lastBase : ℕ) : List Desc → ℕ → ℕ
  | [], offset => offset
  | d :: ds, offset =>
    if endsDir d.name then offset
    else spaceEnd lastBase ds
      (if lastBase < d.flashBase ∧ d.flashBase < offset then d.flashBase else offset)

/-- `memmove` between slots. -/
def memmove (dir : List Desc) (dest src n : ℕ) : List Desc :=
  dir.take dest ++ (dir.drop src).take n ++ dir.drop (dest + n)

/-- The entry of a new partition. -/
def Part.desc (p : Part) (offset size : ℕ) : Desc where
  name := p.name
  flashBase := offset
  memBase := p.loadaddr
  size := if 0 < p.size then p.size else size
  entryPoint := p.loadaddr
  dataLength := if 0 < p.length then p.length else if 0 < p.size then p.size else size
  pad := List.replicate 212 0
  crcDesc := 0
  crcFile := p.crc

/-- The last loop: the new entries, with `offset` and `size` in `uint32_t`. -/
def newEntries : List Part → ℕ → ℕ → List Desc
  | [], _, _ => []
  | p :: ps, offset, size =>
    let d := p.desc offset size
    d :: newEntries ps ((offset + d.size) % 4294967296) (u32Sub size d.size)

/-- The shift of the slots from `last` on to `desc`. With fewer new entries than old slots the
freed slots are filled with a length that is the negative of theirs, which runs out of the
mapping. -/
def shiftSlots (dir : List Desc) (desc last : ℕ) : Option (List Desc) :=
  if desc = last then some dir
  else if desc < last then none
  else if desc ≤ dir.length then some (memmove dir desc last (dir.length - desc))
  else none

/-- `fis_remap`, on the slots of the mapped directory. -/
def fisRemap (dir : List Desc) (old : List Bytes) (new : List Part) : Option (List Desc) := do
  let s := scanOld old dir 0 ⟨0, none, none⟩
  let first ← s.first
  let last ← s.last
  let a ← dir[first]?
  let b ← dir[last]?
  let firstFb := if b.flashBase < a.flashBase then b else a
  let lastFb := if b.flashBase < a.flashBase then a else b
  let size := u32Sub (spaceEnd lastFb.flashBase dir s.offset) firstFb.flashBase
  let dir ← shiftSlots dir (first + new.length) (last + 1)
  some (dir.take first ++ newEntries new firstFb.flashBase size ++ dir.drop (first + new.length))

/-- The entries, up to the end of the directory. -/
def entries (dir : List Desc) : List Desc := dir.takeWhile fun d => !endsDir d.name

/-- A directory whose slots behind the entries are blank, and whose entries have names and flash
ranges of their own. -/
structure ValidDir (dir : List Desc) : Prop where
  blank : ∀ d ∈ dir.drop (entries dir).length, d = Desc.blank
  names : ((entries dir).map fun d => d.name.takeWhile (· ≠ 0)).Nodup
  sizes : ∀ d ∈ entries dir, 0 < d.size ∧ d.size < 4294967296 ∧
    d.flashBase + d.size ≤ 4294967296
  disjoint : (entries dir).Pairwise fun d e =>
    d.flashBase + d.size ≤ e.flashBase ∨ e.flashBase + e.size ≤ d.flashBase

/-- The old entries cover a flash range without gaps. -/
def JointRange (olds : List Desc) (base stop : ℕ) : Prop :=
  ∃ d ds, List.Perm (d :: ds) olds ∧ d.flashBase = base ∧
    List.IsChain (fun d e => d.flashBase + d.size = e.flashBase) (d :: ds) ∧
    ∃ e ∈ (d :: ds).getLast?, e.flashBase + e.size = stop

/-- The new partitions fit into a range. Only the last of them may leave its size open, and it then
gets some space. -/
structure Fits (new : List Part) (space : ℕ) : Prop where
  names : ∀ p ∈ new, endsDir p.name = false
  sized : ∀ p ∈ new.dropLast, 0 < p.size
  sum_le : (new.map Part.size).sum ≤ space
  sum_lt : (∃ p ∈ new, p.size = 0) → (new.map Part.size).sum < space

/-- The end of the space from a flash range on: the next entry, or the end of the range. -/
def spaceLimit (es : List Desc) (stop : ℕ) : ℕ :=
  (((es.map Desc.flashBase).filter fun a => stop ≤ a).min?).getD stop

/-- The entries of new partitions, one after the other from an address on. One of open size reaches
to the limit. -/
def place : List Part → ℕ → ℕ → List Desc
  | [], _, _ => []
  | p :: ps, offset, limit =>
    let d := p.desc offset (limit - offset)
    d :: place ps (offset + d.size) limit

/-- The directory with the new entries in the place of the old ones. -/
def rewritten (dir : List Desc) (old : List Bytes) (new : List Part) (base stop : ℕ) : List Desc :=
  let es := entries dir
  let others := es.filter fun d => !isOld old d
  (es.takeWhile fun d => !isOld old d) ++ place new base (spaceLimit es stop) ++
    (es.dropWhile fun d => !isOld old d).filter (fun d => !isOld old d) ++
    List.replicate (dir.length - (others.length + new.length)) Desc.blank

/-- A new partition leaves its size open. -/
def Open (new : List Part) : Prop := ∃ p ∈ new, p.size = 0

/-- The first and the last of some entries. -/
def outer (ds : List Desc) : List Desc := ds.head?.toList ++ ds.getLast?.toList

/-- There are at least as many new partitions as old ones, and slots for them; the old entries
stand next to each other in the directory, the lowest of them in flash at one end; and when a size
is left open, the highest of them stands at an end as well and another entry lies above it. -/
structure Remappable (dir : List Desc) (old : List Bytes) (new : List Part) (base stop : ℕ) : Prop where
  enough : ((entries dir).filter (isOld old)).length ≤ new.length
  room : ((entries dir).filter fun d => !isOld old d).length + new.length ≤ dir.length
  adjacent : (entries dir).filter (isOld old) <:+: entries dir
  lowest : ∃ d ∈ outer ((entries dir).filter (isOld old)), d.flashBase = base
  highest : Open new → ∃ d ∈ outer ((entries dir).filter (isOld old)), d.flashBase + d.size = stop
  above : Open new → ∃ d ∈ entries dir, stop ≤ d.flashBase

section Loops

variable {old : List Bytes} {xs ys : List Desc} {i f : ℕ} {s : Scan}

theorem scanOld_cons {d : Desc} (hd : endsDir d.name = false) : scanOld old (d :: xs) i s =
    scanOld old xs (i + 1) ⟨max s.offset d.flashBase,
      if isOld old d then s.first.or (some i) else s.first,
      if isOld old d then some i else s.last⟩ := by
  have hmax : (if s.offset < d.flashBase then d.flashBase else s.offset) =
      max s.offset d.flashBase := by
    split_ifs <;> omega
  rw [scanOld, if_neg (by simp [hd])]
  dsimp only
  rw [hmax]
  split_ifs <;> rfl

/-- The loop over the entries of the directory. -/
theorem scanOld_append (hxs : ∀ d ∈ xs, endsDir d.name = false) :
    scanOld old (xs ++ ys) i s = scanOld old ys (i + xs.length) (scanOld old xs i s) := by
  induction xs generalizing i s with
  | nil => rfl
  | cons d xs ih =>
    obtain ⟨hd, hrest⟩ := List.forall_mem_cons.mp hxs
    rw [List.cons_append, scanOld_cons hd, scanOld_cons hd, ih hrest, List.length_cons,
      Nat.add_right_comm, Nat.add_assoc]

/-- What comes behind the entries does not count. -/
theorem scanOld_of_blank (hys : ∀ d ∈ ys.head?, endsDir d.name = true) :
    scanOld old ys i s = s := by
  cases ys with
  | nil => rfl
  | cons d ys => rw [scanOld, if_pos (hys d rfl)]

theorem scanOld_offset (hxs : ∀ d ∈ xs, endsDir d.name = false) :
    (∀ d ∈ xs, d.flashBase ≤ (scanOld old xs i s).offset) ∧ s.offset ≤ (scanOld old xs i s).offset ∧
      ((scanOld old xs i s).offset = s.offset ∨
        ∃ d ∈ xs, (scanOld old xs i s).offset = d.flashBase) := by
  induction xs generalizing i s with
  | nil => exact ⟨fun d hd => absurd hd List.not_mem_nil, le_rfl, .inl rfl⟩
  | cons d xs ih =>
    obtain ⟨hd, hrest⟩ := List.forall_mem_cons.mp hxs
    rw [scanOld_cons hd]
    obtain ⟨hall, hle, hmem⟩ := @ih (i + 1) ⟨max s.offset d.flashBase,
      if isOld old d then s.first.or (some i) else s.first, if isOld old d then some i else s.last⟩ hrest
    dsimp only at hle hmem
    refine ⟨List.forall_mem_cons.mpr ⟨by omega, hall⟩, by omega, ?_⟩
    rcases hmem with heq | ⟨e, he, heq⟩
    · rcases Nat.le_total d.flashBase s.offset with hmax | hmax
      · exact .inl (by omega)
      · exact .inr ⟨d, List.mem_cons_self, by omega⟩
    · exact .inr ⟨e, List.mem_cons_of_mem _ he, heq⟩

theorem scanOld_others (hxs : ∀ d ∈ xs, endsDir d.name = false)
    (hold : ∀ d ∈ xs, isOld old d = false) :
    (scanOld old xs i s).first = s.first ∧ (scanOld old xs i s).last = s.last := by
  induction xs generalizing i s with
  | nil => exact ⟨rfl, rfl⟩
  | cons d xs ih =>
    obtain ⟨hd, hrest⟩ := List.forall_mem_cons.mp hxs
    obtain ⟨hnot, hold⟩ := List.forall_mem_cons.mp hold
    rw [scanOld_cons hd, (ih hrest hold).1, (ih hrest hold).2, if_neg (by simp [hnot]),
      if_neg (by simp [hnot])]
    exact ⟨rfl, rfl⟩

theorem scanOld_first (hxs : ∀ d ∈ xs, endsDir d.name = false) (hf : s.first = some f) :
    (scanOld old xs i s).first = some f := by
  induction xs generalizing i s with
  | nil => exact hf
  | cons d xs ih =>
    obtain ⟨hd, hrest⟩ := List.forall_mem_cons.mp hxs
    rw [scanOld_cons hd]
    refine ih hrest ?_
    dsimp only
    rw [hf]
    split_ifs <;> rfl

theorem scanOld_last {d : Desc} (hxs : ∀ e ∈ xs ++ [d], endsDir e.name = false)
    (hold : isOld old d = true) : (scanOld old (xs ++ [d]) i s).last = some (i + xs.length) := by
  rw [scanOld_append fun e he => hxs e (List.mem_append_left _ he),
    scanOld_cons (hxs d (List.mem_append_right _ List.mem_cons_self)), if_pos hold, if_pos hold]
  rfl

theorem spaceEnd_append {lastBase offset : ℕ} (hxs : ∀ d ∈ xs, endsDir d.name = false)
    (hys : ∀ d ∈ ys.head?, endsDir d.name = true) :
    spaceEnd lastBase (xs ++ ys) offset = spaceEnd lastBase xs offset := by
  induction xs generalizing offset with
  | nil =>
    cases ys with
    | nil => rfl
    | cons d ys => exact if_pos (hys d rfl)
  | cons d xs ih =>
    obtain ⟨hd, hrest⟩ := List.forall_mem_cons.mp hxs
    simp only [List.cons_append, spaceEnd, hd, Bool.false_eq_true, if_false]
    exact ih hrest

/-- The lowest address above `lastBase`, unless there is none. -/
theorem spaceEnd_spec {lastBase offset : ℕ} (hxs : ∀ d ∈ xs, endsDir d.name = false) :
    (∀ d ∈ xs, lastBase < d.flashBase → spaceEnd lastBase xs offset ≤ d.flashBase) ∧
      spaceEnd lastBase xs offset ≤ offset ∧ (spaceEnd lastBase xs offset = offset ∨
        ∃ d ∈ xs, lastBase < d.flashBase ∧ spaceEnd lastBase xs offset = d.flashBase) := by
  induction xs generalizing offset with
  | nil => exact ⟨fun d hd => absurd hd List.not_mem_nil, le_rfl, .inl rfl⟩
  | cons d xs ih =>
    obtain ⟨hd, hrest⟩ := List.forall_mem_cons.mp hxs
    rw [spaceEnd, if_neg (by simp [hd])]
    split_ifs with hlower
    · obtain ⟨hall, hle, hmem⟩ := @ih d.flashBase hrest
      refine ⟨List.forall_mem_cons.mpr ⟨fun _ => hle, hall⟩, by omega, .inr ?_⟩
      rcases hmem with heq | ⟨e, he, heq⟩
      · exact ⟨d, List.mem_cons_self, hlower.1, heq⟩
      · exact ⟨e, List.mem_cons_of_mem _ he, heq⟩
    · obtain ⟨hall, hle, hmem⟩ := @ih offset hrest
      refine ⟨List.forall_mem_cons.mpr ⟨fun _ => by omega, hall⟩, hle, ?_⟩
      rcases hmem with heq | ⟨e, he, heq⟩
      · exact .inl heq
      · exact .inr ⟨e, List.mem_cons_of_mem _ he, heq⟩

end Loops

/-- The entries before the first old one, those up to the last old one, those behind it, and the
other slots. -/
structure Split (dir : List Desc) (old : List Bytes) (A B C R : List Desc) : Prop where
  dir_eq : dir = A ++ (B ++ (C ++ R))
  named : ∀ d ∈ A ++ (B ++ C), endsDir d.name = false
  ended : ∀ d ∈ R.head?, endsDir d.name = true
  before : ∀ d ∈ A, isOld old d = false
  behind : ∀ d ∈ C, isOld old d = false
  head : ∃ x ∈ B.head?, isOld old x = true
  last : ∃ y ∈ B.getLast?, isOld old y = true

theorem drop_entries (dir : List Desc) :
    dir.drop (entries dir).length = dir.dropWhile fun d => !endsDir d.name := by
  calc dir.drop (entries dir).length
      = (entries dir ++ dir.dropWhile fun d => !endsDir d.name).drop (entries dir).length := by
        rw [entries, List.takeWhile_append_dropWhile]
    _ = _ := List.drop_left

theorem entries_append_drop (dir : List Desc) : entries dir ++ dir.drop (entries dir).length = dir := by
  rw [drop_entries]
  exact List.takeWhile_append_dropWhile

theorem exists_split {dir : List Desc} {old : List Bytes} (h : (entries dir).filter (isOld old) ≠ []) :
    ∃ A B C, Split dir old A B C (dir.drop (entries dir).length) := by
  obtain ⟨z, hz⟩ := List.exists_mem_of_ne_nil _ h
  obtain ⟨hz, hzold⟩ := List.mem_filter.mp hz
  set es := entries dir with hes
  set rest := es.dropWhile fun d => !isOld old d with hrest
  have hne : rest ≠ [] := by
    intro hnil
    have hall := List.dropWhile_eq_nil_iff.mp hnil z hz
    rw [hzold] at hall
    cases hall
  have hhead : isOld old (rest.head hne) = true := by
    have := List.head_dropWhile_not (fun d => !isOld old d) hne
    simpa using this
  set B := rest.rdropWhile fun d => !isOld old d with hB
  have hBne : B ≠ [] := by
    intro hnil
    have hall := List.rdropWhile_eq_nil_iff.mp hnil _ (List.head_mem hne)
    rw [hhead] at hall
    cases hall
  have hjoin : B ++ rest.rtakeWhile (fun d => !isOld old d) = rest := List.rdropWhile_append_rtakeWhile ..
  refine ⟨es.takeWhile fun d => !isOld old d, B, rest.rtakeWhile fun d => !isOld old d, ?_⟩
  have hall : (es.takeWhile fun d => !isOld old d) ++
      (B ++ rest.rtakeWhile fun d => !isOld old d) = es := by
    rw [hjoin]
    exact List.takeWhile_append_dropWhile
  refine ⟨?_, ?_, ?_, ?_, ?_, ?_, ?_⟩
  · rw [← List.append_assoc B, ← List.append_assoc, hall]
    exact (entries_append_drop dir).symm
  · rw [hall]
    intro d hd
    simpa using List.mem_takeWhile_imp hd
  · rw [hes, drop_entries]
    intro d hd
    have := List.head?_dropWhile_not (fun d : Desc => !endsDir d.name) dir
    rw [Option.mem_def.mp hd] at this
    simpa using this
  · intro d hd
    simpa using List.mem_takeWhile_imp hd
  · intro d hd
    simpa using List.mem_rtakeWhile_imp hd
  · refine ⟨rest.head hne, ?_, hhead⟩
    have hBhead : (B ++ rest.rtakeWhile fun d => !isOld old d).head? = B.head? :=
      List.head?_append_of_ne_nil B hBne
    rw [hjoin, List.head?_eq_some_head hne] at hBhead
    exact Option.mem_def.mpr hBhead.symm
  · refine ⟨B.getLast hBne, List.getLast?_eq_some_getLast hBne, ?_⟩
    have := List.rdropWhile_last_not (fun d => !isOld old d) rest hBne
    simpa using this

namespace Split

variable {dir A B C R : List Desc} {old : List Bytes} {x y : Desc}

theorem named_left (h : Split dir old A B C R) : ∀ d ∈ A, endsDir d.name = false :=
  fun d hd => h.named d (List.mem_append_left _ hd)

theorem named_middle (h : Split dir old A B C R) : ∀ d ∈ B, endsDir d.name = false :=
  fun d hd => h.named d (List.mem_append_right _ (List.mem_append_left _ hd))

theorem named_right (h : Split dir old A B C R) : ∀ d ∈ C, endsDir d.name = false :=
  fun d hd => h.named d (List.mem_append_right _ (List.mem_append_right _ hd))

theorem entries_eq (h : Split dir old A B C R) : entries dir = A ++ (B ++ C) := by
  have hall : ∀ d ∈ A ++ (B ++ C), (!endsDir d.name) = true := fun d hd => by simp [h.named d hd]
  have hend : (R.takeWhile fun d => !endsDir d.name) = [] := by
    cases hR : R with
    | nil => rfl
    | cons d R =>
      have hd := h.ended d (by rw [hR]; rfl)
      exact List.takeWhile_cons_of_neg (by simp [hd])
  have hdir : dir = (A ++ (B ++ C)) ++ R := by
    rw [h.dir_eq, List.append_assoc, List.append_assoc]
  rw [entries, hdir, List.takeWhile_append_of_pos hall, hend, List.append_nil]

theorem scan (h : Split dir old A B C R) {s : Scan} (hs : scanOld old dir 0 ⟨0, none, none⟩ = s) :
    s.first = some A.length ∧ s.last = some (A.length + B.length - 1) ∧
      (∀ d ∈ entries dir, d.flashBase ≤ s.offset) ∧ ∃ d ∈ entries dir, s.offset = d.flashBase := by
  obtain ⟨x, hx, hxold⟩ := h.head
  obtain ⟨y, hy, hyold⟩ := h.last
  obtain ⟨B₁, hB₁⟩ : ∃ B₁, B = x :: B₁ := by
    cases B with
    | nil => cases hx
    | cons z B₁ => exact ⟨B₁, by rw [Option.some.inj hx]⟩
  obtain ⟨B₂, hB₂⟩ : ∃ B₂, B = B₂ ++ [y] := List.getLast?_eq_some_iff.mp hy
  have hstop : scanOld old dir 0 ⟨0, none, none⟩ =
      scanOld old (A ++ (B ++ C)) 0 ⟨0, none, none⟩ := by
    have hdir : dir = (A ++ (B ++ C)) ++ R := by
      rw [h.dir_eq, List.append_assoc, List.append_assoc]
    rw [hdir, scanOld_append h.named, scanOld_of_blank h.ended]
  have hsplit : s = scanOld old C (0 + A.length + B.length)
      (scanOld old B (0 + A.length) (scanOld old A 0 ⟨0, none, none⟩)) := by
    rw [← hs, hstop, scanOld_append h.named_left, scanOld_append h.named_middle]
  have hA := @scanOld_others old A 0 ⟨0, none, none⟩ h.named_left h.before
  have hC := @scanOld_others old C (0 + A.length + B.length)
    (scanOld old B (0 + A.length) (scanOld old A 0 ⟨0, none, none⟩)) h.named_right h.behind
  refine ⟨?_, ?_, ?_⟩
  · rw [hsplit, hC.1, hB₁, scanOld_cons (h.named_middle x (by simp [hB₁]))]
    refine scanOld_first (fun d hd => h.named_middle d (by simp [hB₁, hd])) ?_
    dsimp only
    rw [if_pos hxold, hA.1, Nat.zero_add]
    rfl
  · rw [hsplit, hC.2, hB₂, scanOld_last (by rw [← hB₂]; exact h.named_middle) hyold]
    simp
  · have hoffset := @scanOld_offset old (A ++ (B ++ C)) 0 ⟨0, none, none⟩ h.named
    rw [← hstop, hs] at hoffset
    rw [h.entries_eq]
    refine ⟨hoffset.1, ?_⟩
    rcases hoffset.2.2 with hzero | hmem
    · -- all addresses are zero
      have hxmem : x ∈ A ++ (B ++ C) := by simp [hB₁]
      have hle := hoffset.1 x hxmem
      exact ⟨x, hxmem, by rw [hzero] at hle ⊢; exact (Nat.le_zero.mp hle).symm⟩
    · exact hmem

end Split

/-- What is left after the last slot moved to. -/
def tailOf (dir A C R : List Desc) (new : List Part) : List Desc :=
  (C ++ R).take (dir.length - (A.length + new.length))

section Remap

variable {dir A B C R : List Desc} {old : List Bytes} {new : List Part} {x y : Desc}

theorem length_newEntries (ps : List Part) (offset size : ℕ) :
    (newEntries ps offset size).length = ps.length := by
  induction ps generalizing offset size with
  | nil => rfl
  | cons p ps ih => rw [newEntries, List.length_cons, ih, List.length_cons]

theorem shiftSlots_eq (h : Split dir old A B C R) :
    (shiftSlots dir (A.length + new.length) (A.length + B.length)).map
        (fun d => (d.take A.length, d.drop (A.length + new.length))) =
      if B.length ≤ new.length ∧ A.length + new.length ≤ dir.length then
        some (A, tailOf dir A C R new) else none := by
  have hdrop : dir.drop (A.length + B.length) = C ++ R := by
    rw [h.dir_eq, ← List.append_assoc, ← List.length_append, List.drop_left]
  have htake : dir.take A.length = A := by rw [h.dir_eq, List.take_left]
  have hlen : dir.length = A.length + B.length + (C ++ R).length := by
    rw [h.dir_eq, List.length_append, List.length_append, Nat.add_assoc]
  rw [shiftSlots]
  split_ifs with heq hlt hroom hcond hcond
  · rw [Option.map_some, htake, heq, hdrop, tailOf, heq, List.take_of_length_le (by omega)]
  · omega
  · omega
  · rfl
  · have hmoved : memmove dir (A.length + new.length) (A.length + B.length)
        (dir.length - (A.length + new.length)) =
        dir.take (A.length + new.length) ++ tailOf dir A C R new := by
      rw [memmove, hdrop, tailOf, List.drop_of_length_le (by omega), List.append_nil]
    have hfront : (dir.take (A.length + new.length)).length = A.length + new.length := by
      rw [List.length_take]
      omega
    rw [Option.map_some, hmoved, List.take_append_of_le_length (by omega), List.take_take,
      Nat.min_eq_left (by omega), htake, List.drop_append_of_le_length (by omega),
      List.drop_of_length_le (by omega), List.nil_append]
  · omega
  · omega
  · rfl

/-- What a call does: the lower and the higher of the outer old entries decide on the addresses. -/
theorem fisRemap_eq (h : Split dir old A B C R) (hx : B.head? = some x) (hy : B.getLast? = some y) :
    ∃ top, (∀ d ∈ entries dir, d.flashBase ≤ top) ∧ (∃ d ∈ entries dir, top = d.flashBase) ∧
      fisRemap dir old new = if B.length ≤ new.length ∧ A.length + new.length ≤ dir.length then
        some (A ++ newEntries new (min x.flashBase y.flashBase)
          (u32Sub (spaceEnd (max x.flashBase y.flashBase) (entries dir) top)
            (min x.flashBase y.flashBase)) ++ tailOf dir A C R new)
        else none := by
  obtain ⟨hfirst, hlast, htop, hmem⟩ := h.scan rfl
  refine ⟨_, htop, hmem, ?_⟩
  have hBlen : 0 < B.length := List.length_pos_iff.mpr fun hnil => by rw [hnil] at hx; cases hx
  have hgetx : dir[A.length]? = some x := by
    rw [h.dir_eq, List.getElem?_append_right le_rfl, Nat.sub_self,
      List.getElem?_append_left hBlen, ← List.head?_eq_getElem?, hx]
  have hgety : dir[A.length + B.length - 1]? = some y := by
    rw [h.dir_eq, List.getElem?_append_right (by omega), List.getElem?_append_left (by omega),
      show A.length + B.length - 1 - A.length = B.length - 1 by omega, ← List.getLast?_eq_getElem?, hy]
  have hlow : (if y.flashBase < x.flashBase then y else x).flashBase = min x.flashBase y.flashBase := by
    split_ifs <;> omega
  have hhigh : (if y.flashBase < x.flashBase then x else y).flashBase = max x.flashBase y.flashBase := by
    split_ifs <;> omega
  have hspace (lastBase offset : ℕ) :
      spaceEnd lastBase dir offset = spaceEnd lastBase (entries dir) offset := by
    conv_lhs => rw [h.dir_eq]
    rw [h.entries_eq, ← List.append_assoc B, ← List.append_assoc, spaceEnd_append h.named h.ended]
  have hnext : A.length + B.length - 1 + 1 = A.length + B.length := by omega
  rw [fisRemap]
  simp only [hfirst, hlast, hgetx, hgety, hlow, hhigh, hspace, hnext, Option.bind_eq_bind,
    Option.bind_some]
  have hshift := @shiftSlots_eq dir A B C R old new h
  by_cases hcond : B.length ≤ new.length ∧ A.length + new.length ≤ dir.length
  · rw [if_pos hcond] at hshift ⊢
    obtain ⟨d, hd, hparts⟩ := Option.map_eq_some_iff.mp hshift
    obtain ⟨htake, hdrop⟩ := Prod.mk.inj hparts
    rw [hd, Option.bind_some, htake, hdrop]
  · rw [if_neg hcond] at hshift ⊢
    rw [Option.map_eq_none_iff.mp hshift, Option.bind_none]

theorem rewritten_eq (h : Split dir old A B C R) (base stop : ℕ) :
    rewritten dir old new base stop =
      A ++ place new base (spaceLimit (entries dir) stop) ++ (B.filter (fun d => !isOld old d) ++ C) ++
        List.replicate (dir.length -
          (A.length + ((B.filter fun d => !isOld old d).length + C.length) + new.length))
          Desc.blank := by
  obtain ⟨x, hx, hxold⟩ := h.head
  obtain ⟨B₁, rfl⟩ : ∃ B₁, B = x :: B₁ := by
    cases B with
    | nil => cases hx
    | cons z B₁ => exact ⟨B₁, by rw [Option.some.inj hx]⟩
  have hA : ∀ d ∈ A, (!isOld old d) = true := fun d hd => by simp [h.before d hd]
  have hC : C.filter (fun d => !isOld old d) = C :=
    List.filter_eq_self.mpr fun d hd => by simp [h.behind d hd]
  have hcut : ¬ (!isOld old x) = true := by simp [hxold]
  have htake : (entries dir).takeWhile (fun d => !isOld old d) = A := by
    rw [h.entries_eq, List.takeWhile_append_of_pos hA, List.cons_append,
      List.takeWhile_cons_of_neg (p := fun d => !isOld old d) hcut, List.append_nil]
  have hdrop : (entries dir).dropWhile (fun d => !isOld old d) = x :: B₁ ++ C := by
    rw [h.entries_eq, List.dropWhile_append_of_pos hA, List.cons_append,
      List.dropWhile_cons_of_neg (p := fun d => !isOld old d) hcut]
  have hothers : ((entries dir).filter fun d => !isOld old d).length =
      A.length + (((x :: B₁).filter fun d => !isOld old d).length + C.length) := by
    rw [h.entries_eq, List.filter_append, List.filter_append, hC, List.filter_eq_self.mpr hA,
      List.length_append, List.length_append]
  rw [rewritten, htake, hdrop, List.filter_append, hC, hothers]

end Remap

end NeonWrt.Mtd.Fis
