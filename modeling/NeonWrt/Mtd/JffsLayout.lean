import NeonWrt.Mtd.JffsWrite

/-!
# Which files are laid out right

The writer of a JFFS2 file puts nodes into the buffer one behind the other. Between two nodes
the offset is a multiple of four below the erase size, and what was put so far is either
written or in the buffer, before the offset. This stays so as long as a node ends in its block,
with its padding. The offsets depend on the lengths alone, so that it can be said beforehand
which files are laid out right.

A dirent is put without a look at the room that is left, since the comparison before it is
never true: `ofs - erasesize` is negative. And a block that has no room for an inode and 128
bytes is left for the next one, even if the next one has no more room.
-/

namespace NeonWrt.Mtd.JffsWrite

open Lib

variable {E : ℕ} {en : Endian}

/-- The next multiple of four. -/
def alignUp (n : ℕ) : ℕ := (n + 3) / 4 * 4

/-- A node that ends at an offset of the block is padded inside the block. -/
def Ends (E e : ℕ) : Prop := e = E ∨ alignUp e ≤ E

/-- The offset behind the cleanmarker, if that is put. -/
def start (ofs : ℕ) : ℕ := if ofs = 0 then 12 else ofs

/-- The offset behind the padding of a node, or zero where that ends the block. -/
def settle (E e : ℕ) : ℕ := if E ≤ alignUp e then 0 else alignUp e

/-- A dirent can be put: its name has a length, and it ends in the block. -/
def DirentFits (E ofs : ℕ) (name : Bytes) : Prop :=
  name.length < 256 ∧ Ends E (start ofs + 40 + name.length)

/-- The offset after a dirent. -/
def afterDirent (E ofs : ℕ) (name : Bytes) : ℕ := settle E (start ofs + 40 + name.length)

/-- The offset that the inode of a directory is put at. -/
def inodeStart (E ofs : ℕ) : ℕ := if E - ofs < 68 then 12 else start ofs

/-- The inode of a directory can be put. -/
def InodeFits (E ofs : ℕ) : Prop := Ends E (inodeStart E ofs + 68)

/-- The offset that the next inode of a file is put at. -/
def chunkStart (E ofs : ℕ) : ℕ := if ofs + 196 < E then ofs else 12

/-- The bytes that the next inode of a file carries. -/
def chunkLen (E ofs m : ℕ) (content : Bytes) : ℕ :=
  min (min (m + 1) (min (E - chunkStart E ofs - 68) 4096)) content.length

/-- The inodes of a file can be put: there is a block with room for each and for 128 bytes, each ends
in its block, no read fails, and the offset fields are large enough. -/
inductive LoopFits (E : ℕ) (reads : ℕ → Option ℕ) : ℕ → ℕ → ℕ → Bytes → Prop
  | done {k fOffset ofs : ℕ} (room : ofs + 196 < E ∨ 208 < E) : LoopFits E reads k fOffset ofs []
  | more {k fOffset ofs m : ℕ} {content : Bytes} (room : ofs + 196 < E ∨ 208 < E)
      (data : content ≠ []) (field : fOffset < 4294967296) (read : reads k = some m)
      (ends : Ends E (chunkStart E ofs + 68 + chunkLen E ofs m content))
      (rest : LoopFits E reads (k + 1) (fOffset + chunkLen E ofs m content)
        (start (settle E (chunkStart E ofs + 68 + chunkLen E ofs m content)))
        (content.drop (chunkLen E ofs m content))) :
      LoopFits E reads k fOffset ofs content

/-- All nodes of a file can be put, those of its directory before them. -/
def Fits (E : ℕ) (dir : Option Bytes) (name content : Bytes) (reads : ℕ → Option ℕ) : Prop :=
  match dir with
  | none => DirentFits E 0 name ∧ LoopFits E reads 0 0 (afterDirent E 0 name) content
  | some dir =>
    let ofs := afterDirent E 0 dir
    let ofs' := settle E (inodeStart E ofs + 68)
    (DirentFits E 0 dir ∧ InodeFits E ofs) ∧
      DirentFits E ofs' name ∧ LoopFits E reads 0 0 (afterDirent E ofs' name) content

theorem alignUp_mod (n : ℕ) : alignUp n % 4 = 0 := Nat.mul_mod_left _ _

theorem le_alignUp (n : ℕ) : n ≤ alignUp n := by
  unfold alignUp
  omega

theorem alignUp_lt (n : ℕ) : alignUp n < n + 4 := by
  unfold alignUp
  omega

theorem Ends.le {e : ℕ} (h : Ends E e) : e ≤ E := by
  rcases h with rfl | h
  · exact le_rfl
  · exact (le_alignUp e).trans h

theorem settle_lt (hE : 0 < E) (e : ℕ) : settle E e < E := by
  unfold settle
  split_ifs <;> omega

theorem settle_mod (e : ℕ) : settle E e % 4 = 0 := by
  unfold settle
  split_ifs
  · rfl
  · exact alignUp_mod e

theorem start_mod {ofs : ℕ} (h : ofs % 4 = 0) : start ofs % 4 = 0 := by
  unfold start
  split_ifs
  · rfl
  · exact h

theorem start_lt {ofs : ℕ} (h : ofs < E) (hE : 12 < E) : start ofs < E := by
  unfold start
  split_ifs <;> omega

theorem inodeStart_mod {ofs : ℕ} (h : ofs % 4 = 0) : inodeStart E ofs % 4 = 0 := by
  unfold inodeStart
  split_ifs
  · rfl
  · exact start_mod h

/-- Memory holds bytes from an address on. -/
def Held (mem : ℕ → UInt8) (a : ℕ) (dat : Bytes) : Prop := ∀ i < dat.length, mem (a + i) = dat.getD i 0

namespace Writer

variable (s : Writer) (p : Bytes)

@[simp] theorem put_ofs : (s.put p).ofs = s.ofs + p.length := rfl

@[simp] theorem put_blocks : (s.put p).blocks = s.blocks := rfl

@[simp] theorem put_nodes : (s.put p).nodes = s.nodes := rfl

@[simp] theorem flush_ofs : (s.flush E).ofs = s.ofs := rfl

@[simp] theorem flush_nodes : (s.flush E).nodes = s.nodes := rfl

@[simp] theorem note_ofs (len : ℕ) (kind : Kind) : (s.note len kind).ofs = s.ofs := rfl

@[simp] theorem note_blocks (len : ℕ) (kind : Kind) : (s.note len kind).blocks = s.blocks := rfl

/-- A node that is noted is one of the current block. -/
theorem exists_note (len : ℕ) (kind : Kind) :
    ∃ n ∈ (s.note len kind).nodes, n.block = (s.note len kind).blocks.length :=
  ⟨_, List.mem_append_right _ (List.mem_singleton.mpr rfl), rfl⟩

theorem put_buf_of_lt {a : ℕ} (h : a < s.ofs) : (s.put p).buf a = s.buf a :=
  if_neg (by omega)

theorem held_put : Held (s.put p).buf s.ofs p := by
  intro i hi
  show (if _ then _ else _) = _
  rw [if_pos (by omega), Nat.add_sub_cancel_left]

@[simp] theorem put_nil : s.put [] = s := by
  have hbuf : (s.put []).buf = s.buf := funext fun a => if_neg (by simp)
  calc s.put [] = { s with buf := (s.put []).buf } := rfl
    _ = s := by rw [hbuf]

/-- The state after a block was filled up and written. -/
def turned (E : ℕ) (s : Writer) : Writer :=
  { s.put (List.replicate (E - s.ofs) 0xff) with ofs := 0 }.flush E

/-- The state after the cleanmarker was put, if it had to be. -/
def ready (en : Endian) (s : Writer) : Writer := if 0 < s.ofs then s else s.put (cleanmarker en)

theorem length_cleanmarker : (cleanmarker en).length = 12 := by cases en <;> rfl

theorem ready_ofs : (s.ready en).ofs = start s.ofs := by
  unfold ready start
  split_ifs with h h'
  · omega
  · rfl
  · rw [put_ofs, length_cleanmarker]
    omega
  · omega

@[simp] theorem ready_nodes : (s.ready en).nodes = s.nodes := by
  unfold ready
  split_ifs <;> rfl

@[simp] theorem ready_blocks : (s.ready en).blocks = s.blocks := by
  unfold ready
  split_ifs <;> rfl

end Writer

open Writer

theorem wrap_of_dvd {s : Writer} (h : s.ofs % E = 0) : s.wrap E = { s with ofs := 0 }.flush E :=
  if_pos h

theorem wrap_of_lt {s : Writer} (hpos : 0 < s.ofs) (hlt : s.ofs < E) : s.wrap E = s := by
  have hmod : s.ofs % E = s.ofs := Nat.mod_eq_of_lt hlt
  rw [wrap, hmod, if_neg hpos.ne']

@[simp] theorem wrap_nodes (s : Writer) : (s.wrap E).nodes = s.nodes := by
  unfold wrap
  split_ifs <;> rfl

section Pad

variable {s : Writer} {size : ℕ}

@[simp] theorem pad_nodes : (pad E size s).nodes = s.nodes := by
  unfold pad
  split_ifs <;> simp

theorem pad_same (h : s.ofs % size = 0) (hlt : s.ofs < E) : pad E size s = s := if_pos ⟨h, hlt⟩

theorem pad_of_eq (h : s.ofs = E) : pad E size s = { s with ofs := 0 }.flush E := by
  rw [pad, if_neg (by omega), if_neg (by omega), wrap_of_dvd (by rw [h, Nat.mod_self])]

/-- Padding to the end of the block writes it, if there is anything in it. -/
theorem pad_full (hlt : s.ofs < E) : pad E E s = if s.ofs = 0 then s else s.turned E := by
  split_ifs with h
  · exact pad_same (by rw [h, Nat.zero_mod]) hlt
  · have hmod : s.ofs % E = s.ofs := Nat.mod_eq_of_lt hlt
    rw [pad, hmod, if_neg (by omega), if_pos hlt, wrap_of_dvd]
    · rfl
    · rw [put_ofs, List.length_replicate, Nat.add_sub_cancel' hlt.le, Nat.mod_self]

/-- Padding to a multiple of four adds at most three bytes. -/
theorem pad_four (hlt : s.ofs < E) (h : s.ofs % 4 ≠ 0) :
    pad E 4 s = (s.put (List.replicate (alignUp s.ofs - s.ofs) 0xff)).wrap E := by
  have hsize : 4 - s.ofs % 4 = alignUp s.ofs - s.ofs := by
    unfold alignUp
    omega
  rw [pad, if_neg (by omega), if_pos hlt, hsize]

/-- The padding behind a node that ends in the block: the block is written where that ends it. -/
theorem pad_four_eq (hpos : 0 < s.ofs) (hends : Ends E s.ofs) : ∃ p : Bytes,
    (alignUp s.ofs < E → s.ofs + p.length = alignUp s.ofs) ∧
      pad E 4 s = if E ≤ alignUp s.ofs then { s.put p with ofs := 0 }.flush E else s.put p := by
  have hup := le_alignUp s.ofs
  rcases hends.le.eq_or_lt with heq | hlt
  · refine ⟨[], fun h => by omega, ?_⟩
    rw [pad_of_eq heq, if_pos (by omega), put_nil]
  · have hle : alignUp s.ofs ≤ E := by
      rcases hends with heq | hle
      · omega
      · exact hle
    by_cases hmod : s.ofs % 4 = 0
    · have hsame : alignUp s.ofs = s.ofs := by
        unfold alignUp
        omega
      refine ⟨[], fun _ => hsame.symm, ?_⟩
      rw [pad_same hmod hlt, if_neg (by omega), put_nil]
    · have hend : (s.put (List.replicate (alignUp s.ofs - s.ofs) 0xff)).ofs = alignUp s.ofs := by
        rw [put_ofs, List.length_replicate]
        omega
      refine ⟨List.replicate (alignUp s.ofs - s.ofs) 0xff, fun _ => hend, ?_⟩
      rw [pad_four hlt hmod]
      rcases hle.eq_or_lt with heq | hlt'
      · rw [wrap_of_dvd (by rw [hend, heq, Nat.mod_self]), if_pos heq.ge]
      · rw [wrap_of_lt (by omega) (by omega), if_neg (by omega)]

theorem pad_four_ofs (hpos : 0 < s.ofs) (hends : Ends E s.ofs) :
    (pad E 4 s).ofs = settle E s.ofs := by
  obtain ⟨p, hofs, hpad⟩ := pad_four_eq hpos hends
  rw [hpad, settle]
  split_ifs with hfull
  · rfl
  · exact hofs (by omega)

end Pad

theorem RawDirent.length_bytes (de : RawDirent) : (de.bytes en).length = 40 + de.name.length := by
  simp only [RawDirent.bytes, List.length_append, Endian.length_u16, Endian.length_u32,
    List.length_cons, List.length_nil]

theorem RawInode.length_header (en : Endian) (ri : RawInode) (dat : Bytes) :
    (ri.header en dat).length = 68 := by
  unfold RawInode.header
  dsimp only
  simp only [List.length_append, Endian.length_u16, Endian.length_u32, List.length_cons,
    List.length_nil]

/-- The last byte of the head of a node, up to its type, is not what an erased block holds. -/
theorem getElem?_head {nodetype : ℕ} (h : nodetype = nodetypeDirent ∨ nodetype = nodetypeInode)
    (rest : Bytes) : ∃ c : UInt8,
      (en.u16 magicBitmask ++ (en.u16 nodetype ++ rest))[3]? = some c ∧ c ≠ 0xff := by
  rcases h with rfl | rfl <;> cases en <;> exact ⟨_, rfl, by decide⟩

theorem RawDirent.getElem?_bytes (de : RawDirent) :
    ∃ c : UInt8, (de.bytes en)[3]? = some c ∧ c ≠ 0xff := by
  unfold RawDirent.bytes
  dsimp only
  simp only [List.append_assoc]
  exact getElem?_head (.inl rfl) _

theorem RawInode.getElem?_header (en : Endian) (ri : RawInode) (dat rest : Bytes) :
    ∃ c : UInt8, (ri.header en dat ++ rest)[3]? = some c ∧ c ≠ 0xff := by
  unfold RawInode.header
  dsimp only
  simp only [List.append_assoc]
  exact getElem?_head (.inr rfl) _

namespace Kind

theorem bytes_file (ri : RawInode) (dat : Bytes) :
    (Kind.file ri dat).bytes en = ri.header en dat ++ dat := rfl

theorem bytes_dir (ri : RawInode) : (Kind.dir ri).bytes en = ri.header en [] ++ [] :=
  (List.append_nil _).symm

theorem le_length_bytes (en : Endian) (kind : Kind) : 40 ≤ (kind.bytes en).length := by
  cases kind with
  | dirent de =>
    rw [bytes, RawDirent.length_bytes]
    omega
  | dir ri =>
    rw [bytes, RawInode.length_header]
    omega
  | file ri dat =>
    rw [bytes, List.length_append, RawInode.length_header]
    omega

/-- A node is not what an erased block holds. -/
theorem getElem?_bytes (en : Endian) (kind : Kind) :
    ∃ c : UInt8, (kind.bytes en)[3]? = some c ∧ c ≠ 0xff := by
  cases kind with
  | dirent de => exact de.getElem?_bytes
  | dir ri =>
    have h := ri.getElem?_header en [] []
    rwa [List.append_nil] at h
  | file ri dat => exact ri.getElem?_header en dat dat

end Kind

/-- The node is in the block that was written for it, or in the buffer before the offset. -/
def Writer.InPlace (en : Endian) (s : Writer) (n : Node) : Prop :=
  (∃ block, s.blocks[n.block]? = some block ∧ HasAt block n.ofs (n.kind.bytes en)) ∨
    n.block = s.blocks.length ∧ n.ofs + (n.kind.bytes en).length ≤ s.ofs ∧
      Held s.buf n.ofs (n.kind.bytes en)

/-- The nodes that were put so far lie in their blocks and are in their places. -/
structure Kept (E : ℕ) (en : Endian) (s : Writer) : Prop where
  inside : ∀ n ∈ s.nodes, n.ofs % 4 = 0 ∧ n.ofs + (n.kind.bytes en).length ≤ E
  place : ∀ n ∈ s.nodes, s.InPlace en n
  apart : s.nodes.Pairwise (Node.Before en)

namespace Kept

variable {s t : Writer}

/-- What is copied behind the offset does not touch the nodes. -/
theorem mono (h : Kept E en s) (hnodes : t.nodes = s.nodes) (hblocks : t.blocks = s.blocks)
    (hofs : s.ofs ≤ t.ofs) (hbuf : ∀ a < s.ofs, t.buf a = s.buf a) : Kept E en t := by
  refine ⟨by rw [hnodes]; exact h.inside, fun n hn => ?_, by rw [hnodes]; exact h.apart⟩
  rw [hnodes] at hn
  rw [InPlace, hblocks]
  refine (h.place n hn).imp_right fun hheld => ⟨hheld.1, hheld.2.1.trans hofs, fun i hi => ?_⟩
  rw [hbuf _ (by omega)]
  exact hheld.2.2 i hi

theorem put (h : Kept E en s) (p : Bytes) : Kept E en (s.put p) :=
  h.mono rfl rfl (Nat.le_add_right _ _) fun _ ha => put_buf_of_lt s p ha

theorem ready (h : Kept E en s) : Kept E en (s.ready en) := by
  unfold Writer.ready
  split_ifs
  · exact h
  · exact h.put _

/-- The nodes in the buffer are in the block that is written. -/
theorem flush (h : Kept E en s) : Kept E en ({ s with ofs := 0 }.flush E) := by
  refine ⟨h.inside, fun n hn => .inl ?_, h.apart⟩
  obtain ⟨-, hend⟩ := h.inside n hn
  rcases h.place n hn with ⟨block, hblock, hat⟩ | ⟨hcur, -, hheld⟩
  · have hlt := (List.getElem?_eq_some_iff.mp hblock).1
    exact ⟨block, by rw [Writer.flush, List.getElem?_append_left hlt, hblock], hat⟩
  · refine ⟨(List.range E).map s.buf, ?_, fun i hi => ?_⟩
    · rw [Writer.flush, hcur, List.getElem?_append_right le_rfl, Nat.sub_self]
      rfl
    · rw [List.getElem?_map, List.getElem?_range (by omega), Option.map_some, hheld i hi,
        List.getElem?_eq_getElem hi, List.getD_eq_getElem?_getD, List.getElem?_eq_getElem hi]
      rfl

/-- After a block is filled up and written the buffer is empty. -/
theorem pad_full (h : Kept E en s) (hlt : s.ofs < E) :
    Kept E en (pad E E s) ∧ (pad E E s).ofs = 0 := by
  rw [JffsWrite.pad_full hlt]
  split_ifs with hz
  · exact ⟨h, hz⟩
  · exact ⟨(h.put _).flush, rfl⟩

/-- The padding behind a node that ends in the block. -/
theorem pad_four (h : Kept E en s) (hpos : 0 < s.ofs) (hends : Ends E s.ofs) :
    Kept E en (pad E 4 s) := by
  obtain ⟨p, -, hpad⟩ := pad_four_eq hpos hends
  rw [hpad]
  split_ifs
  · exact (h.put p).flush
  · exact h.put p

/-- A node that is put at the offset and ends in the block. -/
theorem emit (h : Kept E en s) {kind : Kind} (hmod : s.ofs % 4 = 0)
    (hend : s.ofs + (kind.bytes en).length ≤ E)
    (hnodes : t.nodes = s.nodes ++ [⟨s.blocks.length, s.ofs, kind⟩]) (hblocks : t.blocks = s.blocks)
    (hofs : t.ofs = s.ofs + (kind.bytes en).length) (hbuf : ∀ a < s.ofs, t.buf a = s.buf a)
    (hheld : Held t.buf s.ofs (kind.bytes en)) : Kept E en t := by
  have hold : Kept E en { t with nodes := s.nodes } :=
    h.mono rfl hblocks (by rw [hofs]; exact Nat.le_add_right _ _) hbuf
  refine ⟨fun n hn => ?_, fun n hn => ?_, ?_⟩
  · rw [hnodes] at hn
    rcases List.mem_append.mp hn with hn | hn
    · exact h.inside n hn
    · obtain rfl := List.mem_singleton.mp hn
      exact ⟨hmod, hend⟩
  · rw [hnodes] at hn
    rcases List.mem_append.mp hn with hn | hn
    · exact hold.place n hn
    · obtain rfl := List.mem_singleton.mp hn
      exact .inr ⟨by rw [hblocks], hofs.ge, hheld⟩
  · rw [hnodes, List.pairwise_append]
    refine ⟨h.apart, List.pairwise_singleton _ _, fun m hm n hn => ?_⟩
    obtain rfl := List.mem_singleton.mp hn
    rcases h.place m hm with ⟨block, hblock, -⟩ | ⟨hcur, hle, -⟩
    · exact .inl (List.getElem?_eq_some_iff.mp hblock).1
    · exact .inr ⟨hcur, hle⟩

/-- When the buffer is empty, all nodes are written. -/
theorem stored (h : Kept E en s) (hofs : s.ofs = 0) : ∀ n ∈ s.nodes,
    ∃ block, s.blocks[n.block]? = some block ∧ HasAt block n.ofs (n.kind.bytes en) := by
  intro n hn
  refine (h.place n hn).resolve_right fun hcur => ?_
  have hlen := n.kind.le_length_bytes en
  omega

end Kept

section Steps

variable {s s' : Writer} {n : ℕ} {p : Bytes}

theorem addData_of_le (hn : 0 < n) (h : s.ofs + p.length ≤ E) :
    addData E en n p s = some (s.put p) := by
  obtain ⟨n, rfl⟩ := Nat.exists_eq_succ_of_ne_zero hn.ne'
  rw [addData, if_neg (by omega)]

theorem eq_put_of_addData (h : s.ofs + p.length ≤ E) (hrun : addData E en n p s = some s') :
    s' = s.put p := by
  rcases n.eq_zero_or_pos with rfl | hn
  · exact absurd hrun (by simp [addData])
  · rw [addData_of_le hn h] at hrun
    exact (Option.some.inj hrun).symm

/-- A block without room for the cleanmarker is prepared forever. -/
theorem prepEraseblock_none (hE : 0 < E) (hsmall : E < 12) (hofs : s.ofs = 0) :
    prepEraseblock E en n s = none ∧ addData E en n (cleanmarker en) s = none := by
  induction n with
  | zero => exact ⟨by rw [prepEraseblock], by rw [addData]⟩
  | succ n ih =>
    constructor
    · rw [prepEraseblock, if_neg (by omega)]
      exact ih.2
    · rw [addData, if_pos (by rw [length_cleanmarker]; omega),
        pad_same (by rw [hofs, Nat.zero_mod]) (by omega), ih.1]
      rfl

theorem prepEraseblock_eq (hn : 2 ≤ n) (h : 0 < s.ofs ∨ 12 ≤ E) :
    prepEraseblock E en n s = some (s.ready en) := by
  obtain ⟨n, rfl⟩ := Nat.exists_eq_succ_of_ne_zero (by omega : n ≠ 0)
  rw [prepEraseblock, Writer.ready]
  split_ifs with hpos
  · rfl
  · exact addData_of_le (by omega) (by rw [length_cleanmarker]; omega)

theorem eq_ready_of_prepEraseblock (hE : 0 < E) (hrun : prepEraseblock E en n s = some s') :
    s' = s.ready en ∧ (0 < s.ofs ∨ 12 ≤ E) := by
  by_cases h : 0 < s.ofs ∨ 12 ≤ E
  · refine ⟨?_, h⟩
    cases n with
    | zero => exact absurd hrun (by simp [prepEraseblock])
    | succ n =>
      rw [prepEraseblock] at hrun
      rw [Writer.ready]
      split_ifs at hrun ⊢ with hpos
      · exact (Option.some.inj hrun).symm
      · exact eq_put_of_addData (by rw [length_cleanmarker]; omega) hrun
  · rw [(prepEraseblock_none hE (by omega) (by omega)).1] at hrun
    cases hrun

/-- Where the offset is below the erase size, nothing is looked at before a dirent is put. -/
theorem addDirent_eq {name : Bytes} {type : UInt8} {parent : ℕ} (hlt : s.ofs < E) :
    addDirent E en n name type parent s = (prepEraseblock E en n s).bind fun s =>
      some (s.lastIno + 1, pad E 4 (s.putDirent en name type parent)) := by
  rw [addDirent, if_neg (by omega)]
  rfl

/-- A dirent is noted at the offset, and is what is copied there. -/
theorem putDirent_eq {name : Bytes} {type : UInt8} {parent : ℕ} : ∃ de : RawDirent,
    de.name = name ∧ (s.putDirent en name type parent).buf = (s.put (de.bytes en)).buf ∧
      (s.putDirent en name type parent).nodes =
        s.nodes ++ [⟨s.blocks.length, s.ofs, .dirent de⟩] := by
  refine ⟨⟨parent, s.lastVersion, s.lastIno + 1, type, name⟩, rfl, rfl, ?_⟩
  simp only [Writer.putDirent, Writer.note, put_ofs, put_blocks, put_nodes, RawDirent.length_bytes,
    Nat.add_sub_cancel]

@[simp] theorem fileParts_append (a b : List Node) : fileParts (a ++ b) = fileParts a ++ fileParts b :=
  List.filterMap_append

/-- The writer is at an offset, and these parts of the file were put. -/
structure Reached (E : ℕ) (en : Endian) (ofs : ℕ) (parts : List (ℕ × Bytes)) (s : Writer) : Prop where
  kept : Kept E en s
  ofs : s.ofs = ofs
  parts : fileParts s.nodes = parts

variable {ofs : ℕ} {parts : List (ℕ × Bytes)}

theorem Reached.pad_full (h : Reached E en ofs parts s) (hlt : ofs < E) :
    Reached E en 0 parts (pad E E s) := by
  obtain ⟨hkept, hofs⟩ := h.kept.pad_full (by rw [h.ofs]; exact hlt)
  exact ⟨hkept, hofs, by rw [pad_nodes, h.parts]⟩

theorem Reached.ready (h : Reached E en ofs parts s) : Reached E en (start ofs) parts (s.ready en) :=
  ⟨h.kept.ready, by rw [ready_ofs, h.ofs], by rw [ready_nodes, h.parts]⟩

theorem Reached.pad_four (h : Reached E en ofs parts s) (hpos : 0 < ofs) (hends : Ends E ofs) :
    Reached E en (settle E ofs) parts (pad E 4 s) := by
  have hpos' : 0 < s.ofs := by rw [h.ofs]; exact hpos
  have hends' : Ends E s.ofs := by rw [h.ofs]; exact hends
  exact ⟨h.kept.pad_four hpos' hends', by rw [pad_four_ofs hpos' hends', h.ofs],
    by rw [pad_nodes, h.parts]⟩

theorem Reached.dirent {name : Bytes} (h : Reached E en ofs parts s) (hmod : ofs % 4 = 0)
    (hfits : DirentFits E ofs name) (type : UInt8) (parent : ℕ) :
    Reached E en (afterDirent E ofs name) parts
      (pad E 4 ((s.ready en).putDirent en name type parent)) := by
  obtain ⟨hname, hends⟩ := hfits
  have hle := hends.le
  have hready := h.ready
  obtain ⟨de, hde, hbuf, hnodes⟩ := @putDirent_eq en (s.ready en) name type parent
  have hlen : ((Kind.dirent de).bytes en).length = 40 + name.length := by
    rw [Kind.bytes, RawDirent.length_bytes, hde]
  refine Reached.pad_four ⟨?_, ?_, ?_⟩ (by omega) hends
  · refine hready.kept.emit (by rw [hready.ofs]; exact start_mod hmod) ?_ hnodes rfl ?_ ?_ ?_
    · rw [hready.ofs, hlen]
      omega
    · rw [hlen, Writer.putDirent, Nat.mod_eq_of_lt hname, Nat.add_assoc]
    · exact fun a ha => by rw [hbuf, put_buf_of_lt _ _ ha]
    · rw [hbuf]
      exact held_put _ _
  · rw [Writer.putDirent, hready.ofs, Nat.mod_eq_of_lt hname]
  · rw [hnodes, fileParts_append, hready.parts]
    exact List.append_nil _

theorem Reached.addDirent {name : Bytes} (h : Reached E en ofs parts s) (hlt : ofs < E)
    (hmod : ofs % 4 = 0) (hfits : DirentFits E ofs name) (hn : 2 ≤ n) (type : UInt8) (parent : ℕ) :
    ∃ inode s', addDirent E en n name type parent s = some (inode, s') ∧
      Reached E en (afterDirent E ofs name) parts s' := by
  have hle := hfits.2.le
  have hofs := h.ofs
  have hroom : 0 < s.ofs ∨ 12 ≤ E := by
    unfold start at hle
    split_ifs at hle <;> omega
  refine ⟨(s.ready en).lastIno + 1, _, ?_, h.dirent hmod hfits type parent⟩
  rw [addDirent_eq (by omega), prepEraseblock_eq hn hroom, Option.bind_some]

theorem rbytes_of_lt (h : s.ofs < E) : rbytes E s = E - s.ofs := by rw [rbytes, Nat.mod_eq_of_lt h]

/-- Before the inode of a directory the block is written if there is no room for one. -/
theorem Reached.beforeInode (h : Reached E en ofs parts s) (hlt : ofs < E) :
    Reached E en (inodeStart E ofs) parts
      ((if rbytes E s < 68 then pad E E s else s).ready en) := by
  rw [rbytes_of_lt (by rw [h.ofs]; exact hlt), h.ofs, inodeStart]
  split_ifs
  · exact (h.pad_full hlt).ready
  · exact h.ready

/-- An inode is noted at the offset, and is what is copied there with its data. -/
theorem note_inode {kind : Kind} {dat : Bytes} (hkind : kind.bytes en = p ++ dat)
    (hlen : p.length = 68) :
    (((s.put p).note 68 kind).put dat).ofs = s.ofs + (kind.bytes en).length ∧
      (((s.put p).note 68 kind).put dat).nodes =
        s.nodes ++ [⟨s.blocks.length, s.ofs, kind⟩] ∧
      (∀ a < s.ofs, (((s.put p).note 68 kind).put dat).buf a = s.buf a) ∧
      Held (((s.put p).note 68 kind).put dat).buf s.ofs (kind.bytes en) := by
  rw [hkind, List.length_append, hlen]
  refine ⟨?_, ?_, fun a ha => ?_, fun i hi => ?_⟩
  · rw [put_ofs, note_ofs, put_ofs, hlen, Nat.add_assoc]
  · rw [put_nodes, Writer.note, put_blocks, put_nodes, put_ofs, hlen, Nat.add_sub_cancel]
  · rw [put_buf_of_lt _ _ (by rw [note_ofs, put_ofs]; omega)]
    exact put_buf_of_lt _ _ ha
  · rw [List.length_append, hlen] at hi
    rw [List.getD_eq_getElem?_getD, List.getElem?_append]
    split_ifs with hlt
    · rw [put_buf_of_lt _ _ (by rw [note_ofs, put_ofs]; omega), ← List.getD_eq_getElem?_getD]
      exact held_put s _ i hlt
    · rw [hlen] at hlt ⊢
      have hheld := held_put ((s.put p).note 68 kind) dat (i - 68) (by omega)
      rw [note_ofs, put_ofs, hlen, show s.ofs + 68 + (i - 68) = s.ofs + i by omega] at hheld
      rw [hheld, List.getD_eq_getElem?_getD]

theorem Reached.inode {kind : Kind} {dat : Bytes} (h : Reached E en ofs parts s)
    (hmod : ofs % 4 = 0) (hkind : kind.bytes en = p ++ dat) (hlen : p.length = 68)
    (hend : ofs + 68 + dat.length ≤ E) :
    Reached E en (ofs + 68 + dat.length) (parts ++ fileParts [⟨s.blocks.length, s.ofs, kind⟩])
      (((s.put p).note 68 kind).put dat) := by
  obtain ⟨hofs, hnodes, hbuf, hheld⟩ := note_inode (s := s) hkind hlen
  have hbytes : (kind.bytes en).length = 68 + dat.length := by rw [hkind, List.length_append, hlen]
  have hs := h.ofs
  refine ⟨?_, by rw [hofs, hs, hbytes, Nat.add_assoc], by rw [hnodes, fileParts_append, h.parts]⟩
  exact h.kept.emit (by rw [hs]; exact hmod) (by omega) hnodes rfl hofs hbuf hheld

/-- The writer after the inode of a directory that fits. -/
theorem Reached.behindInode (h : Reached E en ofs parts s) (hlt : ofs < E) (hmod : ofs % 4 = 0)
    (hfits : InodeFits E ofs) (inode : ℕ) :
    Reached E en (settle E (inodeStart E ofs + 68)) parts
      (pad E 4 (Writer.note 68 (.dir (dirInode inode))
        (((if rbytes E s < 68 then pad E E s else s).ready en).put
          ((dirInode inode).header en [])))) := by
  have hput := (h.beforeInode hlt).inode (inodeStart_mod hmod)
    (Kind.bytes_dir (dirInode inode)) (RawInode.length_header en _ []) hfits.le
  rw [List.length_nil, Nat.add_zero, put_nil] at hput
  have hpad := hput.pad_four (by omega) hfits
  rwa [show fileParts _ = [] from rfl, List.append_nil] at hpad

theorem Reached.putDir (h : Reached E en ofs parts s) (hlt : ofs < E) (hmod : ofs % 4 = 0)
    (hfits : InodeFits E ofs) (hn : 2 ≤ n) (inode : ℕ) :
    ∃ s', putDir E en n inode s = some s' ∧
      Reached E en (settle E (inodeStart E ofs + 68)) parts s' := by
  have hofs := (h.beforeInode hlt).ofs
  have hend := hfits.le
  have hroom : 0 < (if rbytes E s < 68 then pad E E s else s).ofs ∨ 12 ≤ E := by omega
  have hlen := (dirInode inode).length_header en []
  have hrun : JffsWrite.putDir E en n inode s =
      (prepEraseblock E en n (if rbytes E s < 68 then pad E E s else s)).bind fun t =>
        (addData E en n ((dirInode inode).header en []) t).bind fun t =>
          some (pad E 4 (t.note 68 (.dir (dirInode inode)))) := rfl
  refine ⟨_, ?_, h.behindInode hlt hmod hfits inode⟩
  rw [hrun, prepEraseblock_eq hn hroom, Option.bind_some,
    addData_of_le (by omega) (by rw [hofs, hlen]; exact hend), Option.bind_some]

theorem Reached.addDir {name : Bytes} (h : Reached E en ofs parts s) (hlt : ofs < E)
    (hmod : ofs % 4 = 0) (hdirent : DirentFits E ofs name)
    (hinode : InodeFits E (afterDirent E ofs name)) (hn : 2 ≤ n) (parent : ℕ) :
    ∃ r : ℕ × Writer, addDir E en n name parent s = some r ∧
      Reached E en (settle E (inodeStart E (afterDirent E ofs name) + 68)) parts r.2 := by
  obtain ⟨inode, t, hrun, ht⟩ := h.addDirent hlt hmod hdirent hn 4 parent
  obtain ⟨t', hrun', ht'⟩ := ht.putDir (settle_lt (by omega) _) (settle_mod _) hinode hn inode
  refine ⟨(inode, t'), ?_, ht'⟩
  rw [JffsWrite.addDir, hrun, Option.bind_some, hrun', Option.map_some]

/-- The room for the next inode and its data. -/
theorem chunk_room (h : ofs + 196 < E ∨ 208 < E) : chunkStart E ofs + 196 < E := by
  unfold chunkStart
  split_ifs <;> omega

theorem chunkStart_mod (h : ofs % 4 = 0) : chunkStart E ofs % 4 = 0 := by
  unfold chunkStart
  split_ifs
  · exact h
  · rfl

/-- Where the block has no room, the next one has, if any has. -/
theorem Reached.findRoom (h : Reached E en ofs parts s) (hlt : ofs < E)
    (hroom : ofs + 196 < E ∨ 208 < E) (hn : 4 ≤ n) :
    ∃ s', findRoom E en n s = some (E - chunkStart E ofs - 68, s') ∧
      Reached E en (chunkStart E ofs) parts s' := by
  obtain ⟨n, rfl⟩ := Nat.exists_eq_succ_of_ne_zero (by omega : n ≠ 0)
  have hofs := h.ofs
  rw [JffsWrite.findRoom, rbytes_of_lt (by omega), hofs, chunkStart]
  by_cases hhere : ofs + 196 < E
  · rw [if_pos (by omega), if_pos hhere]
    exact ⟨s, rfl, h⟩
  · have hpad := h.pad_full hlt
    have hready := hpad.ready
    obtain ⟨n, rfl⟩ := Nat.exists_eq_succ_of_ne_zero (by omega : n ≠ 0)
    rw [if_neg (by omega), if_neg hhere, prepEraseblock_eq (by omega) (by omega), Option.bind_some,
      JffsWrite.findRoom, rbytes_of_lt (by rw [hready.ofs, start, if_pos rfl]; omega), hready.ofs,
      start, if_pos rfl, if_pos (by omega)]
    exact ⟨_, rfl, hready⟩

theorem putChunk_eq {dat : Bytes} (ri : RawInode) (fOffset : ℕ) :
    putChunk E en n ri fOffset dat s =
      (addData E en n
        (RawInode.header en { ri with version := s.lastVersion + 1, offset := fOffset } dat)
        { s with lastVersion := s.lastVersion + 1 }).bind fun t =>
          addData E en n dat
            (t.note 68 (.file { ri with version := s.lastVersion + 1, offset := fOffset } dat)) :=
  rfl

theorem Reached.putChunk (dat : Bytes) (h : Reached E en ofs parts s) (hmod : ofs % 4 = 0)
    (hend : ofs + 68 + dat.length ≤ E) (hn : 0 < n) (ri : RawInode) (fOffset : ℕ) :
    ∃ s', putChunk E en n ri fOffset dat s = some s' ∧
      Reached E en (ofs + 68 + dat.length) (parts ++ [(fOffset % 4294967296, dat)]) s' := by
  have hofs := h.ofs
  have hnext : Reached E en ofs parts { s with lastVersion := s.lastVersion + 1 } :=
    ⟨h.kept.mono rfl rfl le_rfl fun _ _ => rfl, h.ofs, h.parts⟩
  obtain ⟨ri', hri'⟩ : ∃ ri' : RawInode,
      ri' = { ri with version := s.lastVersion + 1, offset := fOffset } := ⟨_, rfl⟩
  have hlen := ri'.length_header en dat
  have hput := hnext.inode hmod (Kind.bytes_file ri' dat) hlen hend
  have hparts : fileParts [⟨s.blocks.length, s.ofs, .file ri' dat⟩] =
      [(fOffset % 4294967296, dat)] := by
    rw [hri']
    rfl
  rw [hparts] at hput
  refine ⟨_, ?_, hput⟩
  rw [putChunk_eq, ← hri', addData_of_le hn (by rw [hlen, hnext.ofs]; omega), Option.bind_some,
    addData_of_le hn (by rw [note_ofs, put_ofs, hlen, hnext.ofs]; exact hend)]

theorem take_chunk (m : ℕ) (content : Bytes) :
    content.take (min (m + 1) (min (E - chunkStart E ofs - 68) 4096)) =
      content.take (chunkLen E ofs m content) ∧
    (content.take (chunkLen E ofs m content)).length = chunkLen E ofs m content := by
  constructor
  · rw [chunkLen, List.take_eq_take_min]
  · rw [List.length_take, chunkLen]
    omega

variable (E en n) in
/-- A turn of the loop of `add_file`, with the room that was found for the inode and its data. -/
def fileTurn (reads : ℕ → Option ℕ) (ri : RawInode) (k fOffset : ℕ) (content : Bytes) (room : ℕ)
    (s : Writer) : Option Writer :=
  (reads k).elim (some s) fun m =>
    let dat := content.take (min (m + 1) (min room 4096))
    if dat = [] then some s
    else
      (putChunk E en n ri fOffset dat s).bind fun t =>
        (prepEraseblock E en n (pad E 4 t)).bind fun t =>
          fileLoop E en reads ri n (k + 1) (fOffset + dat.length) (content.drop dat.length) t

theorem fileLoop_succ {reads : ℕ → Option ℕ} {ri : RawInode} {k fOffset : ℕ} {content : Bytes} :
    fileLoop E en reads ri (n + 1) k fOffset content s =
      (findRoom E en n s).bind fun r => fileTurn E en n reads ri k fOffset content r.1 r.2 := by
  rw [fileLoop]
  cases findRoom E en n s with
  | none => rfl
  | some r =>
    rw [Option.bind_some, fileTurn]
    cases reads k <;> rfl

/-- The inodes of a file that fit are put, and carry its data. -/
theorem Reached.fileLoop {reads : ℕ → Option ℕ} {k fOffset : ℕ} {content : Bytes}
    (h : Reached E en ofs parts s) (hlt : ofs < E) (hmod : ofs % 4 = 0)
    (hfits : LoopFits E reads k fOffset ofs content) (hn : content.length + 5 ≤ n) (ri : RawInode) :
    ∃ s' ofs' parts', fileLoop E en reads ri n k fOffset content s = some s' ∧ ofs' < E ∧
      Reached E en ofs' (parts ++ parts') s' ∧ Carries fOffset parts' content := by
  induction hfits generalizing s parts n with
  | @done k fOffset ofs room =>
    obtain ⟨n, rfl⟩ := Nat.exists_eq_succ_of_ne_zero (by omega : n ≠ 0)
    obtain ⟨t, hrun, ht⟩ := h.findRoom hlt room (by omega : 4 ≤ n)
    have hlt' := chunk_room room
    refine ⟨t, chunkStart E ofs, [], ?_, by omega, by rwa [List.append_nil], rfl⟩
    rw [fileLoop_succ, hrun, Option.bind_some, fileTurn]
    cases reads k with
    | none => rfl
    | some m => exact if_pos (List.take_nil ..)
  | @more k fOffset ofs m content room data field read ends rest ih =>
    obtain ⟨n, rfl⟩ := Nat.exists_eq_succ_of_ne_zero (by omega : n ≠ 0)
    obtain ⟨t, hrun, ht⟩ := h.findRoom hlt room (by omega : 4 ≤ n)
    have hlt' := chunk_room room
    obtain ⟨htake, hlen⟩ := @take_chunk E ofs m content
    have hpos : 0 < content.length := List.length_pos_iff.mpr data
    have hone : 0 < chunkLen E ofs m content := by
      unfold chunkLen
      omega
    have hne : content.take (chunkLen E ofs m content) ≠ [] := List.length_pos_iff.mp (by omega)
    obtain ⟨u, hput, hu⟩ := ht.putChunk (content.take (chunkLen E ofs m content))
      (chunkStart_mod hmod) (by rw [hlen]; exact ends.le) (by omega : 0 < n) ri fOffset
    rw [hlen] at hu
    have hready := (hu.pad_four (by omega) ends).ready
    obtain ⟨s', ofs', parts', hloop, hofs', hs', hcarries⟩ := ih hready
      (start_lt (settle_lt (by omega) _) (by omega)) (start_mod (settle_mod _))
      (by rw [List.length_drop]; omega : _ ≤ n)
    refine ⟨s', ofs', (fOffset % 4294967296, content.take (chunkLen E ofs m content)) :: parts', ?_,
      hofs', ?_, Nat.mod_eq_of_lt field, hne, _, (List.take_append_drop _ _).symm, ?_⟩
    · rw [fileLoop_succ, hrun, Option.bind_some, fileTurn, read, Option.elim_some, htake]
      dsimp only
      rw [if_neg hne, hput, Option.bind_some, prepEraseblock_eq (by omega) (.inr (by omega)),
        Option.bind_some, hlen]
      exact hloop
    · rwa [List.append_assoc] at hs'
    · rw [hlen]
      exact hcarries

/-- The last block and the block with the end marker are written. -/
theorem Reached.finish (h : Reached E en ofs parts s) (hlt : ofs < E) (hE : 4 ≤ E) (hn : 0 < n) :
    ∃ s', finish E en n s = some s' ∧ Reached E en 0 parts s' := by
  have hpad := h.pad_full hlt
  have hput : Reached E en 4 parts ((pad E E s).put jffs2Eof) :=
    ⟨hpad.kept.put _, by rw [put_ofs, hpad.ofs]; rfl, by rw [put_nodes, hpad.parts]⟩
  refine ⟨pad E E ((pad E E s).put jffs2Eof), ?_, ?_⟩
  · rw [JffsWrite.finish, addData_of_le hn (by rw [hpad.ofs]; exact hE), Option.map_some]
  · rcases hE.eq_or_lt with heq | hlt'
    · rw [pad_of_eq (by rw [hput.ofs, heq])]
      exact ⟨hput.kept.flush, rfl, hput.parts⟩
    · exact hput.pad_full hlt'

/-- The file is put behind the directory that was reached. -/
theorem Reached.addFile {reads : ℕ → Option ℕ} {file : File} (h : Reached E en ofs [] s)
    (hlt : ofs < E) (hmod : ofs % 4 = 0) (hdirent : DirentFits E ofs file.name)
    (hloop : LoopFits E reads 0 0 (afterDirent E ofs file.name) file.content)
    (hn : file.content.length + 5 ≤ n) (parent : ℕ) :
    ∃ s', (addFile E en n file reads parent s).bind (JffsWrite.finish E en n) = some s' ∧
      LaidOut E en file.content s' := by
  obtain ⟨inode, t, hrun, ht⟩ := h.addDirent hlt hmod hdirent (by omega : 2 ≤ n) 8 parent
  obtain ⟨u, ofs', parts, hrun', hofs', hu, hcarries⟩ := ht.fileLoop (settle_lt (by omega) _)
    (settle_mod _) hloop hn (fileInode file.stat inode)
  have hE := hdirent.2.le
  obtain ⟨s', hrun'', hs'⟩ := hu.finish hofs' (by omega) (by omega : 0 < n)
  refine ⟨s', ?_, hs'.kept.inside, hs'.kept.stored hs'.ofs, hs'.kept.apart, ?_⟩
  · rw [JffsWrite.addFile, hrun, Option.bind_some, hrun', Option.bind_some, hrun'']
  · rw [hs'.parts, List.nil_append]
    exact hcarries

theorem Reached.of_empty (hofs : s.ofs = 0) (hnodes : s.nodes = []) : Reached E en 0 [] s := by
  refine ⟨⟨?_, ?_, ?_⟩, hofs, by rw [hnodes]; rfl⟩
  all_goals simp [hnodes]

end Steps

theorem exists_laidOut {s : Writer} {dir : Option Bytes} {targetIno : ℕ} {file : File}
    {reads : ℕ → Option ℕ} (hE : 0 < E) (hofs : s.ofs = 0) (hnodes : s.nodes = [])
    (hfits : Fits E dir file.name file.content reads) :
    ∃ n t, writeFile E en n dir targetIno file reads s = some t ∧ LaidOut E en file.content t := by
  have hs : Reached E en 0 [] s := Reached.of_empty hofs hnodes
  refine ⟨file.content.length + 5, ?_⟩
  cases dir with
  | none => exact hs.addFile hE rfl hfits.1 hfits.2 le_rfl targetIno
  | some dir =>
    obtain ⟨⟨hdirent, hinode⟩, hname, hloop⟩ := hfits
    obtain ⟨r, hrun, hr⟩ := hs.addDir hE rfl hdirent hinode
      (by omega : 2 ≤ file.content.length + 5) 1
    obtain ⟨t, hrun', ht⟩ := hr.addFile (settle_lt hE _) (settle_mod _) hname hloop le_rfl r.1
    refine ⟨t, ?_, ht⟩
    rw [writeFile]
    show (addDir E en _ dir 1 s).bind _ = _
    rw [hrun]
    exact hrun'

end NeonWrt.Mtd.JffsWrite
