import NeonWrt.Mtd.JffsWalk

/-!
# Writing a file to a JFFS2 partition

`mtd jffs2write` puts a file behind the nodes of a JFFS2 partition, and `mtd -j` into an image:
a dirent, for a new directory one more with an inode, and inodes that carry the data of the
file. The nodes are put together in a buffer of one erase block, which is written when it is
full. Where a node is put is decided before, from the room that is left.

The buffer is memory from its start on: what is copied behind its end is there as well, but is
not written. Every block that is handed to `write` is kept; bad blocks of the device are
skipped whole, which does not change what the blocks hold. The list `nodes` is not a part of
the driver: it notes which nodes were put where.
-/

namespace NeonWrt.Mtd.JffsWrite

open Lib

/-- `JFFS2_NODETYPE_INODE` -/
def nodetypeInode : ℕ := 0xe002

/-- `CLEANMARKER` -/
def cleanmarker : Endian → Bytes
  | .little => [0x85, 0x19, 0x03, 0x20, 0x0c, 0, 0, 0, 0xb1, 0xb0, 0x1e, 0xe4]
  | .big => [0x19, 0x85, 0x20, 0x03, 0, 0, 0, 0x0c, 0xf0, 0x60, 0xdc, 0x98]

/-- `JFFS2_EOF` -/
def jffs2Eof : Bytes := [0xde, 0xad, 0xc0, 0xde]

/-- The fields of a `struct jffs2_raw_dirent` that are not the same for all. -/
structure RawDirent where
  pino : ℕ
  version : ℕ
  ino : ℕ
  type : UInt8
  name : Bytes

/-- A dirent and its name. -/
def RawDirent.bytes (en : Endian) (de : RawDirent) : Bytes :=
  let head := en.u16 magicBitmask ++ en.u16 nodetypeDirent ++ en.u32 (40 + de.name.length)
  let node := head ++ en.u32 (crc32le 0 head) ++ en.u32 de.pino ++ en.u32 de.version ++
    en.u32 de.ino ++ en.u32 0 ++ [UInt8.ofNat de.name.length, de.type, 0, 0]
  node ++ en.u32 (crc32le 0 node) ++ en.u32 (crc32le 0 de.name) ++ de.name

/-- The fields of a `struct jffs2_raw_inode` that are not the same for all and not about its
data. -/
structure RawInode where
  ino : ℕ
  version : ℕ
  mode : ℕ
  isize : ℕ
  atime : ℕ
  mtime : ℕ
  ctime : ℕ
  offset : ℕ

/-- An inode without its data. -/
def RawInode.header (en : Endian) (ri : RawInode) (dat : Bytes) : Bytes :=
  let head := en.u16 magicBitmask ++ en.u16 nodetypeInode ++ en.u32 (68 + dat.length)
  let node := head ++ en.u32 (crc32le 0 head) ++ en.u32 ri.ino ++ en.u32 ri.version ++
    en.u32 ri.mode ++ en.u16 0 ++ en.u16 0 ++ en.u32 ri.isize ++ en.u32 ri.atime ++
    en.u32 ri.mtime ++ en.u32 ri.ctime ++ en.u32 ri.offset ++ en.u32 dat.length ++
    en.u32 dat.length ++ [0, 0] ++ en.u16 0
  node ++ en.u32 (crc32le 0 dat) ++ en.u32 (crc32le 0 node)

/-- What is put: a dirent, the inode of a directory, or an inode of the file with data. -/
inductive Kind where
  | dirent (de : RawDirent)
  | dir (ri : RawInode)
  | file (ri : RawInode) (dat : Bytes)

/-- The bytes of a node. -/
def Kind.bytes (en : Endian) : Kind → Bytes
  | .dirent de => de.bytes en
  | .dir ri => ri.header en []
  | .file ri dat => ri.header en dat ++ dat

/-- A node, with the block and the offset where it was put. -/
structure Node where
  block : ℕ
  ofs : ℕ
  kind : Kind

/-- The static variables `ofs`, `buf`, `last_ino` and `last_version`, the blocks that were
written and the nodes that were put. -/
structure Writer where
  ofs : ℕ
  buf : ℕ → UInt8
  blocks : List Bytes
  lastIno : ℕ
  lastVersion : ℕ
  nodes : List Node

namespace Writer

/-- Bytes are copied to the buffer. -/
def put (p : Bytes) (s : Writer) : Writer :=
  { s with
    buf := fun a => if s.ofs ≤ a ∧ a < s.ofs + p.length then p.getD (a - s.ofs) 0 else s.buf a
    ofs := s.ofs + p.length }

/-- The buffer is written, whatever it holds. -/
def flush (E : ℕ) (s : Writer) : Writer := { s with blocks := s.blocks ++ [(List.range E).map s.buf] }

/-- `ofs = ofs % erasesize`, and the buffer is written where that is zero. -/
def wrap (E : ℕ) (s : Writer) : Writer :=
  if s.ofs % E = 0 then { s with ofs := 0 }.flush E else { s with ofs := s.ofs % E }

/-- A node is noted that was put so many bytes back. -/
def note (len : ℕ) (kind : Kind) (s : Writer) : Writer :=
  { s with nodes := s.nodes ++ [⟨s.blocks.length, s.ofs - len, kind⟩] }

end Writer

section Buffer

variable (E : ℕ) (en : Endian)

/-- `pad` -/
def pad (size : ℕ) (s : Writer) : Writer :=
  if s.ofs % size = 0 ∧ s.ofs < E then s
  else (if s.ofs < E then s.put (List.replicate (size - s.ofs % size) 0xff) else s).wrap E

/-- `rbytes` -/
def rbytes (s : Writer) : ℕ := E - s.ofs % E

mutual

/-- `add_data`, with the calls that may be nested. -/
def addData : ℕ → Bytes → Writer → Option Writer
  | 0, _, _ => none
  | n + 1, ptr, s =>
    if E < s.ofs + ptr.length then (prepEraseblock n (pad E E s)).map (Writer.put ptr)
    else some (s.put ptr)

/-- `prep_eraseblock` -/
def prepEraseblock : ℕ → Writer → Option Writer
  | 0, _ => none
  | n + 1, s => if 0 < s.ofs then some s else addData n (cleanmarker en) s

end

/-- The node of `add_dirent`, at the offset. -/
def Writer.putDirent (name : Bytes) (type : UInt8) (parent : ℕ) (s : Writer) : Writer :=
  let de : RawDirent :=
    { pino := parent, version := s.lastVersion, ino := s.lastIno + 1, type := type, name := name }
  let t := (s.put (de.bytes en)).note (40 + name.length) (.dirent de)
  { t with
    -- `nsize` is a byte
    ofs := s.ofs + 40 + name.length % 256
    lastIno := s.lastIno + 2
    lastVersion := s.lastVersion + 1 }

/-- `add_dirent`: the inode number, and the state. -/
def addDirent (n : ℕ) (name : Bytes) (type : UInt8) (parent : ℕ) (s : Writer) :
    Option (ℕ × Writer) := do
  -- `ofs - erasesize` is compared as a `size_t`: a negative difference is greater than any size
  let s := if E ≤ s.ofs ∧ s.ofs - E < 40 + name.length then pad E E s else s
  let s ← prepEraseblock E en n s
  some (s.lastIno + 1, pad E 4 (s.putDirent en name type parent))

/-- The inode that `add_dir` puts. -/
def dirInode (inode : ℕ) : RawInode where
  ino := inode
  version := 1
  mode := 0o40755
  isize := 0
  atime := 0
  mtime := 0
  ctime := 0
  offset := 0

/-- The part of `add_dir` behind the dirent. -/
def putDir (n inode : ℕ) (s : Writer) : Option Writer := do
  let s := if rbytes E s < 68 then pad E E s else s
  let s ← prepEraseblock E en n s
  let s ← addData E en n ((dirInode inode).header en []) s
  some (pad E 4 (s.note 68 (.dir (dirInode inode))))

/-- `add_dir` -/
def addDir (n : ℕ) (name : Bytes) (parent : ℕ) (s : Writer) : Option (ℕ × Writer) :=
  (addDirent E en n name 4 parent s).bind fun r => (putDir E en n r.1 r.2).map fun s => (r.1, s)

/-- The loop of `add_file` that goes on to the next block until there is room for an inode and more
than 128 bytes. -/
def findRoom : ℕ → Writer → Option (ℕ × Writer)
  | 0, _ => none
  | n + 1, s =>
    if 128 + 68 < rbytes E s then some (rbytes E s - 68, s)
    else (prepEraseblock E en n (pad E E s)).bind (findRoom n)

/-- The inode of `add_file` for data that was read, and the data. -/
def putChunk (n : ℕ) (ri : RawInode) (fOffset : ℕ) (dat : Bytes) (s : Writer) : Option Writer := do
  let ri := { ri with version := s.lastVersion + 1, offset := fOffset }
  let s ← addData E en n (ri.header en dat) { s with lastVersion := s.lastVersion + 1 }
  addData E en n dat (s.note 68 (.file ri dat))

/-- The loop of `add_file` over the data that is left. The `k`-th read delivers as many bytes as
`reads k` says and one, if they are asked for and there, or it fails. -/
def fileLoop (reads : ℕ → Option ℕ) (ri : RawInode) : ℕ → ℕ → ℕ → Bytes → Writer → Option Writer
  | 0, _, _, _, _ => none
  | n + 1, k, fOffset, content, s => do
    let (room, s) ← findRoom E en n s
    match reads k with
    | none => some s
    | some m =>
      let dat := content.take (min (m + 1) (min room 4096))
      if dat = [] then some s
      else
        let s ← putChunk E en n ri fOffset dat s
        let s ← prepEraseblock E en n (pad E 4 s)
        fileLoop reads ri n (k + 1) (fOffset + dat.length) (content.drop dat.length) s

/-- What `stat` says of a file. -/
structure Stat where
  mode : ℕ
  size : ℕ
  atime : ℕ
  mtime : ℕ
  ctime : ℕ

/-- A file that can be opened: the last part of its name, which is at most `NAME_MAX` bytes long, what
`stat` says, and its contents. -/
structure File where
  name : Bytes
  name_le : name.length ≤ 255
  stat : Stat
  content : Bytes

/-- The inode of `add_file`, up to what is set for each part of the data. -/
def fileInode (st : Stat) (inode : ℕ) : RawInode where
  ino := inode
  version := 0
  mode := st.mode
  isize := st.size
  atime := st.atime
  mtime := st.mtime
  ctime := st.ctime
  offset := 0

/-- `add_file` -/
def addFile (n : ℕ) (file : File) (reads : ℕ → Option ℕ) (parent : ℕ) (s : Writer) :
    Option Writer :=
  (addDirent E en n file.name 8 parent s).bind fun r =>
    fileLoop E en reads (fileInode file.stat r.1) n 0 0 file.content r.2

/-- The end of `mtd_replace_jffs2` and `mtd_write_jffs2`: the last block and the end marker. -/
def finish (n : ℕ) (s : Writer) : Option Writer :=
  (addData E en n jffs2Eof (pad E E s)).map (pad E E)

/-- What `mtd_replace_jffs2` and `mtd_write_jffs2` write: a directory if it is not there yet, and
the file in it. -/
def writeFile (n : ℕ) (dir : Option Bytes) (targetIno : ℕ) (file : File) (reads : ℕ → Option ℕ)
    (s : Writer) : Option Writer := do
  let r ← match dir with
    | some dir => addDir E en n dir 1 s
    | none => some (targetIno, s)
  let s ← addFile E en n file reads r.1 r.2
  finish E en n s

end Buffer

/-- The offset fields of the inodes of the file, with their data. -/
def fileParts (nodes : List Node) : List (ℕ × Bytes) :=
  nodes.filterMap fun n =>
    match n.kind with
    | .file ri dat => some (ri.offset % 4294967296, dat)
    | _ => none

/-- Parts that follow one another from an offset on and are the content together. -/
def Carries : ℕ → List (ℕ × Bytes) → Bytes → Prop
  | _, [], content => content = []
  | ofs, part :: parts, content =>
    part.1 = ofs ∧ part.2 ≠ [] ∧
      ∃ rest, content = part.2 ++ rest ∧ Carries (ofs + part.2.length) parts rest

/-- One node is behind another one. -/
def Node.Before (en : Endian) (m n : Node) : Prop :=
  m.block < n.block ∨ m.block = n.block ∧ m.ofs + (m.kind.bytes en).length ≤ n.ofs

/-- Each node lies in one block at an offset that is a multiple of four and is in the block as it
was written, no two nodes overlap, and the inodes of the file carry its content. -/
structure LaidOut (E : ℕ) (en : Endian) (content : Bytes) (s : Writer) : Prop where
  inside : ∀ n ∈ s.nodes, n.ofs % 4 = 0 ∧ n.ofs + (n.kind.bytes en).length ≤ E
  stored : ∀ n ∈ s.nodes, ∃ block, s.blocks[n.block]? = some block ∧
    HasAt block n.ofs (n.kind.bytes en)
  apart : s.nodes.Pairwise (Node.Before en)
  carried : Carries 0 (fileParts s.nodes) content

end NeonWrt.Mtd.JffsWrite
