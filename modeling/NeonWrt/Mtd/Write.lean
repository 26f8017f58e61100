import NeonWrt.Lib.CString
import Mathlib.Data.Nat.Count

/-!
# Writing images with mtd

The `mtd` tool reads an image into a buffer of one erase block, erases the next
good block of the device and writes the buffer there. When a block cannot be
erased it goes on with the next device of the list. `mtd dump` reads a device
back. What is done to the devices is kept as a list of events.
-/

namespace NeonWrt.Mtd

open Lib

/-- An MTD device: its blocks, those flagged bad (on NAND only), and the good ones that can no
longer be erased. -/
structure Device where
  eraseSize : ℕ
  blocks : ℕ
  nand : Bool
  bad : ℕ → Bool
  stuck : ℕ → Bool
  eraseSize_pos : 0 < eraseSize
  bad_lt : ∀ b, bad b = true → nand = true ∧ b < blocks

/-- What `mtd_write` does to a device of the list. -/
inductive Event where
  | erase (dev block : ℕ)
  | write (dev addr : ℕ) (dat : Bytes)
  deriving DecidableEq

/-- The contents of the devices. -/
abbrev Flash := ℕ → ℕ → UInt8

/-- The contents after an event; programming clears bits. -/
def Event.apply (size : ℕ → ℕ) (flash : Flash) : Event → Flash
  | .erase dev block => fun i a => if i = dev ∧ a / size dev = block then 0xff else flash i a
  | .write dev addr dat => fun i a =>
      if i = dev ∧ addr ≤ a ∧ a < addr + dat.length then flash i a &&& dat.getD (a - addr) 0xff
      else flash i a

/-- The contents after a list of events. -/
def applyAll (size : ℕ → ℕ) (flash : Flash) (events : List Event) : Flash :=
  events.foldl (fun flash e => e.apply size flash) flash

namespace Device

variable (d : Device)

/-- `mtdsize`. -/
def size : ℕ := d.blocks * d.eraseSize

/-- `mtd_block_is_bad`; the tool exits where the request fails, behind the end of the device. -/
def blockIsBad (offset : ℕ) : Option Bool :=
  if !d.nand then some false
  else if offset < d.size then some (d.bad (offset / d.eraseSize))
  else none

/-- `mtd_erase_block` succeeds. Requests for bad blocks and behind the end are refused. -/
def eraseBlock (offset : ℕ) : Bool :=
  offset < d.size && !d.bad (offset / d.eraseSize) && !d.stuck (offset / d.eraseSize)

end Device

/-- What a `read` of the image can do: deliver data, be interrupted, or fail. -/
inductive Read where
  | got (dat : Bytes)
  | again
  | failed

/-- The data of a list of reads. -/
def imageOf : List Read → Bytes
  | [] => []
  | .got dat :: reads => dat ++ imageOf reads
  | .again :: reads => imageOf reads
  | .failed :: reads => imageOf reads

/-- The loop that fills the buffer, with the room left in it. A failed read ends it as the end of
the image does. -/
def fill : ℕ → List Read → Bytes × List Read
  | _, [] => ([], [])
  | room, .again :: reads => if room = 0 then ([], .again :: reads) else fill room reads
  | room, .failed :: reads => if room = 0 then ([], .failed :: reads) else ([], reads)
  | room, .got dat :: reads =>
    if dat.length ≤ room then
      let r := fill (room - dat.length) reads
      (dat ++ r.1, r.2)
    else (dat.take room, .got (dat.drop room) :: reads)

/-- The variables `w`, `e` and `skip_bad_blocks`, and the position of the file. -/
structure Cursor where
  w : ℕ
  e : ℕ
  skip : ℕ
  pos : ℕ

/-- How the erase loop ends: ready to write, at a block that cannot be erased, or with `exit`. -/
inductive Erased where
  | ready (c : Cursor) (events : List Event)
  | refused (c : Cursor) (events : List Event)
  | exit

/-- The loop that erases ahead of the data. Each round moves on by a block, and behind the end of
the device the request fails, so there are no more rounds than blocks and one. -/
def eraseAhead (dev : ℕ) (d : Device) (partOffset buflen : ℕ) : ℕ → Cursor → List Event → Erased
  | 0, _, _ => .exit
  | n + 1, c, events =>
    if c.w + buflen + c.skip ≤ c.e then .ready c events
    else
      match d.blockIsBad c.e with
      | none => .exit
      | some true =>
        eraseAhead dev d partOffset buflen n
          { c with e := c.e + d.eraseSize, skip := c.skip + d.eraseSize, pos := c.pos + d.eraseSize }
          events
      | some false =>
        -- the block is looked up without the offset and erased with it
        if d.eraseBlock (c.e + partOffset) then
          eraseAhead dev d partOffset buflen n { c with e := c.e + d.eraseSize }
            (events ++ [.erase dev ((c.e + partOffset) / d.eraseSize)])
        else .refused c events

/-- The options of a call: `no_erase`, `part_offset`, and what lies in memory behind the buffer. -/
structure Call where
  noErase : Bool
  partOffset : ℕ
  heap : ℕ → UInt8

/-- Bytes of the buffer, which a bad offset reads beyond. -/
def Call.slice (call : Call) (buf : Bytes) (offset len : ℕ) : Bytes :=
  (List.range len).map fun i =>
    if offset + i < buf.length then buf.getD (offset + i) 0xff else call.heap (offset + i)

/-- The state of the loop: the device and those after it, the buffer and the reads to come,
`offset`, the cursor and what was done so far. -/
structure State where
  dev : ℕ
  d : Device
  next : List Device
  buf : Bytes
  reads : List Read
  offset : ℕ
  cur : Cursor
  events : List Event

/-- The `write` of the buffer, after which the buffer is empty. -/
def State.write (call : Call) (s : State) : Option State :=
  if s.cur.pos + s.buf.length ≤ s.d.size then
    some { s with
      buf := []
      offset := 0
      cur := { s.cur with w := s.cur.w + s.buf.length, pos := s.cur.pos + s.buf.length }
      events := s.events ++ [.write s.dev s.cur.pos (call.slice s.buf s.offset s.buf.length)] }
  else none

/-- The way to `resume` with the next device. What is erased but not written gets what it can of
the buffer; `skip_bad_blocks` stays. -/
def State.resume (call : Call) (s : State) : Option State :=
  match s.next with
  | [] => none
  | d :: next =>
    let gap := s.cur.e - s.cur.w
    let dat := call.slice s.buf s.offset (min gap (s.d.size - s.cur.pos))
    some { s with
      dev := s.dev + 1
      d := d
      next := next
      offset := if 0 < gap then gap else s.offset
      cur := ⟨0, 0, s.cur.skip, call.partOffset⟩
      events := if 0 < gap then s.events ++ [.write s.dev s.cur.pos dat] else s.events }

/-- The buffer is filled, and padded if there is anything in it. -/
def State.load (s : State) : State :=
  let r := fill (s.d.eraseSize - s.buf.length) s.reads
  let buf := s.buf ++ r.1
  { s with
    buf := if buf = [] then [] else buf ++ List.replicate (s.d.eraseSize - buf.length) 0xff
    reads := r.2 }

/-- The loop of `mtd_write`, without `-j`. Each round takes data of the image or a device. -/
def writeLoop (call : Call) : ℕ → State → Option (List Event)
  | 0, _ => none
  | n + 1, s =>
    let s := s.load
    if s.buf = [] then some s.events
    else if call.noErase then do
      let s ← s.write call
      writeLoop call n s
    else
      match eraseAhead s.dev s.d call.partOffset s.buf.length (s.d.blocks + 1) s.cur s.events with
      | .exit => none
      | .refused c events => do
        let s ← { s with cur := c, events := events }.resume call
        writeLoop call n s
      | .ready c events => do
        let s ← { s with cur := c, events := events }.write call
        writeLoop call n s

/-- `mtd_write` on a list of devices. The image check before has read the first bytes. -/
def mtdWrite (call : Call) (devices : List Device) (head : Bytes) (reads : List Read) :
    Option (List Event) :=
  match devices with
  | [] => none
  | d :: next =>
    writeLoop call (head.length + (imageOf reads).length + devices.length + 1)
      ⟨0, d, next, head, reads, 0, ⟨0, 0, 0, call.partOffset⟩, []⟩

/-- The loop of `mtd_dump`, with the number of rounds that the device has blocks for. -/
def dumpLoop (d : Device) (mem : ℕ → UInt8) : ℕ → ℕ → ℕ → ℕ → Bytes
  | 0, _, _, _ => []
  | n + 1, pos, offset, size =>
    let len := if d.eraseSize < size then d.eraseSize else size
    let rlen := min len (d.size - pos)
    let dat := (List.range rlen).map fun i => mem (pos + i)
    if rlen = 0 ∨ rlen ≠ len then []
    else
      match d.blockIsBad offset with
      | none => []
      | some true => dumpLoop d mem n (pos + rlen) (offset + rlen) size
      | some false => dat ++ dumpLoop d mem n (pos + rlen) (offset + rlen) (size - rlen)

/-- `mtd_dump` of a whole device from an offset. -/
def mtdDump (d : Device) (mem : ℕ → UInt8) (partOffset : ℕ) : Bytes :=
  dumpLoop d mem (d.blocks + 1) partOffset 0 d.size

end NeonWrt.Mtd
