import NeonWrt.Lib.Binary
import NeonWrt.Lib.Number

/-!
# The variables of an nvram partition

`nvram.c` maps a partition, finds the header by its magic number, and reads the
`name=value` strings after it into a hash table of 257 chains. Variables are set
and unset in the table alone. A commit writes the header and all the strings
anew, and reads them back.

The words of the header are little-endian, and `unsigned long` has 32 bits. A
read outside the partition is no step of the model: an open that would make one
has no result. Writes outside the partition are recorded.
-/

namespace NeonWrt.Nvram

open Lib

/-- `NVRAM_MIN_SPACE` -/
def nvramMinSpace : ℕ := 0x8000

/-- `NVRAM_MAGIC` -/
def nvramMagic : ℕ := 0x48534C46

/-- `NVRAM_VERSION` -/
def nvramVersion : ℕ := 1

/-- `SDRAM_INIT` -/
def sdramInit : ℕ := 0x419

/-- `SDRAM_CONFIG` -/
def sdramConfig : ℕ := 0

/-- `SDRAM_REFRESH` -/
def sdramRefresh : ℕ := 0x8040

/-- `sizeof(nvram_header_t)` -/
def headerSize : ℕ := 20

/-- `NVRAM_ROUNDUP(x, 4)` -/
def roundUp (x : ℕ) : ℕ := (x + 3) / 4 * 4

/-- `crc8_table` -/
def crc8Table : List UInt8 :=
  [0x00, 0xF7, 0xB9, 0x4E, 0x25, 0xD2, 0x9C, 0x6B, 0x4A, 0xBD, 0xF3, 0x04, 0x6F, 0x98, 0xD6, 0x21,
    0x94, 0x63, 0x2D, 0xDA, 0xB1, 0x46, 0x08, 0xFF, 0xDE, 0x29, 0x67, 0x90, 0xFB, 0x0C, 0x42, 0xB5,
    0x7F, 0x88, 0xC6, 0x31, 0x5A, 0xAD, 0xE3, 0x14, 0x35, 0xC2, 0x8C, 0x7B, 0x10, 0xE7, 0xA9, 0x5E,
    0xEB, 0x1C, 0x52, 0xA5, 0xCE, 0x39, 0x77, 0x80, 0xA1, 0x56, 0x18, 0xEF, 0x84, 0x73, 0x3D, 0xCA,
    0xFE, 0x09, 0x47, 0xB0, 0xDB, 0x2C, 0x62, 0x95, 0xB4, 0x43, 0x0D, 0xFA, 0x91, 0x66, 0x28, 0xDF,
    0x6A, 0x9D, 0xD3, 0x24, 0x4F, 0xB8, 0xF6, 0x01, 0x20, 0xD7, 0x99, 0x6E, 0x05, 0xF2, 0xBC, 0x4B,
    0x81, 0x76, 0x38, 0xCF, 0xA4, 0x53, 0x1D, 0xEA, 0xCB, 0x3C, 0x72, 0x85, 0xEE, 0x19, 0x57, 0xA0,
    0x15, 0xE2, 0xAC, 0x5B, 0x30, 0xC7, 0x89, 0x7E, 0x5F, 0xA8, 0xE6, 0x11, 0x7A, 0x8D, 0xC3, 0x34,
    0xAB, 0x5C, 0x12, 0xE5, 0x8E, 0x79, 0x37, 0xC0, 0xE1, 0x16, 0x58, 0xAF, 0xC4, 0x33, 0x7D, 0x8A,
    0x3F, 0xC8, 0x86, 0x71, 0x1A, 0xED, 0xA3, 0x54, 0x75, 0x82, 0xCC, 0x3B, 0x50, 0xA7, 0xE9, 0x1E,
    0xD4, 0x23, 0x6D, 0x9A, 0xF1, 0x06, 0x48, 0xBF, 0x9E, 0x69, 0x27, 0xD0, 0xBB, 0x4C, 0x02, 0xF5,
    0x40, 0xB7, 0xF9, 0x0E, 0x65, 0x92, 0xDC, 0x2B, 0x0A, 0xFD, 0xB3, 0x44, 0x2F, 0xD8, 0x96, 0x61,
    0x55, 0xA2, 0xEC, 0x1B, 0x70, 0x87, 0xC9, 0x3E, 0x1F, 0xE8, 0xA6, 0x51, 0x3A, 0xCD, 0x83, 0x74,
    0xC1, 0x36, 0x78, 0x8F, 0xE4, 0x13, 0x5D, 0xAA, 0x8B, 0x7C, 0x32, 0xC5, 0xAE, 0x59, 0x17, 0xE0,
    0x2A, 0xDD, 0x93, 0x64, 0x0F, 0xF8, 0xB6, 0x41, 0x60, 0x97, 0xD9, 0x2E, 0x45, 0xB2, 0xFC, 0x0B,
    0xBE, 0x49, 0x07, 0xF0, 0x9B, 0x6C, 0x22, 0xD5, 0xF4, 0x03, 0x4D, 0xBA, 0xD1, 0x26, 0x68, 0x9F]

/-- `hndcrc8` -/
def hndcrc8 (data : Bytes) (crc : UInt8) : UInt8 :=
  data.foldl (fun crc c => crc8Table.getD (crc ^^^ c).toNat 0) crc

/-- A variable. -/
structure Tuple where
  name : CStr
  value : CStr
  deriving DecidableEq

/-- An open partition: the address of the mapping, its contents, the offset of the
header, the chains of the hash table, and whether the mapping is shared with the
partition. -/
structure Handle where
  addr : ℕ
  mmap : Bytes
  offset : ℕ
  nvramHash : ℕ → List Tuple
  shared : Bool

/-- The bytes from the header on, `h->length - h->offset`. -/
def Handle.space (h : Handle) : ℕ := h.mmap.length - h.offset

/-- A `char`, which is signed, as a summand of a `uint32_t`. -/
def charValue (c : UInt8) : ℕ := if c < 128 then c.toNat else c.toNat + 4294967040

/-- `hash` -/
def hash (s : Bytes) : ℕ := s.foldl (fun hash c => (31 * hash + charValue c) % 4294967296) 0

/-- The chain of a name. -/
def chainOf (name : CStr) : ℕ := hash name.bytes % 257

/-- `nvram_get` -/
def nvramGet (h : Handle) (name : CStr) : Option CStr :=
  ((h.nvramHash (chainOf name)).find? (·.name = name)).map (·.value)

/-- The table with another chain. -/
def Handle.setChain (h : Handle) (i : ℕ) (chain : List Tuple) : Handle :=
  { h with nvramHash := fun j => if j = i then chain else h.nvramHash j }

/-- The first variable of that name gets another value. -/
def assign (name value : CStr) : List Tuple → List Tuple
  | [] => []
  | t :: ts => if t.name = name then ⟨t.name, value⟩ :: ts else t :: assign name value ts

/-- `nvram_set`: a value that is there is replaced in its place, and a new variable
goes to the front of its chain. -/
def nvramSet (h : Handle) (name value : CStr) : Handle × ℤ :=
  let chain := h.nvramHash (chainOf name)
  if h.space < value.bytes.length + 1 then (h, -12)
  else if (chain.find? (·.name = name)).isSome then
    (h.setChain (chainOf name) (assign name value chain), 0)
  else (h.setChain (chainOf name) (⟨name, value⟩ :: chain), 0)

/-- `nvram_unset` -/
def nvramUnset (h : Handle) (name : CStr) : Handle :=
  h.setChain (chainOf name) ((h.nvramHash (chainOf name)).eraseP (·.name = name))

mutual

/-- The loop of `_nvram_rehash` over the text, in a name of which some characters
have been read. The name that `strchr` finds no `=` in ends the loop, and so does
an empty one. -/
def readName (name : Bytes) : Bytes → Option (List Tuple)
  | [] => none
  | c :: text =>
    if c = 0 then some []
    else if c = 61 then readValue name [] text
    else readName (name ++ [c]) text

/-- The same loop in a value. -/
def readValue (name value : Bytes) : Bytes → Option (List Tuple)
  | [] => none
  | c :: text =>
    if c = 0 then (readName [] text).map (⟨CStr.ofBytes name, CStr.ofBytes value⟩ :: ·)
    else readValue name (value ++ [c]) text

end

/-- `%04X` and `%08X`. -/
def hexPad : ℕ → ℕ → Bytes
  | 0, _ => []
  | k + 1, n => hexPad k (n / 16) ++ [hexDigit 55 (n % 16)]

/-- The special SDRAM parameters, with the texts that the words of a header give them. -/
def sdramParams (crcVerInit configRefresh configNcdl : ℕ) : List Tuple :=
  [⟨CStr.lit "sdram_init", CStr.ofBytes (ascii "0x" ++ hexPad 4 (crcVerInit / 65536 % 65536))⟩,
    ⟨CStr.lit "sdram_config", CStr.ofBytes (ascii "0x" ++ hexPad 4 (configRefresh % 65536))⟩,
    ⟨CStr.lit "sdram_refresh", CStr.ofBytes (ascii "0x" ++ hexPad 4 (configRefresh / 65536 % 65536))⟩,
    ⟨CStr.lit "sdram_ncdl", CStr.ofBytes (ascii "0x" ++ hexPad 8 configNcdl)⟩]

/-- A parameter is set if it is not there. -/
def setMissing (h : Handle) (t : Tuple) : Handle :=
  if (nvramGet h t.name).isNone then (nvramSet h t.name t.value).1 else h

/-- `_nvram_rehash` -/
def rehash (h : Handle) : Option Handle :=
  (readName [] (h.mmap.drop (h.offset + headerSize))).map fun tuples =>
    let h := tuples.foldl (fun h t => (nvramSet h t.name t.value).1)
      { h with nvramHash := fun _ => [] }
    (sdramParams (getU32 h.mmap (h.offset + 8)) (getU32 h.mmap (h.offset + 12))
      (getU32 h.mmap (h.offset + 16))).foldl setMissing h

/-- The offset of the first magic number. The search ends `NVRAM_MIN_SPACE` before
the end of the partition; in a smaller one that bound wraps around. -/
def findMagic (part : Bytes) : Option ℕ :=
  ((List.range (part.length / 4)).find? fun i =>
    (part.length < nvramMinSpace || i ≤ (part.length - nvramMinSpace) / 4) &&
      getU32 part (4 * i) = nvramMagic).map (4 * ·)

/-- `nvram_open` of a partition that is mapped to an address. -/
def nvramOpen (addr : ℕ) (part : Bytes) (rdonly : Bool) : Option Handle :=
  match findMagic part with
  | none => none
  | some offset =>
    if getU32 part offset = nvramMagic ∧
        (rdonly = true ∨ getU32 part (offset + 4) < part.length - offset) then
      rehash ⟨addr, part, offset, fun _ => [], !rdonly⟩
    else none

/-- A mapping that is written to, and whether anything was written outside it. -/
structure Mem where
  bytes : Bytes
  outside : Bool
  deriving DecidableEq

/-- Bytes are written. -/
def Mem.write (m : Mem) (pos : ℕ) (data : Bytes) : Mem where
  bytes := overwrite m.bytes pos (data.take (m.bytes.length - pos))
  outside := m.outside || (data ≠ [] && m.bytes.length < pos + data.length)

/-- `strtoul(s, NULL, 0)` -/
def strtoulAny (s : CStr) : ℕ :=
  let t := s.bytes.dropWhile isspace
  let t := if t.head? = some 45 ∨ t.head? = some 43 then t.tail else t
  (strtoul 32 (if hexPrefix t then 16 else if t.head? = some 48 then 8 else 10) s.bytes).1

/-- The words `crc_ver_init` (before the CRC), `config_refresh` and `config_ncdl` of a
new header. -/
def headerWords (h : Handle) : ℕ × ℕ × ℕ :=
  match nvramGet h (CStr.lit "sdram_init"), nvramGet h (CStr.lit "sdram_config"),
    nvramGet h (CStr.lit "sdram_refresh"), nvramGet h (CStr.lit "sdram_ncdl") with
  | some init, some config, some refresh, some ncdl =>
    (nvramVersion * 256 + strtoulAny init % 65536 * 65536,
      strtoulAny config % 65536 + strtoulAny refresh % 65536 * 65536, strtoulAny ncdl)
  | _, _, _, _ => (nvramVersion * 256 + sdramInit * 65536, sdramConfig + sdramRefresh * 65536, 0)

/-- What `sprintf` writes for a variable, with the NUL. -/
def Tuple.text (t : Tuple) : Bytes := t.name.bytes ++ [61] ++ t.value.bytes ++ [0]

/-- The inner loop over a chain, which ends at the first variable without room. -/
def writeChain (stop : ℕ) : List Tuple → Mem × ℕ → Mem × ℕ
  | [], s => s
  | t :: ts, (m, ptr) =>
    if stop < ptr + t.name.bytes.length + 1 + t.value.bytes.length + 1 then (m, ptr)
    else writeChain stop ts (m.write ptr t.text, ptr + t.text.length)

/-- The zeros after the end of the text: `(int)ptr % 4` is negative for addresses in the
upper half. -/
def padding (addr : ℕ) : ℕ :=
  let rest := Int.tmod ((addr : ℤ).bmod 4294967296) 4
  if rest = 0 then 0 else (4 - rest).toNat

/-- The start of `nvram_commit`: the header, and a cleared data area. -/
def writeHeader (h : Handle) : Mem :=
  let (crcVerInit, configRefresh, configNcdl) := headerWords h
  let m : Mem := ⟨h.mmap, false⟩
  let m := m.write h.offset (u32le nvramMagic)
  let m := m.write (h.offset + 8) (u32le crcVerInit)
  let m := m.write (h.offset + 12) (u32le configRefresh)
  let m := m.write (h.offset + 16) (u32le configNcdl)
  m.write (h.offset + headerSize) (List.replicate (h.space - headerSize) 0xFF)

/-- The end of `nvram_commit`: the end of the text at `ptr`, the length and the CRC. -/
def writeEnd (h : Handle) (m : Mem) (ptr : ℕ) : Mem :=
  let (crcVerInit, configRefresh, configNcdl) := headerWords h
  -- a NUL ends the text, and zeros fill the word
  let m := m.write ptr [0]
  let m := m.write (ptr + 1) (List.replicate (padding (h.addr + ptr + 1)) 0)
  let len := roundUp (ptr + 2 - h.offset)
  let m := m.write (h.offset + 4) (u32le len)
  let tmp := u32le 0 ++ u32le 0 ++ u32le crcVerInit ++ u32le configRefresh ++ u32le configNcdl
  let crc := hndcrc8 ((m.bytes.drop (h.offset + headerSize)).take (len - headerSize))
    (hndcrc8 (tmp.drop 9) 0xff)
  m.write (h.offset + 8) (u32le (crcVerInit + crc.toNat))

/-- `nvram_commit` up to `_nvram_rehash`. -/
def regenerate (h : Handle) : Mem :=
  let (m, ptr) := (List.range 257).foldl
    (fun s i => writeChain (h.offset + h.space - 2) (h.nvramHash i) s)
    (writeHeader h, h.offset + headerSize)
  writeEnd h m ptr

/-- `nvram_commit`: the mapping, and the handle after a return of 0. -/
def nvramCommit (h : Handle) : Mem × Option Handle :=
  let m := regenerate h
  (m, rehash { h with mmap := m.bytes })

/-- The CRC of the header. -/
def Handle.crcStored (h : Handle) : ℕ := getU32 h.mmap (h.offset + 8) % 256

/-- The CRC over the header from its version on, and the data. -/
def Handle.crcCalculated (h : Handle) : UInt8 :=
  hndcrc8 ((h.mmap.drop (h.offset + 9)).take (getU32 h.mmap (h.offset + 4) - 9)) 0xff

end NeonWrt.Nvram
