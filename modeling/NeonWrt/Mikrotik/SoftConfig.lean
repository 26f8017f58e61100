import NeonWrt.Lib.Binary
import NeonWrt.Lib.Run

/-!
# The soft config driver

The driver keeps a copy of the `soft_config` partition in a buffer. Attributes in
sysfs write single tags to the buffer and clear its CRC field; a commit computes
the CRC, erases the partition and writes the buffer to it, or reads the partition
back. A CRC field of zero marks the buffer as dirty.

A read-write lock protects the buffer, but a commit takes it twice, for its first
look at the CRC and for its work, and marks the buffer as dirty after a failure
without it. A commit is therefore modelled by the steps between which others may
run; everything that is done under the lock at once is one step.
-/

namespace NeonWrt.Mikrotik

open Lib

/-- `-ENOENT`. -/
def eNoEnt : ℤ := -2

/-- `-EACCES`. -/
def eAcces : ℤ := -13

/-- `-EINVAL`. -/
def eInval : ℤ := -22

/-- `-ERANGE`. -/
def eRange : ℤ := -34

/-- `-EOPNOTSUPP`. -/
def eOpNotSupp : ℤ := -95

/-- `sysfs_streq`: equal up to a newline at the end. -/
def sysfsStreq (s t : Bytes) : Bool :=
  cstr s == cstr t || cstr s ++ [10] == cstr t || cstr s == cstr t ++ [10]

/-- `kstrtobool`. -/
def kstrtobool (s : Bytes) : Except ℤ Bool :=
  match cstr s with
  | c :: rest =>
    if c = 121 ∨ c = 89 ∨ c = 49 then .ok true
    else if c = 110 ∨ c = 78 ∨ c = 48 then .ok false
    else if c = 111 ∨ c = 79 then
      match rest with
      | c' :: _ =>
        if c' = 110 ∨ c' = 78 then .ok true
        else if c' = 102 ∨ c' = 70 then .ok false
        else .error eInval
      | [] => .error eInval
    else .error eInval
  | [] => .error eInval

/-- The value of decimal digits. -/
def decimal (digits : Bytes) : ℕ := digits.foldl (fun n c => 10 * n + (c.toNat - 48)) 0

/-- `kstrtou32` in base 10. -/
def kstrtou32 (s : Bytes) : Except ℤ ℕ :=
  let s := if (cstr s).head? = some 43 then (cstr s).tail else cstr s
  let digits := s.takeWhile isdigit
  let rest := s.dropWhile isdigit
  if digits = [] ∨ (rest ≠ [] ∧ rest ≠ [10]) then .error eInval
  else if 4294967296 ≤ decimal digits then .error eRange
  else .ok (decimal digits)

/-- `struct sc_u32tvs`. -/
structure ScU32tvs where
  val : ℕ
  str : Bytes

/-- `struct sc_boolts`. -/
structure ScBoolts where
  strfalse : Bytes
  strtrue : Bytes

/-- `sc_tag_store_u32tvs`: the value it writes. -/
def scTagStoreU32tvs (pldLen : ℕ) (buf : Bytes) (tvs : List ScU32tvs) (tvselmts : ℤ) : Except ℤ ℕ :=
  if tvselmts < 0 then .error tvselmts
  else if pldLen ≠ 4 then .error eInval
  else
    match (tvs.take tvselmts.toNat).find? fun tv => sysfsStreq buf tv.str with
    | some tv => .ok tv.val
    | none => .error eInval

/-- `sc_tag_store_boolts`: the value it writes. -/
def scTagStoreBoolts (pldLen : ℕ) (buf : Bytes) (bts : ScBoolts) : Except ℤ ℕ :=
  if pldLen ≠ 4 then .error eInval
  else if sysfsStreq buf bts.strfalse then .ok 0
  else if sysfsStreq buf bts.strtrue then .ok 1
  else .error eInval

/-- `sc_uartspeeds`. -/
def scUartspeeds : List ScU32tvs :=
  [⟨8, ascii "off"⟩, ⟨7, ascii "1200"⟩, ⟨6, ascii "2400"⟩, ⟨5, ascii "4800"⟩, ⟨4, ascii "9600"⟩,
    ⟨3, ascii "19200"⟩, ⟨2, ascii "38400"⟩, ⟨1, ascii "57600"⟩, ⟨0, ascii "115200"⟩]

/-- `sc_bootdevices`. -/
def scBootdevices : List ScU32tvs :=
  [⟨0, ascii "eth"⟩, ⟨1, ascii "flasheth"⟩, ⟨3, ascii "ethonce"⟩, ⟨5, ascii "flash"⟩,
    ⟨7, ascii "cfg"⟩, ⟨8, ascii "cfgonce"⟩]

/-- `sc_bootkey`. -/
def scBootkey : ScBoolts := ⟨ascii "any", ascii "del"⟩

/-- `sc_cpumode`. -/
def scCpumode : ScBoolts := ⟨ascii "powersave", ascii "regular"⟩

/-- `sc_bootproto`. -/
def scBootproto : ScBoolts := ⟨ascii "bootp", ascii "dhcp"⟩

/-- `sc_booter`. -/
def scBooter : ScBoolts := ⟨ascii "regular", ascii "backup"⟩

/-- `sc_silent_boot`. -/
def scSilentBoot : ScBoolts := ⟨ascii "off", ascii "on"⟩

/-- `sc_tag_store_bootdelays`: the value it writes. -/
def scTagStoreBootdelays (pldLen : ℕ) (buf : Bytes) : Except ℤ ℕ :=
  if pldLen ≠ 4 then .error eInval
  else
    match kstrtou32 buf with
    | .error e => .error e
    | .ok data => if data < 1 ∨ 9 < data then .error eInval else .ok data

/-- The systems that the CPU frequency index depends on; the first is one without
`CONFIG_ATH79`. -/
inductive Soc where
  | notAth79
  | ar7161
  | ar71xx
  | ar724x
  | ar9344
  | qca953x
  | qca9556
  | qca9558
  | ath79

/-- `sc_cpufreq_indexes_ath79_9x`. -/
def scCpufreqIndexesAth799x : List ScU32tvs :=
  [⟨0, ascii "a"⟩, ⟨8, ascii "b"⟩, ⟨16, ascii "c"⟩, ⟨24, ascii "d"⟩, ⟨32, ascii "e"⟩, ⟨40, ascii "f"⟩]

/-- `sc_cpufreq_indexes_ath79_7x`. -/
def scCpufreqIndexesAth797x : List ScU32tvs :=
  [⟨0, ascii "a"⟩, ⟨144, ascii "b"⟩, ⟨288, ascii "c"⟩, ⟨432, ascii "d"⟩, ⟨576, ascii "e"⟩,
    ⟨720, ascii "f"⟩, ⟨864, ascii "g"⟩, ⟨1008, ascii "h"⟩]

/-- `sc_tag_cpufreq_ath79_arraysize`. -/
def scTagCpufreqAth79Arraysize : Soc → ℤ
  | .ar7161 => 8
  | .ar724x => 4
  | .ar9344 => 6
  | .qca953x => 5
  | .qca9556 => 3
  | .qca9558 => 4
  | _ => eOpNotSupp

/-- `sc_tag_store_cpufreq_indexes`: the value it writes. -/
def scTagStoreCpufreqIndexes (soc : Soc) (pldLen : ℕ) (buf : Bytes) : Except ℤ ℕ :=
  let tvs := match soc with
    | .ar7161 | .ar71xx | .ar724x => scCpufreqIndexesAth797x
    | _ => scCpufreqIndexesAth799x
  scTagStoreU32tvs pldLen buf tvs (scTagCpufreqAth79Arraysize soc)

/-- `struct sc_attr`: the part that stores use. -/
structure ScAttr where
  tagId : ℕ
  name : Bytes
  tstore : Option (ℕ → Bytes → Except ℤ ℕ)

/-- `sc_attrs`. -/
def scAttrs (soc : Soc) : List ScAttr :=
  [⟨0x01, ascii "uart_speed", some fun len buf => scTagStoreU32tvs len buf scUartspeeds 9⟩,
    ⟨0x02, ascii "boot_delay", some scTagStoreBootdelays⟩,
    ⟨0x03, ascii "boot_device", some fun len buf => scTagStoreU32tvs len buf scBootdevices 6⟩,
    ⟨0x04, ascii "boot_key", some fun len buf => scTagStoreBoolts len buf scBootkey⟩,
    ⟨0x05, ascii "cpu_mode", some fun len buf => scTagStoreBoolts len buf scCpumode⟩,
    ⟨0x06, ascii "bios_version", none⟩,
    ⟨0x09, ascii "boot_proto", some fun len buf => scTagStoreBoolts len buf scBootproto⟩,
    ⟨0x0C, ascii "cpufreq_index", match soc with
      | .notAth79 => none
      | _ => some (scTagStoreCpufreqIndexes soc)⟩,
    ⟨0x0D, ascii "booter", some fun len buf => scTagStoreBoolts len buf scBooter⟩,
    ⟨0x0F, ascii "silent_boot", some fun len buf => scTagStoreBoolts len buf scSilentBoot⟩]

/-- The loop of `routerboot_tag_find` from an offset on. Offset and length are `u16`. -/
def tagFindLoop (e : Endian) (b : Bytes) (tagId : ℕ) : ℕ → ℕ → Option (ℕ × ℕ)
  | 0, _ => none
  | n + 1, datum =>
    let node := e.getU32 b datum
    let len := node / 65536
    if b.length ≤ datum then none
    else if node = 0 then none
    else if node % 65536 = tagId then
      if b.length ≤ datum + 4 then none else some ((datum + 4) % 65536, len)
    else tagFindLoop e b tagId n (datum + 4 + (len + 3) / 4 * 4 % 65536)

/-- `routerboot_tag_find`. -/
def routerbootTagFind (e : Endian) (b : Bytes) (tagId : ℕ) : Option (ℕ × ℕ) :=
  tagFindLoop e b tagId b.length 0

/-- `RB_SC_CRC32_OFFSET`. -/
def rbScCrc32Offset : ℕ := 4

/-- `RB_MAGIC_SOFT`. -/
def rbMagicSoft : ℕ := 0x74666f53

/-- A driver: the byte order of its CPU, the system, and the contents of the partition when the
driver was initialised, which hold at least the magic and the CRC. -/
structure Driver where
  endian : Endian
  soc : Soc
  image : Bytes
  room : rbScCrc32Offset + 4 ≤ image.length
  magic : endian.getU32 image 0 = rbMagicSoft

namespace Driver

variable (d : Driver)

/-- `RB_SC_GETCRC`. -/
def getCrc (b : Bytes) : ℕ := d.endian.getU32 b rbScCrc32Offset

/-- `RB_SC_SETCRC`. -/
def setCrc (crc : ℕ) (b : Bytes) : Bytes := overwrite b rbScCrc32Offset (d.endian.u32 crc)

/-- `RB_SC_CLRCRC`. -/
def clrCrc (b : Bytes) : Bytes := d.setCrc 0 b

/-- Where `rb_softconfig_init` finds the payload of a tag, as `u16`, and its length. -/
def payload (attr : ScAttr) : ℕ × ℕ :=
  match routerbootTagFind d.endian (d.image.drop 8) attr.tagId with
  | some (ofs, len) => ((ofs + 8) % 65536, len)
  | none => (0, 0)

/-- `sc_attr_store`, for a caller with `CAP_SYS_ADMIN` or without: the value that is written. -/
def scAttrStore (admin : Bool) (attr : ScAttr) (text : Bytes) : Except ℤ ℕ :=
  if !admin then .error eAcces
  else
    match attr.tstore with
    | none => .error eOpNotSupp
    | some tstore =>
      if (d.payload attr).2 = 0 then .error eNoEnt else tstore (d.payload attr).2 text

end Driver

/-- The CRC-32 in the style of the Ethernet FCS. -/
def fcs (b : Bytes) : ℕ := crc32le 0xffffffff b ^^^ 0xffffffff

/-- Where a thread is in `sc_commit_store`. -/
inductive Pc where
  /-- in no commit -/
  | idle
  /-- the CRC was zero; the write lock is not taken yet -/
  | checked (flush : Bool)
  /-- the write lock is taken, to read the partition back or to flush the buffer -/
  | rereading
  | flushing
  /-- the CRC is in the buffer; the partition is not erased yet, or is -/
  | sealed
  | erased
  /-- the write lock is still held, but the work is done -/
  | unlocking (ok : Bool)
  /-- the lock is released; the buffer is not marked as dirty yet -/
  | mtdfail
  deriving DecidableEq

/-- What the threads share, and where each of them is. `lock` is the holder of the write lock. -/
structure Sys where
  scBuf : Bytes
  flash : Bytes
  lock : Option ℕ
  pc : ℕ → Pc

/-- A thread moves on. -/
def Sys.goto (s : Sys) (t : ℕ) (pc : Pc) : Sys := { s with pc := Function.update s.pc t pc }

/-- What an operation of the device does: its return value, the number of bytes it is said to have
handled, and the contents that it leaves where it fails or falls short. -/
structure MtdResult where
  ret : ℤ
  bytesRw : ℕ
  left : Bytes

/-- The operation did all of its work. -/
def MtdResult.complete (r : MtdResult) (size : ℕ) : Bool := r.ret == 0 && r.bytesRw == size

/-- The steps. A store to the `i`th attribute, a look at the commit attribute and the first part of
a commit are one step each; the others are the parts of a commit from the write lock on. -/
inductive Op where
  | store (i : ℕ) (admin : Bool) (text : Bytes)
  | show
  | commit (t : ℕ) (text : Bytes) (device : Bool)
  | lock (t : ℕ)
  | setCrc (t : ℕ)
  | erase (t : ℕ) (r : MtdResult)
  | write (t : ℕ) (r : MtdResult)
  | read (t : ℕ) (r : MtdResult)
  | unlock (t : ℕ)
  | clrCrc (t : ℕ)

/-- `sc_commit_show`: the attribute reads `clean`. -/
def Driver.scCommitShow (d : Driver) (s : Sys) : Bool := d.getCrc s.scBuf ≠ 0

/-- One step of a thread; `none` where it is not possible. -/
def Driver.exec (d : Driver) (s : Sys) : Op → Option Sys
  | .store i admin text =>
    match (scAttrs d.soc)[i]? with
    | none => none
    | some attr =>
      match d.scAttrStore admin attr text with
      | .error _ => some s
      | .ok value =>
        if s.lock = none then
          some { s with
            scBuf := d.clrCrc (overwrite s.scBuf (d.payload attr).1 (d.endian.u32 value)) }
        else none
  | .show => if s.lock = none then some s else none
  | .commit t text device =>
    if s.lock = none ∧ s.pc t = .idle then
      if d.getCrc s.scBuf ≠ 0 then some s
      else
        match kstrtobool text with
        | .error _ => some s
        | .ok flush => some (if device then s.goto t (.checked flush) else s)
    else none
  | .lock t =>
    match s.pc t with
    | .checked flush =>
      if s.lock = none then
        some ({ s with lock := some t }.goto t (if flush then .flushing else .rereading))
      else none
    | _ => none
  | .setCrc t =>
    if s.pc t = .flushing then
      some ({ s with scBuf := d.setCrc (fcs s.scBuf) s.scBuf }.goto t .sealed)
    else none
  | .erase t r =>
    if s.pc t = .sealed ∧ r.left.length = s.flash.length then
      if r.ret = 0 then
        some ({ s with flash := List.replicate s.flash.length 0xff }.goto t .erased)
      else some ({ s with flash := r.left }.goto t (.unlocking false))
    else none
  | .write t r =>
    if s.pc t = .erased ∧ r.left.length = s.flash.length then
      let ok := r.complete s.flash.length
      some ({ s with flash := if ok then s.scBuf else r.left }.goto t (.unlocking ok))
    else none
  | .read t r =>
    if s.pc t = .rereading ∧ r.left.length = s.scBuf.length then
      let ok := r.complete s.flash.length
      some ({ s with scBuf := if ok then s.flash else r.left }.goto t (.unlocking ok))
    else none
  | .unlock t =>
    match s.pc t with
    | .unlocking ok => some ({ s with lock := none }.goto t (if ok then .idle else .mtdfail))
    | _ => none
  | .clrCrc t =>
    if s.pc t = .mtdfail then some ({ s with scBuf := d.clrCrc s.scBuf }.goto t .idle) else none

end NeonWrt.Mikrotik
