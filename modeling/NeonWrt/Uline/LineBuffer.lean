import NeonWrt.Lib.Utf8

/-!
# Line buffers

A line that is edited lies in a buffer that grows by chunks of 64 bytes, as in
`uline.c`. The operations read and write the buffer through its bounds: one
that leaves it has no result. Bytes that the buffer grows by hold anything.
-/

namespace NeonWrt.Uline

open NeonWrt.Lib

/-- `LINEBUF_CHUNK`. -/
def linebufChunk : ℕ := 64

/-- A line with its cursor, and the position from which on it is to be displayed. -/
structure Linebuf where
  buf : Ptr
  len : ℕ
  pos : ℕ
  updatePos : ℕ
  prompt : Option Bytes

/-- A line that has just been allocated. -/
def Linebuf.zero : Linebuf where
  buf := none
  len := 0
  pos := 0
  updatePos := 0
  prompt := none

/-- The size of the buffer. -/
def Linebuf.bufsize (l : Linebuf) : ℕ := (l.buf.getD []).length

section Buffer

variable (fresh : ℕ → UInt8) (l : Linebuf)

/-- `linebuf_extend`: room for `size` more bytes, in chunks. -/
def linebufExtend (size : ℕ) : Linebuf :=
  let tailroom := l.bufsize - l.len
  if l.buf.isSome ∧ size < tailroom then l
  else
    let size := size - tailroom
    let size := size + (linebufChunk - 1)
    let size := size - size % linebufChunk
    { l with buf := some (realloc fresh l.buf (l.bufsize + size)) }

/-- `linebuf_insert`. -/
def linebufInsert (c : Bytes) : Option Linebuf := do
  let l := linebufExtend fresh l (c.length + 1)
  let tail := l.len - l.pos
  let buf ← (if 0 < tail then memmove l.buf (l.pos + c.length) l.pos tail
    else store l.buf (l.pos + c.length) [0])
  let buf ← store buf l.pos c
  let buf ← store buf (l.len + c.length) [0]
  pure { l with
    buf := buf
    len := l.len + c.length
    pos := l.pos + c.length
    updatePos := min l.updatePos l.pos }

/-- `linebuf_delete`. The tail that is moved was computed before the deletion, so
`len` bytes behind the terminator are read. -/
def linebufDelete (len : ℕ) : Option Linebuf := do
  let tail := l.len - l.pos
  let len := min len (l.len - l.pos)
  let buf ← memmove l.buf l.pos (l.pos + len) (tail + 1)
  pure { l with buf := buf, len := l.len - len, updatePos := min l.updatePos l.pos }

/-- `linebuf_reset`. -/
def linebufReset : Option Linebuf := do
  let buf ← store l.buf 0 [0]
  pure { l with buf := buf, len := 0, pos := 0, updatePos := 0 }

end Buffer

/-! ### Motions

Each returns the line, and whether anything has changed. -/

/-- `utf8_move_left`. -/
def utf8MoveLeft (line : Ptr) : ℕ → Option ℕ
  | 0 => some 0
  | pos + 1 => skipLeft line isUtf8Cont pos

/-- `utf8_move_right`. -/
def utf8MoveRight (line : Ptr) (pos len : ℕ) : Option ℕ :=
  if pos = len then some pos else skipWithin line isUtf8Cont (pos + 1) (len - (pos + 1))

section Motions

variable (utf8 : Bool) (l : Linebuf)

/-- `move_left`. -/
def moveLeft : Option (Linebuf × Bool) :=
  if l.pos = 0 then some (l, false)
  else do
    let pos ← if utf8 then utf8MoveLeft l.buf l.pos else some (l.pos - 1)
    pure ({ l with pos := pos }, true)

/-- `move_word_left`. -/
def moveWordLeft : Option (Linebuf × Bool) := do
  let (l, moved) ← moveLeft utf8 l
  if !moved then pure (l, false)
  else
    let pos ← skipLeft l.buf isspace l.pos
    let pos ← skipLeft l.buf (fun c => !isspace c) pos
    let c ← load l.buf pos
    pure ({ l with pos := if isspace c then pos + 1 else pos }, true)

/-- `move_right`. -/
def moveRight : Option (Linebuf × Bool) :=
  if l.len ≤ l.pos then some (l, false)
  else do
    let pos ← if utf8 then utf8MoveRight l.buf l.pos l.len else some (l.pos + 1)
    pure ({ l with pos := pos }, true)

/-- `move_word_right`. -/
def moveWordRight : Option (Linebuf × Bool) :=
  if l.pos = l.len then some (l, false)
  else do
    let pos ← skipRight l.buf (fun c => !isspace c) l.pos (l.len - l.pos)
    let pos ← skipRight l.buf isspace pos (l.len - pos)
    pure ({ l with pos := pos }, true)

/-- The bytes that `delete_symbol` deletes. -/
def symbolLen : Option ℕ :=
  if utf8 then (utf8MoveRight l.buf l.pos l.len).map (· - l.pos) else some 1

/-- `delete_symbol`. -/
def deleteSymbol : Option (Linebuf × Bool) :=
  if l.pos = l.len then some (l, false)
  else do
    let len ← symbolLen utf8 l
    let l ← linebufDelete l len
    pure (l, true)

/-- `process_backword`. -/
def processBackword : Option (Linebuf × Bool) := do
  let (m, moved) ← moveWordLeft utf8 l
  if !moved then pure (m, false)
  else
    let l ← linebufDelete m (l.pos - m.pos)
    pure (l, true)

/-- `KEY_BS` and `KEY_DEL` in `process_ctrl`. -/
def backspace : Option (Linebuf × Bool) := do
  let (l, moved) ← moveLeft utf8 l
  if !moved then pure (l, false)
  else
    let (l, _) ← deleteSymbol utf8 l
    pure (l, true)

end Motions

/-- The first index below `i + n` at which two strings differ. -/
def commonPrefix (buf : Ptr) (str : Bytes) : ℕ → ℕ → Option ℕ
  | i, 0 => some i
  | i, n + 1 => do
    let c ← load buf i
    let d ← load (some str) i
    if c = d then commonPrefix buf str (i + 1) n else pure i

/-- `__uline_set_line`, for a string that is followed by its terminator. The line
does not get one. -/
def ulineSetLine (fresh : ℕ → UInt8) (utf8 : Bool) (l : Linebuf) (str : Bytes) :
    Option Linebuf := do
  let prevLen := l.len
  let l := linebufExtend fresh { l with len := 0 } str.length
  let i ← commonPrefix l.buf str 0 (min prevLen str.length)
  let i := if prevLen < i then i - 1 else i
  let i ← (if utf8 then skipLeft (some (str ++ [0])) isUtf8Cont i else some i)
  let buf ← store l.buf 0 str
  pure { l with buf := buf, len := str.length, pos := min l.pos str.length, updatePos := i }

/-- `uline_set_cursor`. -/
def ulineSetCursor (l : Linebuf) (pos : ℕ) : Linebuf := { l with pos := min pos l.len }

/-- What a key does to a line. -/
inductive Edit
  | insert (c : UInt8)
  | moveLeft | moveWordLeft | moveRight | moveWordRight | home | lineEnd
  | delete | backspace | backword | reset

/-- The line after an edit, and whether it has to be displayed again. -/
def Edit.run (fresh : ℕ → UInt8) (utf8 : Bool) (l : Linebuf) : Edit → Option (Linebuf × Bool)
  | .insert c => (linebufInsert fresh l [c]).map (·, true)
  | .moveLeft => Uline.moveLeft utf8 l
  | .moveWordLeft => Uline.moveWordLeft utf8 l
  | .moveRight => Uline.moveRight utf8 l
  | .moveWordRight => Uline.moveWordRight l
  | .home => some ({ l with pos := 0 }, true)
  | .lineEnd => some ({ l with pos := l.len }, true)
  | .delete => deleteSymbol utf8 l
  | .backspace => Uline.backspace utf8 l
  | .backword => processBackword utf8 l
  | .reset => (linebufReset l).map (·, true)

end NeonWrt.Uline
