import NeonWrt.Lib.Number
import NeonWrt.Uline.LineBuffer

/-!
# Input of the line editor

What the line editor of `uline.c` makes of the bytes it reads: escape sequences,
control characters and text. On the way it calls back into the program, which
may change the lines before the callback returns. An input is therefore
processed up to the next callback, and goes on when that returns; in between,
and between two inputs, any call of the API can come.

Each input leads to at most one edit of one line before the next callback. The
functions that process it decide on that edit from the lengths of the lines and
from what else the editor keeps; they do not look at the text.
-/

namespace NeonWrt.Uline

open NeonWrt.Lib

/-- The escape codes that are decoded, `VT100_CURSOR_POS` with its rows and columns. -/
inductive Esc
  | incomplete | unknown | ignore
  | cursorUp | cursorDown | cursorLeft | cursorWordLeft | cursorRight | cursorWordRight
  | cursorPos (rows cols : ℕ)
  | home | lineEnd | delete
  deriving DecidableEq

/-- The numbers of an escape sequence, from its first digit on. -/
def escNumber (str : Bytes) : Esc :=
  let (code, err) := strtoul 64 10 str
  match err with
  | [] => .incomplete
  | 126 :: _ =>
    if code = 1 then .home
    else if code = 3 then .delete
    else if code = 4 then .lineEnd
    else if code = 200 ∨ code = 201 then .ignore
    else .unknown
  | 59 :: rest =>
    let (code2, err) := strtoul 64 10 rest
    match err with
    | [] => .incomplete
    | 82 :: _ => .cursorPos (code % 65536) (code2 % 65536)
    | _ => .unknown
  | _ => .unknown

/-- `vt100_esc_decode`, for what follows the escape character. -/
def vt100EscDecode (str : Bytes) : Esc :=
  match cstr str with
  | [] => .incomplete
  | c :: rest =>
    if c = 91 ∨ c = 79 then
      match rest with
      | [] => .incomplete
      | 65 :: _ => .cursorUp
      | 66 :: _ => .cursorDown
      | 67 :: _ => .cursorRight
      | 68 :: _ => .cursorLeft
      | 70 :: _ => .lineEnd
      | 72 :: _ => .home
      | 53 :: 67 :: _ => .cursorWordRight
      | 53 :: 68 :: _ => .cursorWordLeft
      | d :: _ => if isdigit d then escNumber rest else .unknown
    else .unknown

/-- The callbacks that a program may leave out. -/
structure Callbacks where
  keyInput : Bool
  line2Update : Bool
  line2Cursor : Bool
  line2Newline : Bool

/-- A callback that has been called, with what is left to do for the input. -/
inductive Waiting
  | keyInput (c : UInt8)
  | line2Cursor (esc : Esc)
  | line2Update
  | line2Newline
  | line
  /-- An event that has no further effect. -/
  | event
  | interrupt
  | eof

/-- The state of an editor: its lines, the rest of a UTF-8 symbol and of an escape
sequence that is being read, and the callback that is running. -/
structure UlineState where
  cb : Callbacks
  utf8 : Bool
  line : Linebuf
  line2 : Option Linebuf
  utf8Cont : ℕ
  escSeq : Option Bytes
  rows : ℕ
  cols : ℕ
  stop : Bool
  waiting : Option Waiting

/-- `uline_init`. -/
def UlineState.init (cb : Callbacks) (utf8 : Bool) : UlineState where
  cb := cb
  utf8 := utf8
  line := .zero
  line2 := none
  utf8Cont := 0
  escSeq := none
  rows := 25
  cols := 80
  stop := false
  waiting := none

/-- What follows an edit that has changed something. -/
inductive Follow
  | show
  /-- The second line is reported before it is displayed. -/
  | update
  | quiet

/-- What processing an input leads to: an edit of the first or the second line, a
callback, the display of the lines, or nothing. -/
inductive Action
  | edit (e : Edit) (second : Bool) (follow : Follow)
  | call (w : Waiting)
  | show
  | done

section Process

variable (s : UlineState)

/-- `check_utf8`. -/
def checkUtf8 (c : UInt8) : Bool := s.utf8 && (s.utf8Cont ≠ 0 || c &&& 0xc0 == 0xc0)

/-- The loop of `handle_utf8` that counts the bytes to come. -/
def leadBits : ℕ → UInt8 → ℕ
  | 0, _ => 0
  | n + 1, c => if c &&& 0x80 ≠ 0 then leadBits n (c <<< 1) + 1 else 0

/-- `handle_utf8`: whether more bytes of the symbol are to come. -/
def handleUtf8 (c : UInt8) : UlineState × Bool :=
  if !s.utf8 then (s, false)
  else if s.utf8Cont = 0 then
    if c &&& 0xc0 ≠ 0xc0 then (s, false)
    else ({ s with utf8Cont := leadBits 8 ((c &&& 0xf0) <<< 1) }, true)
  else if c &&& 0xc0 ≠ 0x80 then ({ s with utf8Cont := 0 }, false)
  else ({ s with utf8Cont := s.utf8Cont - 1 }, s.utf8Cont - 1 ≠ 0)

/-- `process_esc`, once the line is chosen. -/
def escAction (esc : Esc) (second : Bool) : UlineState × Action :=
  match esc with
  | .cursorLeft => (s, .edit .moveLeft second .show)
  | .cursorWordLeft => (s, .edit .moveWordLeft second .show)
  | .cursorRight => (s, .edit .moveRight second .show)
  | .cursorWordRight => (s, .edit .moveWordRight second .show)
  | .cursorPos rows cols =>
    if s.rows = rows ∧ s.cols = cols then (s, .done)
    else ({ s with rows := rows, cols := cols }, .call .event)
  | .home => (s, .edit .home second .show)
  | .lineEnd => (s, .edit .lineEnd second .show)
  | .cursorUp | .cursorDown => (s, .call .event)
  | .delete => (s, .edit .delete second .show)
  | .incomplete | .unknown | .ignore => (s, .done)

/-- `process_esc`. The callback decides which line the key is for. -/
def processEsc (esc : Esc) : UlineState × Action :=
  if s.line2.isSome ∧ esc ≠ .delete ∧ s.cb.line2Cursor then (s, .call (.line2Cursor esc))
  else escAction s esc (s.line2.isSome && esc = .delete)

/-- `process_newline` from its label `reset` on. -/
def resetAction : UlineState × Action :=
  if s.line.len = 0 then (s, .show) else (s, .edit .reset false .show)

/-- `process_newline` after the second line has been dealt with. -/
def lineAction : UlineState × Action := ({ s with line2 := none }, .call .line)

/-- `process_newline`. -/
def processNewline (drop : Bool) : UlineState × Action :=
  if drop then resetAction s
  else if s.line2.isSome ∧ s.cb.line2Newline then (s, .call .line2Newline)
  else lineAction s

/-- `process_ctrl`. -/
def processCtrl (c : UInt8) : UlineState × Action :=
  match c with
  | 10 | 13 => processNewline s false
  | 3 => (s, .call .interrupt)
  | 4 => if s.line.len ≠ 0 then (s, .done) else (s, .call .eof)
  | 8 | 127 => (s, .edit .backspace s.line2.isSome .update)
  | 12 => (s, .show)
  | 21 => (s, .edit .reset s.line2.isSome .show)
  | 1 => processEsc s .home
  | 5 => processEsc s .lineEnd
  | 23 => (s, .edit .backword s.line2.isSome .show)
  | 27 => ({ s with escSeq := some [] }, .done)
  | _ => (s, .done)

/-- `process_char` after `key_input` has not taken the byte. -/
def keyAction (c : UInt8) : UlineState × Action :=
  if c < 32 ∨ c = 127 then processCtrl s c
  else
    let (t, more) := handleUtf8 s c
    (t, .edit (.insert c) s.line2.isSome (if more then .quiet else .update))

/-- `process_char`. -/
def processChar (c : UInt8) : UlineState × Action :=
  match s.escSeq with
  | some seq =>
    let seq := seq ++ [c]
    let esc := vt100EscDecode seq
    if esc = .incomplete ∧ seq.length < 31 then ({ s with escSeq := some seq }, .done)
    else processEsc { s with escSeq := none } esc
  | none =>
    if s.cb.keyInput ∧ !checkUtf8 s c then (s, .call (.keyInput c)) else keyAction s c

/-- What is left to do for an input when a callback returns. -/
def resume (w : Waiting) (ret : Bool) : UlineState × Action :=
  match w with
  | .keyInput c => if ret then (s, .show) else keyAction s c
  | .line2Cursor esc => escAction s esc ret
  | .line2Update => (s, .show)
  | .line2Newline => if ret then (s, .show) else lineAction s
  | .line => if ret then resetAction s else (s, .edit (.insert 10) false .show)
  | .event => (s, .show)
  | .interrupt => processNewline { s with stop := true } true
  | .eof => ({ s with stop := true }, .show)

end Process

namespace UlineState

variable (s : UlineState)

/-- `display_update`, as far as it changes the lines. -/
def displayUpdate : UlineState :=
  { s with
    line := { s.line with updatePos := s.line.len }
    line2 := s.line2.map fun l => { l with updatePos := l.len } }

/-- The label `out` of `process_char`. -/
def output : UlineState := if s.stop then s else s.displayUpdate

/-- The first or the second line; the second may be gone. -/
def target (second : Bool) : Option Linebuf := if second then s.line2 else some s.line

/-- A line has changed. -/
def setTarget (second : Bool) (l : Linebuf) : UlineState :=
  if second then { s with line2 := some l } else { s with line := l }

/-- What follows an edit. -/
def follow : Follow → UlineState
  | .show => s.output
  | .update =>
    if s.line2.isSome ∧ s.cb.line2Update then { s with waiting := some .line2Update }
    else s.output
  | .quiet => s

/-- The effect of an action. -/
def perform (fresh : ℕ → UInt8) : Action → Option UlineState
  | .edit e second next => do
    let l ← s.target second
    let (l, changed) ← e.run fresh s.utf8 l
    let s := s.setTarget second l
    pure (if changed then s.follow next else s)
  | .call w => some { s with waiting := some w }
  | .show => some s.output
  | .done => some s

end UlineState

/-- The calls of the API that change the lines. -/
inductive Api
  | setPrompt (str : Bytes)
  | setLine (str : Bytes) (fresh : ℕ → UInt8)
  | setCursor (pos : ℕ)
  | setLine2Prompt (str : Option Bytes)
  | setLine2 (str : Bytes) (fresh : ℕ → UInt8)
  | setLine2Cursor (pos : ℕ)
  | refreshPrompt

/-- The effect of a call. -/
def UlineState.call (s : UlineState) : Api → Option UlineState
  | .setPrompt str => some { s with line := { s.line with prompt := some str } }
  | .setLine str fresh => do
    let l ← ulineSetLine fresh s.utf8 s.line str
    pure { s with line := l }
  | .setCursor pos => some { s with line := ulineSetCursor s.line pos }
  | .setLine2Prompt none => some { s with line2 := none }
  | .setLine2Prompt (some str) =>
    some { s with line2 := some { s.line2.getD .zero with prompt := some str } }
  | .setLine2 str fresh =>
    match s.line2 with
    | none => some s
    | some l => do
      let l ← ulineSetLine fresh s.utf8 l str
      pure { s with line2 := some l }
  | .setLine2Cursor pos => some { s with line2 := s.line2.map (ulineSetCursor · pos) }
  | .refreshPrompt => some s.displayUpdate

/-- What can happen to an editor: `uline_poll` is called, it reads a byte, a
callback returns, or the API is called, from a callback or otherwise. -/
inductive Event
  | poll
  | input (c : UInt8) (fresh : ℕ → UInt8)
  | ret (result : Bool) (fresh : ℕ → UInt8)
  | api (a : Api)

/-- What an event leads to, unless it is a call. -/
def UlineState.action (s : UlineState) : Event → Option (UlineState × Action)
  | .input c _ => if s.waiting.isNone ∧ !s.stop then some (processChar s c) else none
  | .ret result _ => s.waiting.map (resume { s with waiting := none } · result)
  | .poll => if s.waiting.isNone then some ({ s with stop := false }, .show) else none
  | .api _ => none

/-- The bytes that a buffer grows by, if an event makes it grow. -/
def Event.fresh : Event → ℕ → UInt8
  | .input _ fresh | .ret _ fresh => fresh
  | _ => fun _ => 0

/-- One event. The state is missing after an access outside a buffer; an event
that cannot happen has no result. -/
def exec (s : Option UlineState) (e : Event) : Option (Option UlineState) :=
  match s, e with
  | none, _ => none
  | some s, .api a => some (s.call a)
  | some s, e => (s.action e).map fun p => p.1.perform e.fresh p.2

end NeonWrt.Uline
