import NeonWrt.Lib.Lines
import NeonWrt.Lib.StableSort
import NeonWrt.Luci.Archive

/-!
# Compiling translations

`po2lmo.c` reads a PO file line by line. A keyword says which field of the current message
the quoted text of its line and of the lines after it belongs to; a new message begins with
the next context or id, and the one before it is written then. The fields are kept as
strings that are `NULL` as long as nothing but empty text was read.

The program gives up if a plural form has an index from 10 on, or if it has nothing to write
where it wants to write something. A negative index, of a number above the range of `int`,
is outside of the array and not modelled beyond that.
-/

namespace NeonWrt.Luci.Po2lmo

open Lib

/-- The loop of `extract_string` behind the opening quote: what it writes to `dest`, and whether it
meets the closing quote. -/
def extractLoop : (esc : Bool) → (dest : Bytes) → Bytes → Bytes × Bool
  | _, dest, [] => (dest, false)
  | true, dest, c :: src =>
    -- a quote or a backslash takes the place of the backslash before it
    extractLoop false ((if c = 34 ∨ c = 92 then dest.dropLast else dest) ++ [c]) src
  | false, dest, c :: src =>
    if c = 92 then extractLoop true (dest ++ [c]) src
    else if c ≠ 34 then extractLoop false (dest ++ [c]) src
    else (dest, true)

/-- `extract_string` of a string: the buffer `dest` afterwards, and the string in it unless there is
none in the line. A text without a closing quote is not terminated. -/
def extractString (src dest : Bytes) (len : ℕ) : Bytes × Option Bytes :=
  if src.head? = some 35 then (dest, none)
  else
    match (src.take len).dropWhile (· ≠ 34) with
    | [] => (dest, none)
    | _ :: text =>
      let (written, closed) := extractLoop false [] text
      let dest := overwrite dest 0 (if closed then written ++ [0] else written)
      (dest, some (cstr dest))

/-- The fields of a message that text is added to. -/
inductive Field
  | ctxt
  | id
  | idPlural
  | val (i : ℕ)

/-- `struct msg`, where `cur` points to one of the fields. -/
structure Msg where
  pluralNum : ℤ
  ctxt : Option Bytes
  id : Option Bytes
  idPlural : Option Bytes
  val : ℕ → Option Bytes
  cur : Option Field

namespace Msg

/-- A message without text. -/
def blank (pluralNum : ℤ) (cur : Option Field) : Msg where
  pluralNum := pluralNum
  ctxt := none
  id := none
  idPlural := none
  val := fun _ => none
  cur := cur

/-- The string of a field. -/
def get (msg : Msg) : Field → Option Bytes
  | .ctxt => msg.ctxt
  | .id => msg.id
  | .idPlural => msg.idPlural
  | .val i => msg.val i

/-- A string put to a field. -/
def set (msg : Msg) (s : Option Bytes) : Field → Msg
  | .ctxt => { msg with ctxt := s }
  | .id => { msg with id := s }
  | .idPlural => { msg with idPlural := s }
  | .val i => { msg with val := Function.update msg.val i s }

end Msg

/-- `print`. Zeros are added up to a multiple of four bytes. -/
def print (text : Bytes) : Option Bytes :=
  if text = [] then none else some (text ++ List.replicate ((4 - text.length % 4) % 4) 0)

/-- What is in the file, whose length is `offset`, and what goes to the index. -/
structure Out where
  data : Bytes
  array : List LmoEntry

/-- A text with its entry. -/
def Out.put (out : Out) (keyId valId : BitVec 32) (text : Bytes) : Option Out :=
  (print text).map fun bytes =>
    { data := out.data ++ bytes
      array := out.array ++
        [{ keyId := keyId
           valId := valId
           offset := BitVec.ofNat 32 out.data.length
           length := BitVec.ofNat 32 text.length }] }

/-- The hash of a whole string. -/
def hashOf (s : Bytes) : BitVec 32 := sfhHash s (BitVec.ofNat 32 s.length)

/-- The key of a form, as `snprintf` leaves it in its buffer. -/
def msgKey (msg : Msg) (id : Bytes) (i : ℕ) : Bytes :=
  snprintf 4096 <|
    match msg.ctxt, msg.idPlural with
    | some ctxt, some _ => ctxt ++ 1 :: (id ++ 2 :: fmtInt i)
    | some ctxt, none => ctxt ++ 1 :: id
    | none, some _ => id ++ 2 :: fmtInt i
    | none, none => id

/-- One form of a message, in `print_msg`. A form with the hash of its key is left out. -/
def printForm (msg : Msg) (id : Bytes) (out : Out) (i : ℕ) : Option Out :=
  match msg.val i with
  | none => some out
  | some text =>
    let keyId := hashOf (msgKey msg id i)
    if keyId ≠ hashOf text then out.put keyId (BitVec.ofInt 32 (msg.pluralNum + 1)) text
    else some out

/-- The search of `print_msg` in the header, whose lines end with an escaped `n`: the value of the
first line for plural forms. -/
def pluralForms : (field : Bytes) → (esc : Bool) → Bytes → Option Bytes
  | _, _, [] => none
  | field, true, c :: rest =>
    if c = 110 then
      -- the line ends before its backslash
      let line := field.dropLast
      if caseEq (line.take 14) (ascii "Plural-Forms: ") then some (line.drop 14)
      else pluralForms [] false rest
    else pluralForms (field ++ [c]) false rest
  | field, false, c :: rest => pluralForms (field ++ [c]) (c = 92) rest

/-- `print_msg`. A message without an id is the header. -/
def printMsg (msg : Msg) (out : Out) : Option Out :=
  match msg.id, msg.val 0 with
  | some id, some _ => (List.range (msg.pluralNum + 1).toNat).foldlM (printForm msg id) out
  | _, none => some out
  | none, some text =>
    match pluralForms [] false text with
    | some formula => out.put 0 0 formula
    | none => some out

theorem printMsg_header {msg : Msg} {text : Bytes} (hid : msg.id = none)
    (hval : msg.val 0 = some text) (out : Out) :
    printMsg msg out = (pluralForms [] false text).elim (some out) (out.put 0 0) := by
  unfold printMsg
  rw [hid, hval]
  cases h : pluralForms [] false text <;> simp only [h, Option.elim]

/-- The state between two lines: the message, what was written, and the buffer `tmp`. -/
structure State where
  msg : Msg
  out : Out
  tmp : Bytes

/-- A keyword that begins a message: the one before it is written and cleared if it has an id or a
translation, and the field starts anew. -/
def beginMsg (f : Field) (st : State) : Option State :=
  let written :=
    if st.msg.id.isSome ∨ (st.msg.val 0).isSome then
      (printMsg st.msg st.out).map fun out => { st with msg := .blank 0 none, out := out }
    else some st
  written.map fun st => { st with msg := { st.msg.set none f with cur := some f } }

/-- A keyword inside of a message. -/
def beginField (f : Field) (st : State) : State :=
  { st with msg := { st.msg.set none f with cur := some f } }

/-- `!strncmp(line, prefix, strlen(prefix))` -/
def starts (keyword : String) (line : Bytes) : Bool := (ascii keyword).isPrefixOf line

/-- The keywords in the loop of `main`, with an `unsigned long` of `w` bits. -/
def readKeyword (w : ℕ) (eof : Bool) (line : Bytes) (st : State) : Option State :=
  if starts "msgctxt \"" line then beginMsg .ctxt st
  else if eof || starts "msgid \"" line then beginMsg .id st
  else if starts "msgid_plural \"" line then some (beginField .idPlural st)
  else if starts "msgstr \"" line || starts "msgstr[" line then
    let pluralNum : ℤ := if (line)[6]? = some 91 then toInt32 (strtoul w 10 (line.drop 7)).1 else 0
    if 10 ≤ pluralNum ∨ pluralNum < 0 then none
    else
      some (beginField (.val pluralNum.toNat)
        { st with msg := { st.msg with pluralNum := pluralNum } })
  else some st

/-- The text of a line, added to the current field. -/
def readText (line : Bytes) (st : State) : State :=
  match st.msg.cur with
  | none => st
  | some f =>
    match extractString line st.tmp 4096 with
    | (tmp, none) | (tmp, some []) => { st with tmp := tmp }
    | (tmp, some text) =>
      { st with msg := st.msg.set (some ((st.msg.get f).getD [] ++ text)) f, tmp := tmp }

/-- What the loop of `main` does with a line. -/
def poLine (w : ℕ) (st : State) (line : Bytes) : Option State :=
  (readKeyword w false line st).map (readText line)

/-- `main`: the contents of the new file, unless there is nothing in it and it is removed. `tmp` is
what is in the buffer before it is used. -/
def po2lmo (w : ℕ) (tmp input : Bytes) : Option (Option Bytes) :=
  ((((fgetsLines 4096 [] input).map cstr).foldlM (poLine w)
    { msg := .blank (-1) none, out := ⟨[], []⟩, tmp := tmp }).bind
      (readKeyword w true [])).map fun st =>
    if 0 < st.out.data.length then
      some (lmoFile st.out.data (sortOn (fun e : LmoEntry => e.keyId.toNat) st.out.array))
    else none

end NeonWrt.Luci.Po2lmo
