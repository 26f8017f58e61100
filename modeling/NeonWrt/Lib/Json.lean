import Mathlib.Data.Rat.Floor
import NeonWrt.Lib.CString

/-!
# JSON values as json-c hands them out

The values of json-c and the accessors that C programs read them with. A null
value is json-c's null pointer. A double keeps the text it was parsed from,
since json-c prints that text back.
-/

namespace NeonWrt.Lib

/-- A JSON value. -/
inductive Json where
  | null
  | bool (b : Bool)
  | int (n : ℤ)
  | double (text : Bytes) (value : ℚ)
  | str (s : Bytes)
  | arr (items : List Json)
  | obj (members : List (CStr × Json))

namespace Json

/-- `json_object_object_get_ex`: the member of an object, `none` when there is none. -/
def get? (key : CStr) : Json → Option Json
  | .obj members => (members.find? fun m => m.1 = key).map Prod.snd
  | _ => none

/-- A hexadecimal digit. -/
def hexDigit (n : UInt8) : UInt8 := if n < 10 then 48 + n else 87 + n

/-- `json_escape_str` of one character. -/
def escapeChar (c : UInt8) : Bytes :=
  if c = 8 then ascii "\\b"
  else if c = 10 then ascii "\\n"
  else if c = 13 then ascii "\\r"
  else if c = 9 then ascii "\\t"
  else if c = 12 then ascii "\\f"
  else if c = 34 then ascii "\\\""
  else if c = 92 then ascii "\\\\"
  else if c = 47 then ascii "\\/"
  else if c < 32 then ascii "\\u00" ++ [hexDigit (c / 16), hexDigit (c % 16)]
  else [c]

/-- A string as it is printed. -/
def quote (s : Bytes) : Bytes := ascii "\"" ++ s.flatMap escapeChar ++ ascii "\""

mutual

/-- `json_object_to_json_string`, which prints with single blanks between items. -/
def text : Json → Bytes
  | .null => ascii "null"
  | .bool b => if b then ascii "true" else ascii "false"
  | .int n => ascii (toString n)
  | .double t _ => t
  | .str s => quote s
  | .arr items => ascii "[" ++ textItems items ++ ascii " ]"
  | .obj members => ascii "\x7b" ++ textMembers members ++ ascii " \x7d"

def textItems : List Json → Bytes
  | [] => []
  | [v] => ascii " " ++ text v
  | v :: rest => ascii " " ++ text v ++ ascii "," ++ textItems rest

def textMembers : List (CStr × Json) → Bytes
  | [] => []
  | [(k, v)] => ascii " " ++ quote k.bytes ++ ascii ": " ++ text v
  | (k, v) :: rest =>
    ascii " " ++ quote k.bytes ++ ascii ": " ++ text v ++ ascii "," ++ textMembers rest

end

/-- `json_object_get_string`: a string as a C string, null as the null pointer,
and any other value as its printed text. -/
def getString : Json → Option CStr
  | .null => none
  | .str s => some (CStr.ofBytes s)
  | v => some (CStr.ofBytes v.text)

theorem getString_str (s : CStr) : (str s.bytes).getString = some s := by
  rw [getString, CStr.ofBytes_bytes]

/-- `json_object_get_boolean`. -/
def getBoolean : Json → Bool
  | .bool b => b
  | .int n => n ≠ 0
  | .double _ q => q ≠ 0
  | .str s => s ≠ []
  | _ => false

/-- The decimal digits a string starts with. -/
def digitsValue (s : Bytes) : ℕ :=
  (s.takeWhile isdigit).foldl (fun n c => 10 * n + (c.toNat - 48)) 0

/-- The number a string starts with, after blanks and a sign; 0 if there is none. -/
def parseInt (s : Bytes) : ℤ :=
  match s.dropWhile isspace with
  | 45 :: rest => -(digitsValue rest : ℤ)
  | 43 :: rest => digitsValue rest
  | rest => digitsValue rest

/-- A number forced into the range of `int32_t`. -/
def clampInt32 (n : ℤ) : ℤ := max (-2147483648) (min n 2147483647)

/-- `json_object_get_int`. -/
def getInt : Json → ℤ
  | .bool b => if b then 1 else 0
  | .int n => clampInt32 n
  | .double _ q => clampInt32 (if 0 ≤ q then ⌊q⌋ else ⌈q⌉)
  | .str s => clampInt32 (parseInt s)
  | _ => 0

/-- A string member, as the usual `jstr` helper reads it: absent, null and
non-string members are all the null pointer. -/
def stringMember (o : Json) (key : CStr) : Option CStr :=
  match o.get? key with
  | some (.str s) => some (CStr.ofBytes s)
  | _ => none

end Json

end NeonWrt.Lib
