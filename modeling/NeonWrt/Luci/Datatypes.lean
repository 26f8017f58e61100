import NeonWrt.Lib.JsNumber

/-!
# Types that test a value

Most of the registered types of `validation.js` look at the value of the field and
accept it or not. This file has them with the parsers of addresses and numbers; the
types that apply other types are built on it.
-/

namespace NeonWrt.Luci.Validation

open Lib

/-- `\d+` -/
def isDigits (x : JsString) : Bool := x ≠ [] && x.all isDigit

/-- The parts of four numbers with dots between them. -/
def dotted (x : JsString) : Option (List JsString) :=
  let parts := x.splitOn 46
  if parts.length = 4 ∧ parts.all isDigits then some parts else none

/-- `/^\d{1,3}\.\d{1,3}\.\d{1,3}\.\d{1,3}$/` -/
def isQuad (x : JsString) : Bool := (dotted x).any fun parts => parts.all (·.length ≤ 3)

/-- `parseIPv4(x)` -/
def parseIPv4 (x : JsString) : Option (List ℕ) :=
  if isQuad x then
    let words := (x.splitOn 46).map (digitsValue 10)
    if words.all (· ≤ 255) then some words else none
  else none

/-- `x.split(/::/)` -/
def splitDouble : JsString → List JsString
  | [] => [[]]
  | 58 :: 58 :: rest => [] :: splitDouble rest
  | c :: rest =>
    match splitDouble rest with
    | [] => [[c]]
    | p :: ps => (c :: p) :: ps

/-- `[a-fA-F0-9:]` -/
def isHexOrColon (c : UInt16) : Bool := isHexDigit c || c = 58

/-- The text before the last colon, and the text behind it. -/
def splitLastColon (x : JsString) : Option (JsString × JsString) :=
  let tail := x.rtakeWhile (· ≠ 58)
  let front := x.rdropWhile (· ≠ 58)
  if front = [] then none else some (front.dropLast, tail)

/-- The first match of `parseIPv6`: an address that ends in four numbers with dots. -/
def matchMixed (x : JsString) : Option (JsString × JsString) :=
  (splitLastColon x).filter fun (v6, v4) => v6 ≠ [] && v6.all isHexOrColon && isQuad v4

/-- The words of some groups. -/
def groupWords (groups : List JsString) : Option (List ℕ) :=
  if groups.all (fun g => g ≠ [] && g.length ≤ 4) then some (groups.map (digitsValue 16)) else none

/-- `s || '0'` -/
def orZero (s : JsString) : JsString := if s = [] then [48] else s

/-- The second part of `parseIPv6`, without dots. -/
def parseGroups (x : JsString) : Option (List ℕ) :=
  if x = [] ∨ !x.all isHexOrColon then none
  else
    let parts := splitDouble x
    if 2 < parts.length then none
    else
      let front := (orZero (parts.headD [])).splitOn 58
      let back := match parts with
        | [_, s] => (orZero s).splitOn 58
        | _ => []
      let misfit :=
        if back ≠ [] then 7 < front.length + back.length
        else parts.length < 2 && front.length < 8 || 8 < front.length
      if misfit then none
      else
        (groupWords front).bind fun front' => (groupWords back).map fun back' =>
          front' ++ List.replicate (8 - front.length - back.length) 0 ++ back'

/-- `parseIPv6(x)` -/
def parseIPv6 (x : JsString) : Option (List ℕ) :=
  match matchMixed x with
  | none => parseGroups x
  | some (v6, v4) =>
    match parseIPv4 v4 with
    | some [a, b, c, d] =>
      parseGroups (v6 ++ 58 :: numberToString 16 (256 * a + b) ++
        58 :: numberToString 16 (256 * c + d))
    | _ => none

/-- `/^-?\d+$/` -/
def isInteger (x : JsString) : Bool :=
  match x with
  | 45 :: rest => isDigits rest
  | _ => isDigits x

/-- `/^-?\d+(?:\.\d+)?$/` -/
def isDecimal (x : JsString) : Bool :=
  let rest := (takeSign x).2
  x.head? ≠ some 43 &&
    match rest.splitOn 46 with
    | [int] => isDigits int
    | [int, frac] => isDigits int && isDigits frac
    | _ => false

/-- `parseInteger(x)` -/
def parseInteger (x : JsString) : JsNumber := if isInteger x then toNumber x else .nan

/-- `parseDecimal(x)` -/
def parseDecimal (x : JsString) : JsNumber := if isDecimal x then toNumber x else .nan

/-- The first half of a surrogate pair. -/
def isHighSurrogate (c : UInt16) : Bool := 0xD800 ≤ c && c < 0xDC00

/-- The second half of a surrogate pair. -/
def isLowSurrogate (c : UInt16) : Bool := 0xDC00 ≤ c && c < 0xE000

/-- `bytelen(x)`: the length in UTF-8. A code unit takes up to three bytes, also a surrogate without
its other half, which is replaced by U+FFFD; the halves of a pair take four bytes together. -/
def bytelen (x : JsString) : ℕ :=
  (x.map fun c => if c < 0x80 then 1 else if c < 0x800 then 2 else 3).sum -
    2 * (x.zip x.tail).countP fun (c, d) => isHighSurrogate c && isLowSurrogate d

/-- `arrayle(a, b)` -/
def arrayle : Option (List ℕ) → Option (List ℕ) → Bool
  | some (a :: as), some (b :: bs) => a < b || a = b && arrayle (some as) (some bs)
  | some _, some _ => true
  | _, _ => false

/-- A literal argument: a number or a text. -/
inductive Lit
  | num (q : JsNumber)
  | str (s : JsString)
  deriving DecidableEq

/-- `lit == x` -/
def Lit.looseEq (x : JsString) : Lit → Bool
  | .num q => q.equals (toNumber x)
  | .str s => s = x

/-- The types that only look at the value. A parameter that is a number is what `+` makes of the
argument, and one that is a condition is the truth of the argument. -/
inductive Test
  | integer
  | uinteger
  | float
  | ufloat
  | ip4prefix
  | ip6prefix
  | ipnet4
  | ipnet6
  | ip6hostid
  | iprange
  | iprange4
  | iprange6
  | port
  | portrange
  | macaddr (multicast : Bool)
  | hostname (strict : Bool)
  | wpakey
  | wepkey
  | uciname
  | ucifw4zonename
  | netdevname
  | range (lo hi : JsNumber)
  | min (lo : JsNumber)
  | max (hi : JsNumber)
  | length (len : JsNumber)
  | rangelength (lo hi : JsNumber)
  | minlength (lo : JsNumber)
  | maxlength (hi : JsNumber)
  | phonedigit
  | timehhmmss
  | dateyyyymmdd
  | hexstring
  | string (param : Option Lit)
  | directory
  | file
  | device

/-- `[a-zA-Z0-9]` -/
def isAlnum (c : UInt16) : Bool := isDigit c || (97 ≤ c && c ≤ 122) || (65 ≤ c && c ≤ 90)

/-- `[a-zA-Z0-9_]` -/
def isWord (c : UInt16) : Bool := isAlnum c || c = 95

/-- `/^[a-zA-Z0-9_]+$/` -/
def isWords (x : JsString) : Bool := x ≠ [] && x.all isWord

/-- The second pattern of `hostname`: a word character, then more with dashes and dots, then a
letter or digit, and perhaps a dot. -/
def isDomain (x : JsString) : Bool :=
  let t := if x.getLast? = some 46 then x.dropLast else x
  match t with
  | first :: c :: rest =>
    isWord first && (c :: rest).dropLast.all (fun d => isWord d || d = 45 || d = 46) &&
      ((c :: rest).getLast?).any isAlnum
  | _ => false

/-- `hostname` -/
def hostname (strict : Bool) (x : JsString) : Bool :=
  x.length ≤ 253 &&
    (isWords x || isDomain x && x.any fun c => !(isDigit c || c = 46)) &&
    !(strict && x.head? = some 95)

/-- `macaddr`. The first two digits are read as a decimal number, so letters make it even. -/
def macaddr (multicast : Bool) (x : JsString) : Bool :=
  let parts := x.splitOn 58
  let odd := match parts.headD [] with
    | [a, b] => isDigit a && isDigit b && digitValue b % 2 = 1
    | _ => false
  parts.length = 6 && parts.all (fun p => p.length = 2 && p.all isHexDigit) && odd = multicast

/-- The two parts of `a-b`, or of `a/b`. -/
def splitPair (c : UInt16) (x : JsString) : Option (JsString × JsString) :=
  match x.splitOn c with
  | [a, b] => some (a, b)
  | _ => none

/-- `portrange` -/
def portrange (x : JsString) : Bool :=
  match (splitPair 45 x).filter fun (a, b) => isDigits a && isDigits b with
  | some (a, b) => digitsValue 10 a ≤ digitsValue 10 b && digitsValue 10 b ≤ 65535
  | none => JsNumber.le (.fin 0) (parseInteger x) && (parseInteger x).le (.fin 65535)

/-- `wepkey` -/
def wepkey (x : JsString) : Bool :=
  let v := if x.take 2 = [115, 58] then x.drop 2 else x
  if v.length = 10 ∨ v.length = 26 then v.all isHexDigit else v.length = 5 || v.length = 13

/-- `timehhmmss` -/
def timehhmmss (x : JsString) : Bool :=
  match x.splitOn 58 with
  | [h, m, s] =>
    let two := fun p : JsString => p.length = 2 && p.all isDigit
    two h && two m && two s && digitsValue 10 h ≤ 23 && digitsValue 10 m ≤ 59 &&
      digitsValue 10 s ≤ 60
  | _ => false

/-- The days of a month from 1 to 12. -/
def daysInMonth (month year : ℕ) : ℕ :=
  if month = 2 ∧ (year % 4 = 0 ∧ year % 100 ≠ 0 ∨ year % 400 = 0) then 29
  else [31, 28, 31, 30, 31, 30, 31, 31, 30, 31, 30, 31].getD (month - 1) 0

/-- `dateyyyymmdd`. The pattern does not look at what follows the date. -/
def dateyyyymmdd (x : JsString) : Bool :=
  let year := digitsValue 10 (x.take 4)
  let month := digitsValue 10 ((x.drop 5).take 2)
  let day := digitsValue 10 ((x.drop 8).take 2)
  10 ≤ x.length && (x.take 4).all isDigit && x[4]? = some 45 && ((x.drop 5).take 2).all isDigit &&
    x[7]? = some 45 && ((x.drop 8).take 2).all isDigit &&
    2015 ≤ year && 1 ≤ month && month ≤ 12 && 1 ≤ day && day ≤ daysInMonth month year

/-- `netdevname` -/
def netdevname (x : JsString) : Bool :=
  x ≠ [46] && x ≠ [46, 46] && 1 ≤ x.length && x.length ≤ 15 &&
    x.all fun c => !(c = 58 || c = 47 || c = 37 || jsSpace c)

/-- `[0-9a-fA-F:.]+` -/
def isAddressText (x : JsString) : Bool := x ≠ [] && x.all fun c => isHexOrColon c || c = 46

/-- What a type accepts. -/
def Test.accepts (x : JsString) : Test → Bool
  | .integer => isInteger x
  | .uinteger => JsNumber.le (.fin 0) (parseInteger x)
  | .float => isDecimal x
  | .ufloat => JsNumber.le (.fin 0) (parseDecimal x)
  | Test.ip4prefix => JsNumber.le (.fin 0) (toNumber x) && (toNumber x).le (.fin 32)
  | Test.ip6prefix => JsNumber.le (.fin 0) (toNumber x) && (toNumber x).le (.fin 128)
  | .ipnet4 => (splitPair 47 x).any fun (a, b) => (parseIPv4 a).isSome && (parseIPv4 b).isSome
  | .ipnet6 => (splitPair 47 x).any fun (a, b) =>
    isAddressText a && isAddressText b && (parseIPv6 a).isSome && (parseIPv6 b).isSome
  | .ip6hostid => x = units "eui64" || x = units "random" ||
    (parseIPv6 x).any fun words => (words.take 4).all (· = 0)
  | .iprange4 => (splitPair 45 x).any fun (a, b) => arrayle (parseIPv4 a) (parseIPv4 b)
  | .iprange6 => (splitPair 45 x).any fun (a, b) => arrayle (parseIPv6 a) (parseIPv6 b)
  | .iprange => (splitPair 45 x).any fun (a, b) =>
    arrayle (parseIPv4 a) (parseIPv4 b) || arrayle (parseIPv6 a) (parseIPv6 b)
  | .port => JsNumber.le (.fin 0) (parseInteger x) && (parseInteger x).le (.fin 65535)
  | .portrange => Validation.portrange x
  | .macaddr multicast => Validation.macaddr multicast x
  | .hostname strict => Validation.hostname strict x
  | .wpakey => if x.length = 64 then x.all isHexDigit else 8 ≤ x.length && x.length ≤ 63
  | .wepkey => Validation.wepkey x
  | .uciname => isWords x
  | .ucifw4zonename =>
    2 ≤ x.length && x.all isWord && !(x.head?).any isDigit
  | .netdevname => Validation.netdevname x
  | .range lo hi => lo.le (parseDecimal x) && (parseDecimal x).le hi
  | .min lo => lo.le (parseDecimal x)
  | .max hi => (parseDecimal x).le hi
  | .length len => len.equals (.fin (bytelen x))
  | .rangelength lo hi => lo.le (.fin (bytelen x)) && JsNumber.le (.fin (bytelen x)) hi
  | .minlength lo => lo.le (.fin (bytelen x))
  | .maxlength hi => JsNumber.le (.fin (bytelen x)) hi
  | .phonedigit => x ≠ [] && x.all fun c => isDigit c || c = 42 || c = 35 || c = 33 || c = 46
  | .timehhmmss => Validation.timehhmmss x
  | .dateyyyymmdd => Validation.dateyyyymmdd x
  | .hexstring => x ≠ [] && x.length % 2 = 0 && x.all isHexDigit
  | .string none => true
  | .string (some (.str s)) => x = s
  | .string (some (.num _)) => false
  | .directory | .file | .device => true

end NeonWrt.Luci.Validation
