import NeonWrt.Luci.Datatypes

/-!
# Combining types

All types of `validation.js` read the same `this.value`, and the types that apply other
types to a part of the value write the part there. Whatever is evaluated next, another
alternative or the custom function of the field, then looks at the part. Combinations are
as the combinators promise where every type that is evaluated before something else
leaves the value as it found it.
-/

namespace NeonWrt.Luci.Validation

open Lib

/-- The evaluation of a type on `this.value`: whether it accepts, and what it leaves there; nothing
if it throws. -/
abbrev Check := JsString → Option (Bool × JsString)

/-- A type that only looks at the value. -/
def look (p : JsString → Bool) : Check := fun x => some (p x, x)

/-- `this.apply(type, v)`, which sets the value first. -/
def onto (v : JsString) (c : Check) : Check := fun _ => c v

/-- `c || d` -/
def either (c d : Check) : Check := fun x =>
  (c x).bind fun (accepted, y) => if accepted then some (true, y) else d y

/-- `c && d` -/
def both (c d : Check) : Check := fun x =>
  (c x).bind fun (accepted, y) => if accepted then d y else some (false, y)

/-- `\d{1,n}` -/
def isBits (n : ℕ) (b : JsString) : Bool := isDigits b && b.length ≤ n

/-- `(-)?(\d{1,n})`: whether there is a sign, and the digits. -/
def signedBits (n : ℕ) (b : JsString) : Option (Bool × JsString) :=
  let (neg, digits) := match b with
    | 45 :: digits => (true, digits)
    | _ => (false, b)
  if isBits n digits then some (neg, digits) else none

/-- `ip4addr` -/
def ip4addr (nomask : Bool) : Check := fun x =>
  match x.splitOn 47 with
  | [a] => some ((parseIPv4 a).isSome, x)
  | [a, b] =>
    if nomask ∨ (parseIPv4 a).isNone then some (false, x)
    else if (dotted b).isSome then some ((parseIPv4 b).isSome, x)
    else if isBits 2 b then onto b (look fun x => Test.ip4prefix.accepts x) x
    else some (false, x)
  | _ => some (false, x)

/-- `ip6addr` -/
def ip6addr (nomask : Bool) : Check := fun x =>
  match x.splitOn 47 with
  | [a] => some (isAddressText a && (parseIPv6 a).isSome, x)
  | [a, b] =>
    if nomask ∨ !isAddressText a ∨ !isBits 3 b ∨ (parseIPv6 a).isNone then some (false, x)
    else onto b (look fun x => Test.ip6prefix.accepts x) x
  | _ => some (false, x)

/-- `ipaddr` -/
def ipaddr (nomask : Bool) : Check := either (ip4addr nomask) (ip6addr nomask)

/-- `parseInt(x, 16) | 0`, of which the callers use the last 16 bits. -/
def leadingHex (x : JsString) : BitVec 32 :=
  let (neg, rest) := takeSign (x.dropWhile jsSpace)
  let digits := match rest with
    | 48 :: 120 :: rest | 48 :: 88 :: rest => rest.takeWhile isHexDigit
    | _ => rest.takeWhile isHexDigit
  match toDouble (digitsValue 16 digits) with
  | .fin q => word (if neg then -⌊q⌋ else ⌊q⌋)
  | _ => 0

/-- `this.apply('ip6addr', arg)`: the argument is taken for the value. A number is no text to
match. -/
def ip6addrOf (arg : Option Lit) : Check :=
  match arg with
  | none => ip6addr false
  | some (.str s) => onto s (ip6addr false)
  | some (.num _) => fun _ => none

/-- `ip6ll` -/
def ip6ll (nomask : Option Lit) : Check := fun x =>
  if (leadingHex x &&& 0xffc0) ^^^ 0xfe80 = 0 then ip6addrOf nomask x else some (false, x)

/-- `ip6ula` -/
def ip6ula (nomask : Option Lit) : Check := fun x =>
  if (leadingHex x &&& 0xfe00) ^^^ 0xfc00 = 0 then ip6addrOf nomask x else some (false, x)

/-- `cidr4` -/
def cidr4 (negative : Bool) : Check := fun x =>
  match (splitPair 47 x).bind fun (a, b) => (signedBits 2 b).map fun d => (a, d) with
  | some (a, neg, b) =>
    if isQuad a ∧ (parseIPv4 a).isSome ∧ (negative ∨ !neg) then
      onto b (look fun x => Test.ip4prefix.accepts x) x
    else some (false, x)
  | none => some (false, x)

/-- `cidr6` -/
def cidr6 (negative : Bool) : Check := fun x =>
  match (splitPair 47 x).bind fun (a, b) => (signedBits 3 b).map fun d => (a, d) with
  | some (a, neg, b) =>
    if isAddressText a ∧ (parseIPv6 a).isSome ∧ (negative ∨ !neg) then
      onto b (look fun x => Test.ip6prefix.accepts x) x
    else some (false, x)
  | none => some (false, x)

/-- `cidr` -/
def cidr (negative : Bool) : Check := either (cidr4 negative) (cidr6 negative)

/-- `ipmask4` -/
def ipmask4 (negative : Bool) : Check :=
  either (either (cidr4 negative) (look fun x => Test.ipnet4.accepts x)) (ip4addr false)

/-- `ipmask6` -/
def ipmask6 (negative : Bool) : Check :=
  either (either (cidr6 negative) (look fun x => Test.ipnet6.accepts x)) (ip6addr false)

/-- `ipmask` -/
def ipmask (negative : Bool) : Check := either (ipmask4 negative) (ipmask6 negative)

/-- `host` -/
def host (ipv4only : Bool) : Check :=
  either (look (hostname false)) (if ipv4only then ip4addr true else ipaddr true)

/-- `network` -/
def network : Check :=
  either (either (either (look isWords) (look (hostname false))) (ip4addr false)) (ip6addr false)

/-- `port` -/
def port : Check := look fun x => Test.port.accepts x

/-- `hostport` -/
def hostport (ipv4only : Bool) : Check := fun x =>
  match splitPair 58 x with
  | some (a, b) => both (onto a (host ipv4only)) (onto b port) x
  | none => some (false, x)

/-- `ip4addrport` -/
def ip4addrport : Check := fun x =>
  match splitPair 58 x with
  | some (a, b) => both (onto a (ip4addr true)) (onto b port) x
  | none => some (false, x)

/-- `[` or `]` -/
def isBracket (c : UInt16) : Bool := c = 91 || c = 93

/-- A line terminator, which `.` in a pattern does not match. -/
def isLineEnd (c : UInt16) : Bool := c = 10 || c = 13 || c = 0x2028 || c = 0x2029

/-- The address that the pattern `m6` of `ipaddrport` finds before the last colon. -/
def portAddress (bracket : Bool) (front : JsString) : Option JsString :=
  if bracket then
    match front with
    | 91 :: rest =>
      let inner := rest.dropLast
      if rest.getLast? = some 93 ∧ inner ≠ [] ∧ !inner.any isLineEnd then some inner else none
    | _ => none
  else if front ≠ [] ∧ !front.any isBracket then some front else none

/-- `ipaddrport` -/
def ipaddrport (bracket : Bool) : Check := fun x =>
  match (splitLastColon x).filter fun (_, digits) => isDigits digits with
  | none => some (false, x)
  | some (front, digits) =>
    if front ≠ [] ∧ !front.any (fun c => isBracket c || c = 58) then
      both (onto front (ip4addr true)) (onto digits port) x
    else
      match portAddress bracket front with
      | some a => both (onto a (ip6addr true)) (onto digits port) x
      | none => some (false, x)

/-- `sep`, which takes its argument for the value. -/
def sep (str : Option JsString) : Check := fun x => some (true, str.getD x)

mutual

/-- A datatype expression. The parameters that are conditions are the truth of the argument, or for
`ipv4only` and `bracket` whether it equals 1. A tuple has the types and the separator that its
first loop takes from the arguments. -/
inductive Datatype
  | test (t : Test)
  | ipaddr (nomask : Bool)
  | ip4addr (nomask : Bool)
  | ip6addr (nomask : Bool)
  | ip6ll (nomask : Option Lit)
  | ip6ula (nomask : Option Lit)
  | cidr (negative : Bool)
  | cidr4 (negative : Bool)
  | cidr6 (negative : Bool)
  | ipmask (negative : Bool)
  | ipmask4 (negative : Bool)
  | ipmask6 (negative : Bool)
  | host (ipv4only : Bool)
  | network
  | hostport (ipv4only : Bool)
  | ip4addrport
  | ipaddrport (bracket : Bool)
  | sep (str : Option JsString)
  | tuple (ts : List Datatype) (sep : Option JsString)
  | or (alts : List Alt)
  | and (alts : List Alt)
  | neg (t : Datatype)
  | list (t : Datatype)
  | unique (t : Option Datatype)

/-- An argument of `or` and `and`: a type or a literal. -/
inductive Alt
  | lit (l : Lit)
  | type (t : Datatype)

end

/-- `[ \t]` -/
def isBlank (c : UInt16) : Bool := c = 32 || c = 9

/-- `x.match(/[^ \t]+/g)`: the words between blanks. -/
def words (x : JsString) : List JsString := (x.splitOnP isBlank).filter (· ≠ [])

/-- `x.replace(/^[ \t]*![ \t]*/, '')` -/
def unneg (x : JsString) : JsString :=
  match x.dropWhile isBlank with
  | 33 :: rest => rest.dropWhile isBlank
  | _ => x

/-- One more code unit in the first piece. -/
def consFirst (c : UInt16) : List JsString → List JsString
  | [] => [[c]]
  | p :: ps => (c :: p) :: ps

/-- `x.split(/\s+/)`; the flag says that the last code unit was in a gap. -/
def splitSpaces : JsString → (gap : Bool) → List JsString
  | [], _ => [[]]
  | c :: x, gap =>
    if jsSpace c then
      if gap then splitSpaces x true else [] :: splitSpaces x true
    else consFirst c (splitSpaces x false)

/-- `x.split(s)` for a text that is not empty; the number counts what is left of a separator. -/
def splitText (s : JsString) : JsString → (skip : ℕ) → List JsString
  | [], _ => [[]]
  | _ :: x, skip + 1 => splitText s x skip
  | c :: x, 0 =>
    if s.isPrefixOf (c :: x) then [] :: splitText s x (s.length - 1)
    else consFirst c (splitText s x 0)

/-- The pieces that `tuple` looks at. -/
def pieces (x : JsString) : Option JsString → List JsString
  | none => splitSpaces x false
  | some [] => x.map fun c => trimBy jsSpace [c]
  | some s => (splitText s x 0).map (trimBy jsSpace)

/-- The loop of `list`. -/
def applyAll (c : Check) : List JsString → Check
  | [], y => some (true, y)
  | w :: ws, _ => (c w).bind fun (accepted, y) => if accepted then applyAll c ws y else some (false, y)

mutual

/-- The evaluation of an expression. The values of other fields, which `unique` looks at, are
given. -/
def Datatype.run (others : List JsString) : Datatype → Check
  | .test t => look fun x => t.accepts x
  | .ipaddr nomask => Validation.ipaddr nomask
  | .ip4addr nomask => Validation.ip4addr nomask
  | .ip6addr nomask => Validation.ip6addr nomask
  | .ip6ll nomask => Validation.ip6ll nomask
  | .ip6ula nomask => Validation.ip6ula nomask
  | .cidr negative => Validation.cidr negative
  | .cidr4 negative => Validation.cidr4 negative
  | .cidr6 negative => Validation.cidr6 negative
  | .ipmask negative => Validation.ipmask negative
  | .ipmask4 negative => Validation.ipmask4 negative
  | .ipmask6 negative => Validation.ipmask6 negative
  | .host ipv4only => Validation.host ipv4only
  | .network => Validation.network
  | .hostport ipv4only => Validation.hostport ipv4only
  | .ip4addrport => Validation.ip4addrport
  | .ipaddrport bracket => Validation.ipaddrport bracket
  | .sep str => Validation.sep str
  | .tuple ts s => fun x =>
    if (pieces x s).length = ts.length then runTuple others ts (pieces x s) x else some (false, x)
  | .or alts => runOr others alts
  | .and alts => runAnd others alts
  | .neg t => fun x => t.run others (unneg x)
  | .list t => fun x =>
    if words x = [] then none else applyAll (t.run others) (words x) x
  | .unique none => look fun x => !others.contains x
  | .unique (some t) => fun x => if others.contains x then some (false, x) else t.run others x

/-- The loop of `tuple`. -/
def runTuple (others : List JsString) : List Datatype → List JsString → Check
  | t :: ts, w :: ws, _ =>
    (t.run others w).bind fun (accepted, y) =>
      if accepted then runTuple others ts ws y else some (false, y)
  | _, _, y => some (true, y)

/-- One alternative, on its own. -/
def Alt.run (others : List JsString) : Alt → Check
  | .lit l => look fun x => l.looseEq x
  | .type t => t.run others

/-- The loop of `or`. -/
def runOr (others : List JsString) : List Alt → Check
  | [], x => some (false, x)
  | a :: alts, x => (a.run others x).bind fun (accepted, y) =>
    if accepted then some (true, y) else runOr others alts y

/-- The loop of `and`. -/
def runAnd (others : List JsString) : List Alt → Check
  | [], x => some (true, x)
  | a :: alts, x => (a.run others x).bind fun (accepted, y) =>
    if accepted then runAnd others alts y else some (false, y)

end

/-- The loop over the custom functions: the result, and the values that they were called with. A
function returns true, or a message. -/
def callAll : List (JsString → Bool) → JsString → Bool × List JsString
  | [], _ => (true, [])
  | f :: fs, y =>
    if f y then
      let (valid, calls) := callAll fs y
      (valid, y :: calls)
    else (false, [y])

/-- `validate`, of a field that is in the document. -/
def validate (others : List JsString) (optional : Bool) (t : Datatype)
    (vfuncs : List (JsString → Bool)) (x : JsString) : Option (Bool × List JsString) :=
  (if x = [] then some (optional, x) else t.run others x).map fun (accepted, y) =>
    if accepted then callAll vfuncs y else (false, [])

section Combining

variable {others : List JsString} {x y : JsString} {t : Datatype} {a u : Alt} {alts : List Alt}

/-- A type accepts a value on its own. -/
def Accepts (c : Check) (x : JsString) : Prop := ∃ y, c x = some (true, y)

/-- A type leaves the value as it was. -/
def Keeps (c : Check) (x : JsString) : Prop := ∃ accepted, c x = some (accepted, x)

/-- The verdict of an alternative that leaves the value. -/
theorem Keeps.cases {c : Check} (h : Keeps c x) :
    c x = some (true, x) ∨ c x = some (false, x) := by
  obtain ⟨accepted, hrun⟩ := h
  cases accepted with
  | true => exact Or.inl hrun
  | false => exact Or.inr hrun

/-- The alternatives that are evaluated before another one leave the value. -/
def OrSafe (others : List JsString) : List Alt → JsString → Prop
  | [], _ => True
  | a :: alts, x => Accepts (a.run others) x ∨ Keeps (a.run others) x ∧ OrSafe others alts x

/-- The conjuncts that are evaluated before another one leave the value. -/
def AndSafe (others : List JsString) : List Alt → JsString → Prop
  | [], _ => True
  | a :: alts, x => ¬ Accepts (a.run others) x ∨ Keeps (a.run others) x ∧ AndSafe others alts x

theorem OrSafe.of_prefix {p : List Alt} (h : OrSafe others alts x) (hp : p <+: alts) :
    OrSafe others p x := by
  induction p generalizing alts with
  | nil => trivial
  | cons a p ih =>
    obtain ⟨rest, rfl⟩ := hp
    rcases h with haccepts | ⟨hkeeps, hrest⟩
    · exact Or.inl haccepts
    · exact Or.inr ⟨hkeeps, ih hrest ⟨rest, rfl⟩⟩

theorem AndSafe.of_prefix {p : List Alt} (h : AndSafe others alts x) (hp : p <+: alts) :
    AndSafe others p x := by
  induction p generalizing alts with
  | nil => trivial
  | cons a p ih =>
    obtain ⟨rest, rfl⟩ := hp
    rcases h with hnot | ⟨hkeeps, hrest⟩
    · exact Or.inl hnot
    · exact Or.inr ⟨hkeeps, ih hrest ⟨rest, rfl⟩⟩

theorem runOr_cons_of_accepts (h : Accepts (a.run others) x) :
    Accepts (runOr others (a :: alts)) x := by
  obtain ⟨y, hy⟩ := h
  exact ⟨y, by rw [runOr, hy]; rfl⟩

theorem runOr_cons_of_rejects (h : a.run others x = some (false, y)) :
    runOr others (a :: alts) x = runOr others alts y := by
  rw [runOr, h]
  rfl

theorem runAnd_cons_of_accepts (h : a.run others x = some (true, y)) :
    runAnd others (a :: alts) x = runAnd others alts y := by
  rw [runAnd, h]
  rfl

theorem runAnd_cons_of_not (h : ¬ Accepts (a.run others) x) :
    ¬ Accepts (runAnd others (a :: alts)) x := by
  rintro ⟨z, hz⟩
  rw [runAnd] at hz
  obtain ⟨⟨accepted, y⟩, hrun, hrest⟩ := Option.bind_eq_some_iff.mp hz
  cases accepted with
  | true => exact h ⟨y, hrun⟩
  | false => exact absurd hrest (by simp)

/-- Behind alternatives that leave the value, `or` is the disjunction. -/
theorem accepts_or_of_safe (h : OrSafe others alts x) (u : Alt) :
    Accepts (runOr others (alts ++ [u])) x ↔ ∃ a ∈ alts ++ [u], Accepts (a.run others) x := by
  induction alts with
  | nil =>
    -- the last alternative may do as it likes
    rw [List.nil_append]
    constructor
    · rintro ⟨z, hz⟩
      obtain ⟨⟨accepted, y⟩, hrun, hrest⟩ := Option.bind_eq_some_iff.mp (runOr.eq_2 .. ▸ hz)
      cases accepted with
      | true => exact ⟨u, by simp, y, hrun⟩
      | false => exact absurd hrest (by simp [runOr])
    · rintro ⟨a, ha, haccepts⟩
      rw [List.mem_singleton.mp ha] at haccepts
      exact runOr_cons_of_accepts haccepts
  | cons a alts ih =>
    rcases h with haccepts | ⟨hkeeps, hrest⟩
    · exact iff_of_true (runOr_cons_of_accepts haccepts) ⟨a, by simp, haccepts⟩
    · rcases hkeeps.cases with hrun | hrun
      · exact iff_of_true (runOr_cons_of_accepts ⟨x, hrun⟩) ⟨a, by simp, x, hrun⟩
      · have hnot : ¬ Accepts (a.run others) x := by
          rintro ⟨z, hz⟩
          simp [hrun] at hz
        have hsame := ih hrest
        rw [List.cons_append, Accepts, runOr_cons_of_rejects hrun]
        refine hsame.trans ?_
        simp [hnot]

/-- Behind conjuncts that leave the value, `and` is the conjunction. -/
theorem accepts_and_of_safe (h : AndSafe others alts x) (u : Alt) :
    Accepts (runAnd others (alts ++ [u])) x ↔ ∀ a ∈ alts ++ [u], Accepts (a.run others) x := by
  induction alts with
  | nil =>
    rw [List.nil_append]
    constructor
    · intro haccepts a ha
      rw [List.mem_singleton.mp ha]
      by_contra hnot
      exact runAnd_cons_of_not hnot haccepts
    · intro hall
      obtain ⟨y, hy⟩ := hall u (by simp)
      exact ⟨y, by rw [runAnd_cons_of_accepts hy, runAnd]⟩
  | cons a alts ih =>
    rcases h with hnot | ⟨hkeeps, hrest⟩
    · exact iff_of_false (runAnd_cons_of_not hnot) fun hall => hnot (hall a (by simp))
    · rcases hkeeps.cases with hrun | hrun
      · have haccepts : Accepts (a.run others) x := ⟨x, hrun⟩
        have hsame := ih hrest
        rw [List.cons_append, Accepts, runAnd_cons_of_accepts hrun]
        refine hsame.trans ?_
        simp [haccepts]
      · have hnot : ¬ Accepts (a.run others) x := by
          rintro ⟨z, hz⟩
          simp [hrun] at hz
        exact iff_of_false (runAnd_cons_of_not hnot) fun hall => hnot (hall a (by simp))

/-- The type that accepts one value only. -/
def exactly (x : JsString) : Alt := .type (.test (.string (some (.str x))))

theorem accepts_exactly : Accepts ((exactly x).run others) y ↔ y = x := by
  simp [Accepts, exactly, Alt.run, Datatype.run, look, Test.accepts]

/-- Only behind alternatives that leave the value, `or` is the disjunction whatever comes next. -/
theorem orSafe_of_accepts_or (h : ∀ p, p <+: alts → ∀ u,
    (Accepts (runOr others (p ++ [u])) x ↔ ∃ a ∈ p ++ [u], Accepts (a.run others) x)) :
    OrSafe others alts x := by
  induction alts with
  | nil => trivial
  | cons a alts ih =>
    by_cases haccepts : Accepts (a.run others) x
    · exact Or.inl haccepts
    · right
      -- what comes next may accept the value itself and nothing else
      have hone := (h [a] ⟨alts, rfl⟩ (exactly x)).mpr
        ⟨exactly x, by simp, accepts_exactly.mpr rfl⟩
      obtain ⟨z, hz⟩ := hone
      obtain ⟨⟨accepted, y⟩, hrun, hrest⟩ := Option.bind_eq_some_iff.mp (runOr.eq_2 .. ▸ hz)
      have hfalse : a.run others x = some (false, x) := by
        cases accepted with
        | true => exact absurd ⟨y, hrun⟩ haccepts
        | false =>
          by_cases hy : Accepts ((exactly x).run others) y
          · rw [accepts_exactly.mp hy] at hrun
            exact hrun
          · -- nothing accepts the part
            have hlast := (@accepts_or_of_safe others y [] trivial (exactly x)).mp ⟨z, hrest⟩
            simp [hy] at hlast
      refine ⟨⟨false, hfalse⟩, ih fun p hp u => ?_⟩
      obtain ⟨rest, rfl⟩ := hp
      have hcons := h (a :: p) ⟨rest, rfl⟩ u
      rw [List.cons_append, Accepts, runOr_cons_of_rejects hfalse] at hcons
      refine hcons.trans ?_
      simp [haccepts]

/-- Only behind conjuncts that leave the value, `and` is the conjunction whatever comes next. -/
theorem andSafe_of_accepts_and (h : ∀ p, p <+: alts → ∀ u,
    (Accepts (runAnd others (p ++ [u])) x ↔ ∀ a ∈ p ++ [u], Accepts (a.run others) x)) :
    AndSafe others alts x := by
  induction alts with
  | nil => trivial
  | cons a alts ih =>
    by_cases haccepts : Accepts (a.run others) x
    · right
      obtain ⟨y, hrun⟩ := haccepts
      have hone := (h [a] ⟨alts, rfl⟩ (exactly x)).mpr (by
        intro b hb
        rcases List.mem_cons.mp hb with rfl | hb
        · exact ⟨y, hrun⟩
        · rw [List.mem_singleton.mp hb]
          exact accepts_exactly.mpr rfl)
      rw [List.cons_append, Accepts, runAnd_cons_of_accepts hrun] at hone
      have hy : y = x := by
        have hlast := (@accepts_and_of_safe others y [] trivial (exactly x)).mp hone
        exact accepts_exactly.mp (hlast (exactly x) (by simp))
      subst hy
      refine ⟨⟨true, hrun⟩, ih fun p hp u => ?_⟩
      obtain ⟨rest, rfl⟩ := hp
      have hcons := h (a :: p) ⟨rest, rfl⟩ u
      rw [List.cons_append, Accepts, runAnd_cons_of_accepts hrun] at hcons
      refine hcons.trans ?_
      have haccepts : Accepts (a.run others) y := ⟨y, hrun⟩
      simp [haccepts]
    · exact Or.inl haccepts

/-- Exactly behind alternatives that leave the value, `or` is the disjunction whatever comes
next. -/
theorem accepts_or_iff_orSafe :
    (∀ p, p <+: alts → ∀ u,
      (Accepts (runOr others (p ++ [u])) x ↔ ∃ a ∈ p ++ [u], Accepts (a.run others) x)) ↔
    OrSafe others alts x := by
  refine ⟨orSafe_of_accepts_or, fun h p hp u => accepts_or_of_safe ?_ u⟩
  exact h.of_prefix hp

/-- Exactly behind conjuncts that leave the value, `and` is the conjunction whatever comes
next. -/
theorem accepts_and_iff_andSafe :
    (∀ p, p <+: alts → ∀ u,
      (Accepts (runAnd others (p ++ [u])) x ↔ ∀ a ∈ p ++ [u], Accepts (a.run others) x)) ↔
    AndSafe others alts x := by
  refine ⟨andSafe_of_accepts_and, fun h p hp u => accepts_and_of_safe ?_ u⟩
  exact h.of_prefix hp

/-- The loop of `list` sets the value for each word, so nothing is left behind. -/
theorem accepts_applyAll {c : Check} {ws : List JsString} :
    Accepts (applyAll c ws) y ↔ ∀ w ∈ ws, Accepts c w := by
  induction ws generalizing y with
  | nil => exact iff_of_true ⟨y, rfl⟩ (by simp)
  | cons w ws ih =>
    rw [List.forall_mem_cons]
    constructor
    · rintro ⟨z, hz⟩
      obtain ⟨⟨accepted, y'⟩, hrun, hrest⟩ := Option.bind_eq_some_iff.mp hz
      cases accepted with
      | true => exact ⟨⟨y', hrun⟩, ih.mp ⟨z, hrest⟩⟩
      | false => exact absurd hrest (by simp)
    · rintro ⟨⟨y', hrun⟩, hws⟩
      obtain ⟨z, hz⟩ := ih.mpr hws
      refine ⟨z, ?_⟩
      rw [applyAll, hrun]
      exact hz

/-- `list` accepts if its words are accepted, except for blanks only: then there is no match to
loop over, and it throws. -/
theorem accepts_list_iff :
    (Accepts ((Datatype.list t).run others) x ↔ ∀ w ∈ words x, Accepts (t.run others) w) ↔
    words x ≠ [] := by
  by_cases hwords : words x = []
  · refine iff_of_false (fun h => ?_) (fun h => h hwords)
    obtain ⟨y, hy⟩ := h.mpr (by simp [hwords])
    simp [Datatype.run, hwords] at hy
  · refine iff_of_true ?_ hwords
    rw [← accepts_applyAll (y := x)]
    simp only [Accepts, Datatype.run, if_neg hwords]

/-- The custom functions are called with one value. -/
theorem eq_of_mem_callAll {fs : List (JsString → Bool)} {v : JsString}
    (h : v ∈ (callAll fs y).2) : v = y := by
  induction fs with
  | nil => cases h
  | cons f fs ih =>
    rw [callAll] at h
    split at h
    · rcases List.mem_cons.mp h with rfl | h
      · rfl
      · exact ih h
    · exact List.mem_singleton.mp h

/-- The custom functions are called with the field's own value exactly when the type does not
accept it or leaves it. -/
theorem calls_own_value_iff :
    (∀ optional vfuncs result, validate others optional t vfuncs x = some result →
      ∀ v ∈ result.2, v = x) ↔
    x = [] ∨ ¬ Accepts (t.run others) x ∨ Keeps (t.run others) x := by
  constructor
  · intro h
    by_contra! hno
    obtain ⟨hx, ⟨y, hy⟩, hkeeps⟩ := hno
    -- a function that agrees to everything shows what the type left
    have hcall := h false [fun _ => true] (true, [y])
      (by simp [validate, hx, hy, callAll]) y (by simp)
    rw [hcall] at hy
    exact hkeeps ⟨true, hy⟩
  · intro h optional vfuncs result hresult v hv
    obtain ⟨⟨accepted, y⟩, hrun, hrest⟩ := Option.map_eq_some_iff.mp hresult
    cases accepted with
    | false =>
      rw [← hrest] at hv
      cases hv
    | true =>
      have hy : y = x := by
        by_cases hx : x = []
        · rw [if_pos hx] at hrun
          simp_all
        · rw [if_neg hx] at hrun
          rcases h with h | h | ⟨accepted, hkeeps⟩
          · exact absurd h hx
          · exact absurd ⟨y, hrun⟩ h
          · rw [hkeeps] at hrun
            simp_all
      rw [← hrest] at hv
      rw [← hy]
      exact eq_of_mem_callAll hv

theorem keeps_look (p : JsString → Bool) (x : JsString) : Keeps (look p) x := ⟨p x, rfl⟩

theorem keeps_reject {c : Check} (h : c x = some (false, x)) : Keeps c x := ⟨false, h⟩

theorem Keeps.either {c d : Check} (hc : Keeps c x) (hd : Keeps d x) : Keeps (either c d) x := by
  rcases hc.cases with hrun | hrun
  · exact ⟨true, by rw [Validation.either, hrun]; rfl⟩
  · obtain ⟨accepted, hrest⟩ := hd
    exact ⟨accepted, by rw [Validation.either, hrun]; exact hrest⟩

theorem splitOn_of_splitPair {c : UInt16} {a b : JsString} (h : splitPair c x = some (a, b)) :
    x.splitOn c = [a, b] := by
  unfold splitPair at h
  split at h
  · next a' b' hsplit =>
    obtain ⟨rfl, rfl⟩ : a' = a ∧ b' = b := by simpa using h
    exact hsplit
  · cases h

/-- The two parts around the only separator of a text. -/
theorem eq_of_splitPair {c : UInt16} {a b : JsString} (h : splitPair c x = some (a, b)) :
    x = a ++ c :: b := by
  have hjoin : [c].intercalate (x.splitOn c) = x := List.intercalate_splitOn c
  rw [splitOn_of_splitPair h] at hjoin
  rw [← hjoin]
  simp [List.intercalate]

theorem length_lt_of_splitPair {c : UInt16} {a b : JsString} (h : splitPair c x = some (a, b)) :
    a.length < x.length ∧ b.length < x.length := by
  rw [eq_of_splitPair h]
  simp only [List.length_append, List.length_cons]
  omega

/-- A type leaves less than the value. -/
def Cuts (c : Check) (x : JsString) : Prop :=
  ∃ accepted y, c x = some (accepted, y) ∧ y.length < x.length

theorem Cuts.not_keeps {c : Check} (h : Cuts c x) : ¬ Keeps c x := by
  obtain ⟨accepted, y, hy, hlt⟩ := h
  rintro ⟨accepted', hx⟩
  rw [hy, Option.some.injEq, Prod.mk.injEq] at hx
  rw [hx.2] at hlt
  exact lt_irrefl _ hlt

/-- A type that writes a part of the value under a condition leaves the value otherwise. -/
theorem keeps_guarded_iff {c : Check} {P : Prop} [Decidable P] {b : JsString}
    {p : JsString → Bool} (hb : b.length < x.length)
    (hrun : c x = if P then onto b (look p) x else some (false, x)) : Keeps c x ↔ ¬ P := by
  by_cases hP : P
  · rw [if_pos hP] at hrun
    refine iff_of_false ?_ (not_not_intro hP)
    exact Cuts.not_keeps ⟨p b, b, hrun, hb⟩
  · rw [if_neg hP] at hrun
    exact iff_of_true (keeps_reject hrun) hP

/-- An IPv4 address with a prefix length of decimal digits behind it. -/
def isPrefix4 (x : JsString) : Bool :=
  (splitPair 47 x).any fun (a, b) => (parseIPv4 a).isSome && (dotted b).isNone && isBits 2 b

/-- `ip4addr` leaves all but an address with its prefix length, of which it leaves the length. -/
theorem keeps_ip4addr_iff {nomask : Bool} :
    Keeps (ip4addr nomask) x ↔ ¬ (!nomask && isPrefix4 x) := by
  cases hpair : splitPair 47 x with
  | none =>
    refine iff_of_true ?_ (by simp [isPrefix4, hpair])
    unfold splitPair at hpair
    unfold Keeps ip4addr
    split
    · exact ⟨_, rfl⟩
    · simp_all
    · exact ⟨_, rfl⟩
  | some parts =>
    obtain ⟨a, b⟩ := parts
    by_cases hdot : (dotted b).isSome
    · -- a dotted mask is only looked at
      refine iff_of_true ?_ ?_
      · unfold Keeps ip4addr
        rw [splitOn_of_splitPair hpair]
        simp only [if_pos hdot]
        split_ifs
        · exact ⟨_, rfl⟩
        · exact ⟨_, rfl⟩
      · simp [isPrefix4, hpair, Option.isSome_iff_ne_none.mp hdot]
    · apply keeps_guarded_iff (p := fun x => Test.ip4prefix.accepts x)
        (length_lt_of_splitPair hpair).2
      rw [ip4addr, splitOn_of_splitPair hpair]
      simp only [isPrefix4, hpair, Option.any_some, if_neg hdot]
      split_ifs <;> simp_all

/-- An IPv6 address with a prefix length behind it. -/
def isPrefix6 (x : JsString) : Bool :=
  (splitPair 47 x).any fun (a, b) => isAddressText a && (parseIPv6 a).isSome && isBits 3 b

/-- `ip6addr` leaves all but an address with its prefix length, of which it leaves the length. -/
theorem keeps_ip6addr_iff {nomask : Bool} :
    Keeps (ip6addr nomask) x ↔ ¬ (!nomask && isPrefix6 x) := by
  cases hpair : splitPair 47 x with
  | none =>
    refine iff_of_true ?_ (by simp [isPrefix6, hpair])
    unfold splitPair at hpair
    unfold Keeps ip6addr
    split
    · exact ⟨_, rfl⟩
    · simp_all
    · exact ⟨_, rfl⟩
  | some parts =>
    obtain ⟨a, b⟩ := parts
    apply keeps_guarded_iff (p := fun x => Test.ip6prefix.accepts x)
      (length_lt_of_splitPair hpair).2
    rw [ip6addr, splitOn_of_splitPair hpair]
    simp only [isPrefix6, hpair, Option.any_some]
    split_ifs <;> simp_all

/-- Without masks, addresses are only looked at. -/
theorem keeps_host {ipv4only : Bool} : Keeps (host ipv4only) x := by
  have h4 : Keeps (ip4addr true) x := keeps_ip4addr_iff.mpr (by simp)
  have h6 : Keeps (ip6addr true) x := keeps_ip6addr_iff.mpr (by simp)
  apply (keeps_look _ x).either
  cases ipv4only with
  | true => exact h4
  | false => exact h4.either h6

end Combining

mutual

/-- All types of an expression leave every value: addresses have no prefix lengths, and no part of
the value is taken. -/
def Datatype.Looks : Datatype → Prop
  | .test _ | .host _ | .sep none | .unique none => True
  | .ipaddr nomask | .ip4addr nomask | .ip6addr nomask => nomask
  | .or alts | .and alts => AllLook alts
  | .unique (some t) => t.Looks
  | _ => False

/-- A literal, or a type that leaves every value. -/
def Alt.Looks : Alt → Prop
  | .lit _ => True
  | .type t => t.Looks

/-- All of some arguments leave every value. -/
def AllLook : List Alt → Prop
  | [] => True
  | a :: alts => a.Looks ∧ AllLook alts

end

mutual

theorem Datatype.Looks.keeps (others : List JsString) (x : JsString) :
    ∀ t : Datatype, t.Looks → Keeps (t.run others) x
  | .test t, _ => keeps_look _ x
  | .host _, _ => keeps_host
  | .sep none, _ => ⟨true, rfl⟩
  | .unique none, _ => keeps_look _ x
  | .ip4addr nomask, h => keeps_ip4addr_iff.mpr (by simp_all [Datatype.Looks])
  | .ip6addr nomask, h => keeps_ip6addr_iff.mpr (by simp_all [Datatype.Looks])
  | .ipaddr nomask, h =>
    (keeps_ip4addr_iff.mpr (by simp_all [Datatype.Looks])).either
      (keeps_ip6addr_iff.mpr (by simp_all [Datatype.Looks]))
  | .or alts, h => (AllLook.keeps others x alts h).1
  | .and alts, h => (AllLook.keeps others x alts h).2
  | .unique (some t), h => by
    obtain ⟨accepted, hrun⟩ := Datatype.Looks.keeps others x t h
    by_cases hother : others.contains x
    · exact ⟨false, by simp only [Datatype.run, if_pos hother]⟩
    · exact ⟨accepted, by simp only [Datatype.run, if_neg hother, hrun]⟩

theorem Alt.Looks.keeps (others : List JsString) (x : JsString) :
    ∀ a : Alt, a.Looks → Keeps (a.run others) x
  | .lit _, _ => keeps_look _ x
  | .type t, h => Datatype.Looks.keeps others x t h

theorem AllLook.keeps (others : List JsString) (x : JsString) :
    ∀ alts : List Alt, AllLook alts → Keeps (runOr others alts) x ∧ Keeps (runAnd others alts) x
  | [], _ => ⟨⟨false, rfl⟩, ⟨true, rfl⟩⟩
  | a :: alts, h => by
    have hrest := AllLook.keeps others x alts h.2
    rcases (Alt.Looks.keeps others x a h.1).cases with hrun | hrun
    · refine ⟨⟨true, ?_⟩, ?_⟩
      · rw [runOr, hrun]
        rfl
      · rw [Keeps, runAnd_cons_of_accepts hrun]
        exact hrest.2
    · refine ⟨?_, ⟨false, ?_⟩⟩
      · rw [Keeps, runOr_cons_of_rejects hrun]
        exact hrest.1
      · rw [runAnd, hrun]
        rfl

end

/-- Types that only look combine as they should, in any order. -/
theorem safe_of_allLook {others : List JsString} {x : JsString} {alts : List Alt}
    (h : AllLook alts) : OrSafe others alts x ∧ AndSafe others alts x := by
  induction alts with
  | nil => exact ⟨trivial, trivial⟩
  | cons a alts ih =>
    have hkeeps := Alt.Looks.keeps others x a h.1
    exact ⟨Or.inr ⟨hkeeps, (ih h.2).1⟩, Or.inr ⟨hkeeps, (ih h.2).2⟩⟩

theorem safe_of_allLook_port :
    OrSafe [] [.type (.test .uinteger), .type (.host true)] (units "80") ∧
      AndSafe [] [.type (.test .uinteger), .type (.host true)] (units "80") :=
  safe_of_allLook (by simp [AllLook, Alt.Looks, Datatype.Looks])

/-- For all expressions and values, `or` is the disjunction and `and` the conjunction of the types
on their own, whatever comes last, exactly if the types before it leave the value; `list` is about
all words exactly if there is one; `neg` is about the value without the mark; and the custom
functions get the field's own value exactly if the type leaves what it accepts. -/
theorem combinators_compose_iff (others : List JsString) (x : JsString) (alts : List Alt)
    (t : Datatype) :
    ((∀ p, p <+: alts → ∀ u,
        (Accepts ((Datatype.or (p ++ [u])).run others) x ↔
          ∃ a ∈ p ++ [u], Accepts (a.run others) x)) ↔
      OrSafe others alts x) ∧
    ((∀ p, p <+: alts → ∀ u,
        (Accepts ((Datatype.and (p ++ [u])).run others) x ↔
          ∀ a ∈ p ++ [u], Accepts (a.run others) x)) ↔
      AndSafe others alts x) ∧
    ((Accepts ((Datatype.list t).run others) x ↔ ∀ w ∈ words x, Accepts (t.run others) w) ↔
      words x ≠ []) ∧
    (Accepts ((Datatype.neg t).run others) x ↔ Accepts (t.run others) (unneg x)) ∧
    ((∀ optional vfuncs result, validate others optional t vfuncs x = some result →
        ∀ v ∈ result.2, v = x) ↔
      x = [] ∨ ¬ Accepts (t.run others) x ∨ Keeps (t.run others) x) :=
  ⟨accepts_or_iff_orSafe, accepts_and_iff_andSafe, accepts_list_iff, Iff.rfl, calls_own_value_iff⟩

/-- An address is not accepted for its prefix length of 33, which the next type takes for a number;
and the custom function of a field for a prefix is called with its length. -/
theorem not_combinators_compose :
    ¬ (Accepts ((Datatype.or [.type (.ip4addr false), .type (.test .uinteger)]).run [])
          (units "1.2.3.4/33") ↔
        ∃ a ∈ [Alt.type (.ip4addr false), .type (.test .uinteger)],
          Accepts (a.run []) (units "1.2.3.4/33")) ∧
    ¬ ∀ optional vfuncs result,
        validate [] optional (.ip4addr false) vfuncs (units "192.168.1.0/24") = some result →
        ∀ v ∈ result.2, v = units "192.168.1.0/24" := by
  constructor
  · intro hor
    have haccepts : Accepts ((Datatype.or [.type (.ip4addr false), .type (.test .uinteger)]).run [])
        (units "1.2.3.4/33") := ⟨units "33", by decide +kernel⟩
    obtain ⟨a, ha, y, hy⟩ := hor.mp haccepts
    simp only [List.mem_cons, List.not_mem_nil, or_false] at ha
    rcases ha with rfl | rfl
    · have hrun : (Alt.type (.ip4addr false)).run [] (units "1.2.3.4/33") =
          some (false, units "33") := by decide +kernel
      simp [hrun] at hy
    · have hrun : (Alt.type (.test .uinteger)).run [] (units "1.2.3.4/33") =
          some (false, units "1.2.3.4/33") := by decide +kernel
      simp [hrun] at hy
  · intro hcalls
    have hcall := hcalls false [fun _ => true] (true, [units "24"]) (by decide +kernel)
      (units "24") (by simp)
    exact absurd hcall (by decide +kernel)

end NeonWrt.Luci.Validation
