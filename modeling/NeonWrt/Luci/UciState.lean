import NeonWrt.Lib.JsObject
import NeonWrt.Lib.StableSort

/-!
# Pending edits in the browser

`uci.js` keeps a loaded configuration as it came from the server and notes every edit
in tables beside it: sections that were created, options that were changed or deleted,
sections that were removed, and configurations that were reordered. Reads overlay the
tables on the loaded values, each in its own way, and `save` turns them into remote
calls.
-/

namespace NeonWrt.Luci.UciJs

open Lib

/-- An option value: a string or a list of strings. -/
inductive Val
  | str (s : JsString)
  | list (l : List JsString)
  deriving DecidableEq

/-- A section object; the fields are its properties with a dot. -/
structure Sec where
  type : JsString
  name : Option JsString
  create : Option JsString
  index : ℕ
  opts : JsObject Val

/-- An entry of `deletes`: the whole section, or some of its options. -/
inductive Del
  | all
  | opts (o : JsObject Unit)

/-- `d[conf]?.[sid] === true` -/
def markedAll : Option Del → Bool
  | some .all => true
  | _ => false

theorem markedAll_eq_true_iff {d : Option Del} : markedAll d = true ↔ d = some .all := by
  rcases d with - | - | o <;> simp [markedAll]

/-- A table under configurations and section names. -/
abbrev Table (α : Type) := JsObject (JsObject α)

/-- `this.state` -/
structure State where
  newidx : ℕ
  values : Table Sec
  creates : Table Sec
  changes : Table (JsObject Val)
  deletes : Table Del
  reorder : JsObject Unit

/-- `t[conf]?.[sid]` -/
def Table.at {α : Type} (t : Table α) (conf sid : JsString) : Option α :=
  (t.get? conf).bind (·.get? sid)

/-- `t[conf] ??= { }` -/
def Table.ensure {α : Type} (t : Table α) (conf : JsString) : Table α :=
  match t.get? conf with
  | some _ => t
  | none => t.set conf ∅

/-- `t[conf][sid] = v`, where `t[conf]` is there. -/
def Table.put {α : Type} (t : Table α) (conf sid : JsString) (v : α) : Table α :=
  match t.get? conf with
  | some o => t.set conf (o.set sid v)
  | none => t

/-- `delete t[conf]?.[sid]` -/
def Table.drop {α : Type} (t : Table α) (conf sid : JsString) : Table α :=
  match t.get? conf with
  | some o => t.set conf (o.del sid)
  | none => t

section Tables

variable {α : Type} {t : Table α} {conf conf' sid sid' : JsString} {v : α}

@[simp] theorem Table.at_empty : Table.at (∅ : Table α) conf sid = none := rfl

theorem Table.at_eq_some_iff : t.at conf sid = some v ↔
    ∃ o, t.get? conf = some o ∧ o.get? sid = some v := Option.bind_eq_some_iff

theorem Table.isSome_get?_of_at (h : t.at conf sid = some v) : (t.get? conf).isSome := by
  obtain ⟨o, ho, -⟩ := Table.at_eq_some_iff.mp h
  rw [ho]
  rfl

@[simp] theorem Table.at_ensure : (t.ensure conf).at conf' sid = t.at conf' sid := by
  unfold Table.ensure
  cases h : t.get? conf with
  | some o => rfl
  | none =>
    unfold Table.at
    by_cases hc : conf' = conf
    · subst hc
      rw [JsObject.get?_set_self, h]
      rfl
    · rw [JsObject.get?_set_of_ne hc]

theorem Table.isSome_get?_ensure : ((t.ensure conf).get? conf).isSome := by
  unfold Table.ensure
  cases h : t.get? conf with
  | some o => rw [h]; rfl
  | none => rw [JsObject.get?_set_self]; rfl

/-- A lookup after an assignment in a configuration that is there. -/
theorem Table.at_put (h : (t.get? conf).isSome) : (t.put conf sid v).at conf' sid' =
    if conf' = conf ∧ sid' = sid then some v else t.at conf' sid' := by
  obtain ⟨o, ho⟩ := Option.isSome_iff_exists.mp h
  unfold Table.put Table.at
  rw [ho]
  by_cases hc : conf' = conf
  · subst hc
    rw [JsObject.get?_set_self, ho, Option.bind_some, Option.bind_some, JsObject.get?_set]
    simp
  · rw [JsObject.get?_set_of_ne hc, if_neg fun hne => hc hne.1]

theorem Table.at_put_ensure : ((t.ensure conf).put conf sid v).at conf' sid' =
    if conf' = conf ∧ sid' = sid then some v else t.at conf' sid' := by
  rw [Table.at_put Table.isSome_get?_ensure, Table.at_ensure]

theorem Table.at_drop : (t.drop conf sid).at conf' sid' =
    if conf' = conf ∧ sid' = sid then none else t.at conf' sid' := by
  unfold Table.drop
  cases h : t.get? conf with
  | none =>
    by_cases hc : conf' = conf ∧ sid' = sid
    · rw [if_pos hc, hc.1, Table.at, h]
      rfl
    · rw [if_neg hc]
  | some o =>
    unfold Table.at
    by_cases hc : conf' = conf
    · subst hc
      rw [JsObject.get?_set_self, h, Option.bind_some, Option.bind_some, JsObject.get?_del]
      simp
    · rw [JsObject.get?_set_of_ne hc, if_neg fun hne => hc hne.1]

theorem Table.isSome_get?_put : ((t.put conf sid v).get? conf').isSome = (t.get? conf').isSome := by
  unfold Table.put
  cases h : t.get? conf with
  | none => rfl
  | some o =>
    by_cases hc : conf' = conf
    · subst hc
      rw [JsObject.get?_set_self, h]
      rfl
    · rw [JsObject.get?_set_of_ne hc]

/-- Assigning the entry that is there changes nothing. -/
theorem Table.put_at (h : t.at conf sid = some v) : t.put conf sid v = t := by
  obtain ⟨o, ho, hv⟩ := Table.at_eq_some_iff.mp h
  unfold Table.put
  rw [ho]
  change t.set conf (o.set sid v) = t
  rw [JsObject.set_get? hv, JsObject.set_get? ho]

end Tables

/-- `Object.assign({ }, s, c)` -/
def overlay (s : Sec) (c : Option (JsObject Val)) : Sec :=
  { s with opts := (c.elim [] (·.entries)).foldl (fun o e => o.set e.1 e.2) s.opts }

/-- The sort by `.index`, which is stable. -/
def sortByIndex (l : List Sec) : List Sec := sortOn (·.index) l

/-- The sections of `sections` before they are sorted. -/
def shown (s : State) (conf : JsString) (v : JsObject Sec) : List Sec :=
  (v.entries.filter fun e => !markedAll (s.deletes.at conf e.1)).map
      (fun e => overlay e.2 (s.changes.at conf e.1)) ++
    ((s.creates.get? conf).elim [] (·.entries)).map (·.2)

/-- `sections(conf, type)`. The test of the type comes before the changes are overlaid, which do
not touch it. -/
def sections (s : State) (conf : JsString) (type : Option JsString) : List Sec :=
  match s.values.get? conf with
  | none => []
  | some v =>
    let sa := sortByIndex ((shown s conf v).filter fun x => type.all fun t => t = [] || t = x.type)
    sa.mapIdx fun i x => { x with index := i }

/-- The parts of `@type[pos]`. -/
def parseExtended (sid : JsString) : Option (JsString × ℤ) :=
  let isTypeChar (c : UInt16) : Bool :=
    (97 ≤ c && c ≤ 122) || (65 ≤ c && c ≤ 90) || (48 ≤ c && c ≤ 57) || c = 95 || c = 45
  match sid with
  | 64 :: rest =>
    let type := rest.takeWhile isTypeChar
    match rest.dropWhile isTypeChar with
    | 91 :: rest =>
      let neg := rest.head? = some 45
      let rest := if neg then rest.tail else rest
      let digits := rest.takeWhile fun c => 48 ≤ c && c ≤ 57
      let n : ℤ := digits.foldl (fun n c => 10 * n + (c.toNat - 48 : ℤ)) 0
      if type ≠ [] ∧ digits ≠ [] ∧ rest.dropWhile (fun c => 48 ≤ c && c ≤ 57) = [93] then
        some (type, if neg then -n else n)
      else none
    | _ => none
  | _ => none

/-- `resolveSID`. A type that is empty would not match the pattern. -/
def resolveSID (s : State) (conf : JsString) (sid : Option JsString) : Option JsString :=
  match sid with
  | none => none
  | some sid =>
    match parseExtended sid with
    | none => some sid
    | some (type, pos) =>
      let sa := sections s conf (some type)
      let i := if 0 ≤ pos then pos else sa.length + pos
      if i < 0 then none else sa[i.toNat]?.bind (·.name)

/-- Where the object is that `get` hands out for a whole section. -/
inductive Ref
  | created (sid : JsString)
  | base (sid : JsString)
  deriving DecidableEq

/-- The base object with the pending changes and deletions merged into it. -/
def merge (s : State) (conf sid : JsString) (x : Sec) : Sec :=
  let changed := overlay x (s.changes.at conf sid)
  match s.deletes.at conf sid with
  | some (.opts d) => { changed with opts := d.keys.foldl (fun o k => o.del k) changed.opts }
  | _ => changed

/-- `get(conf, sid)` for a resolved name: the state it leaves, since it merges the pending edits
into the base object, and the object. -/
def lookup (s : State) (conf sid : JsString) : State × Option Ref :=
  if (s.creates.at conf sid).isSome then (s, some (.created sid))
  else if markedAll (s.deletes.at conf sid) then (s, none)
  else
    match s.values.at conf sid with
    | none => (s, none)
    | some x => ({ s with values := s.values.put conf sid (merge s conf sid x) }, some (.base sid))

/-- The object itself. -/
def deref (s : State) (conf : JsString) : Ref → Option Sec
  | .created sid => s.creates.at conf sid
  | .base sid => s.values.at conf sid

/-- `get(conf, sid)` -/
def getSection (s : State) (conf : JsString) (sid : Option JsString) : State × Option Sec :=
  match resolveSID s conf sid with
  | none => (s, none)
  | some sid =>
    let (s', ref) := lookup s conf sid
    (s', ref.bind (deref s' conf))

/-- A property of a section object; the dotted ones that are strings are read like options. -/
def Sec.prop (x : Sec) (opt : JsString) : Option Val :=
  if opt = units ".type" then some (.str x.type)
  else if opt = units ".name" then x.name.map .str
  else x.opts.get? opt

/-- `get(conf, sid, opt)` -/
def get (s : State) (conf : JsString) (sid : Option JsString) (opt : JsString) : Option Val :=
  match resolveSID s conf sid with
  | none => none
  | some sid =>
    match s.creates.at conf sid with
    | some x => x.prop opt
    | none =>
      let deleted := match s.deletes.at conf sid with
        | some .all => true
        | some (.opts d) => (d.get? opt).isSome
        | none => false
      if deleted then none
      else
        match (s.changes.at conf sid).bind (·.get? opt) with
        | some v => some v
        | none => (s.values.at conf sid).bind (·.prop opt)

/-- The name that `get_first` looks for: the first one among the sections of a type. -/
def firstName (s : State) (conf : JsString) (type : Option JsString) : Option JsString :=
  (sections s conf type).findSome? (·.name)

/-- The texts that `get_bool` takes for true; letters are compared without their case. -/
def isTrue (v : Option Val) : Bool :=
  match v with
  | some (.str t) =>
    [units "1", units "on", units "true", units "yes", units "enabled"].contains
      (t.map fun c => if 65 ≤ c && c ≤ 90 then c + 32 else c)
  | _ => false

/-- The reads that `uci.js` offers. -/
inductive Query
  | get (conf : JsString) (sid : Option JsString) (opt : Option JsString)
  | getFirst (conf : JsString) (type : Option JsString) (opt : Option JsString)
  | getBool (conf : JsString) (sid : Option JsString) (opt : Option JsString)
  | sections (conf : JsString) (type : Option JsString)
  | resolveSID (conf : JsString) (sid : Option JsString)

/-- What a read returns. -/
inductive Answer
  | val (v : Option Val)
  | sec (x : Option Sec)
  | secs (l : List Sec)
  | name (sid : Option JsString)
  | bool (b : Bool)

/-- `get` with or without an option. -/
def askGet (s : State) (conf : JsString) (sid opt : Option JsString) : State × Answer :=
  match opt with
  | some opt => (s, .val (get s conf sid opt))
  | none =>
    let (s', x) := getSection s conf sid
    (s', .sec x)

/-- A read: the state it leaves, and its result. -/
def ask (s : State) : Query → State × Answer
  | .get conf sid opt => askGet s conf sid opt
  | .getFirst conf type opt => askGet s conf (firstName s conf type) opt
  | .getBool conf sid opt =>
    match askGet s conf sid opt with
    | (s', .val v) => (s', .bool (isTrue v))
    | (s', _) => (s', .bool false)
  | .sections conf type => (s, .secs (UciJs.sections s conf type))
  | .resolveSID conf sid => (s, .name (UciJs.resolveSID s conf sid))

/-- `add(conf, type, name)`, with the random name that `createSID` would choose. -/
def add (s : State) (conf type : JsString) (name : Option JsString) (random : JsString) : State :=
  let sid := if name.getD [] = [] then random else name.getD []
  { s with
    creates := (Table.ensure s.creates conf).put conf sid
      { type := type, name := some sid, create := name, index := 1000 + s.newidx, opts := ∅ }
    newidx := s.newidx + 1 }

/-- `remove(conf, sid)` -/
def remove (s : State) (conf sid : JsString) : State :=
  if (s.creates.at conf sid).isSome then { s with creates := s.creates.drop conf sid }
  else if (s.values.at conf sid).isSome then
    { s with
      changes := s.changes.drop conf sid
      deletes := (Table.ensure s.deletes conf).put conf sid .all }
  else s

/-- `delete t[conf][sid][opt]`, which takes the whole entry when nothing else is in it. -/
def dropOption {α : Type} (t : Table (JsObject α)) (conf sid opt : JsString) : Table (JsObject α) :=
  match t.at conf sid with
  | none => t
  | some o => if o.onlyHas opt then t.drop conf sid else t.put conf sid (o.del opt)

/-- The same in `deletes`, where a mark of the whole section has no options. -/
def undelete (t : Table Del) (conf sid opt : JsString) : Table Del :=
  match t.at conf sid with
  | some (.opts o) => if o.onlyHas opt then t.drop conf sid else t.put conf sid (.opts (o.del opt))
  | some .all => t.drop conf sid
  | none => t

/-- The branch of `set` for a value that is stored. -/
def setValue (s : State) (conf sid opt : JsString) (val : Val) : State :=
  if markedAll (s.deletes.at conf sid) then s
  else if (s.values.at conf sid).isNone then s
  else
    let changes := Table.ensure s.changes conf
    let o := (changes.at conf sid).getD ∅
    { s with
      changes := changes.put conf sid (o.set opt val)
      deletes := undelete s.deletes conf sid opt }

/-- The branch of `set` for a deletion. -/
def setNull (s : State) (conf sid opt : JsString) : State :=
  let s := { s with changes := dropOption s.changes conf sid opt }
  if ((s.values.at conf sid).bind (·.opts.get? opt)).isNone then s
  else
    let deletes := Table.ensure s.deletes conf
    match deletes.at conf sid with
    | some .all => { s with deletes := deletes }
    | some (.opts o) => { s with deletes := deletes.put conf sid (.opts (o.set opt ())) }
    | none => { s with deletes := deletes.put conf sid (.opts ((∅ : JsObject Unit).set opt ())) }

/-- `set(conf, sid, opt, val)` -/
def set (s : State) (conf : JsString) (sid : Option JsString) (opt : JsString) (val : Option Val) :
    State :=
  match resolveSID s conf sid with
  | none => s
  | some sid =>
    if opt.head? = some 46 then s
    else
      match s.creates.at conf sid with
      | some x =>
        let opts := match val with
          | some v => x.opts.set opt v
          | none => x.opts.del opt
        { s with creates := s.creates.put conf sid { x with opts := opts } }
      | none =>
        match val with
        | none => setNull s conf sid opt
        | some v => if v = .str [] then setNull s conf sid opt else setValue s conf sid opt v

/-- The list of `move` with one section taken out and put before or behind another, or last. -/
def moved (sa : List Sec) (sid1 sid2 : Option JsString) (after : Bool) : Option (List Sec) :=
  match sa.find? (·.name = sid1) with
  | none => none
  | some s1 =>
    let rest := sa.eraseP (·.name = sid1)
    match sid2 with
    | none => some (rest ++ [s1])
    | some _ =>
      match rest.findIdx? (·.name = sid2) with
      | none => none
      | some i => some (rest.insertIdx (if after then i + 1 else i) s1)

/-- `x['.index'] = i` for the object behind a reference. -/
def setIndex (s : State) (conf : JsString) (i : ℕ) : Ref → State
  | .created sid =>
    match s.creates.at conf sid with
    | some x => { s with creates := s.creates.put conf sid { x with index := i } }
    | none => s
  | .base sid =>
    match s.values.at conf sid with
    | some x => { s with values := s.values.put conf sid { x with index := i } }
    | none => s

/-- The last loop of `move`, from the number `i` on. It reads every section as a whole, and throws
if one is not found. -/
def renumber (conf : JsString) : State → (i : ℕ) → List Sec → State × Bool
  | s, _, [] => (s, true)
  | s, i, x :: rest =>
    match resolveSID s conf x.name with
    | none => (s, false)
    | some sid =>
      match lookup s conf sid with
      | (s', some ref) => renumber conf (setIndex s' conf i ref) (i + 1) rest
      | (s', none) => (s', false)

/-- `move(conf, sid1, sid2, after)` -/
def move (s : State) (conf : JsString) (sid1 sid2 : Option JsString) (after : Bool) : State :=
  match moved (sections s conf none) (resolveSID s conf sid1) (resolveSID s conf sid2) after with
  | none => s
  | some sa =>
    match renumber conf s 0 sa with
    | (s', true) => { s' with reorder := s'.reorder.set conf () }
    | (s', false) => s'

/-- `clone(conf, type, srcsid, put_next, name)`. Without the configuration it throws when it reads
the source section. -/
def clone (s : State) (conf type srcsid : JsString) (putNext : Bool) (name : Option JsString)
    (random : JsString) : State :=
  let creates := Table.ensure s.creates conf
  match s.values.get? conf with
  | none => { s with creates := creates }
  | some v =>
    let s' := { s with
      creates := creates.put conf random
        { type := type, name := some random, create := name, index := 1000 + s.newidx,
          opts := (v.get? srcsid).elim ∅ (·.opts) }
      newidx := s.newidx + 1 }
    if putNext then move s' conf (some random) (some srcsid) true else s'

/-- The remote calls of `save`. The names in an order call are whatever stands in the objects'
`.name`, which need not be a name. -/
inductive Rpc
  | delete (conf sid : JsString) (opts : Option (List JsString))
  | add (conf type : JsString) (name : Option JsString) (values : JsObject Val)
  | set (conf sid : JsString) (values : JsObject Val)
  | order (conf : JsString) (sids : List (Option JsString))

/-- A loop over a table: the entries with their two keys. -/
def Table.flat {α : Type} (t : Table α) : List (JsString × JsString × α) :=
  t.entries.flatMap fun c => c.2.entries.map fun e => (c.1, e.1, e.2)

/-- The calls that `save` makes at once, deletions first, then the new sections and the changed
options. -/
def saveTasks (s : State) : List Rpc :=
  s.deletes.flat.map (fun (conf, sid, o) =>
      .delete conf sid (match o with
        | .all => none
        | .opts o => some o.keys)) ++
    s.creates.flat.map (fun (conf, _, x) => .add conf x.type x.create x.opts) ++
    s.changes.flat.map fun (conf, sid, o) => .set conf sid o

/-- The array `snew` after the first answers were assigned as names. -/
def renamedCreates (s : State) (responses : List (Option JsString)) : List (JsString × Sec) :=
  s.creates.flat.zipIdx.map fun ((conf, _, x), i) => (conf, { x with name := responses[i]?.join })

/-- `reorderSections` after the names were assigned. Configurations with an entry in `deletes` are
skipped, even an empty one. -/
def reorderTasks (s : State) (responses : List (Option JsString)) : List Rpc :=
  s.reorder.keys.filterMap fun conf =>
    if (s.deletes.get? conf).isSome then none
    else
      let created := ((renamedCreates s responses).filter (·.1 = conf)).map (·.2)
      let o := created ++ ((s.values.get? conf).elim [] (·.entries)).map (·.2)
      if o = [] then none else some (.order conf ((sortByIndex o).map (·.name)))

/-- A section as the server has it. -/
structure SrvSec where
  name : JsString
  type : JsString
  opts : JsObject Val

/-- The section object that the server sends for its section number `i`. -/
def SrvSec.toSec (x : SrvSec) (i : ℕ) : Sec :=
  { type := x.type, name := some x.name, create := none, index := i, opts := x.opts }

/-- A configuration as it is loaded. -/
def loadSections (l : List SrvSec) : JsObject Sec :=
  l.zipIdx.foldl (fun o x => o.set x.1.name (x.1.toSec x.2)) ∅

/-- The state after some configurations were loaded. -/
def loaded (confs : List (JsString × List SrvSec)) : State where
  newidx := 0
  values := confs.foldl (fun v c => v.set c.1 (loadSections c.2)) ∅
  creates := ∅
  changes := ∅
  deletes := ∅
  reorder := ∅

/-- A network configuration with one interface and one option. -/
def network : State :=
  loaded [(units "network", [⟨units "lan", units "interface",
    (∅ : JsObject Val).set (units "proto") (.str (units "dhcp"))⟩])]

/-- The edits, with the random names that `createSID` draws. -/
inductive Edit
  | add (conf type : JsString) (name : Option JsString) (random : JsString)
  | clone (conf type srcsid : JsString) (putNext : Bool) (name : Option JsString)
      (random : JsString)
  | remove (conf sid : JsString)
  | set (conf : JsString) (sid : Option JsString) (opt : JsString) (val : Option Val)
  | move (conf : JsString) (sid1 sid2 : Option JsString) (after : Bool)

/-- One edit. `unset` is `set` with null. -/
def edit (s : State) : Edit → State
  | .add conf type name random => add s conf type name random
  | .clone conf type srcsid putNext name random => clone s conf type srcsid putNext name random
  | .remove conf sid => remove s conf sid
  | .set conf sid opt val => set s conf sid opt val
  | .move conf sid1 sid2 after => move s conf sid1 sid2 after

/-- The loop of `createSID` ends with a name that no section of the configuration has. -/
def Drawn (s : State) : Edit → Prop
  | .add conf _ _ random | .clone conf _ _ _ _ random =>
    s.creates.at conf random = none ∧ s.values.at conf random = none
  | _ => True

end NeonWrt.Luci.UciJs
