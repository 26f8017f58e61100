import NeonWrt.Procd.Service

/-!
# Reading the systemd-run command line back

The argument vector of an instance is read back the way `systemd-run` reads it:
options with a value of their own up to `--`, and the command after it. What
comes out is compared with the instance.

An instance is not always given back. A limit without a counterpart in systemd
is dropped with a warning, an environment entry whose name holds an equals sign
is read as another variable, and a string is passed on up to its first zero byte.
-/

namespace NeonWrt.Procd

open Lib

/-- What a command line of `systemd-run` asks for. -/
structure RunLine where
  unit : Bytes
  properties : List (Bytes × Bytes)
  setenv : List (Bytes × Bytes)
  command : List Bytes
  deriving DecidableEq

/-- The equals sign. -/
def equals : UInt8 := 61

/-- A name and a value, from the text `name=value`. -/
def readAssignment (text : Bytes) : Bytes × Bytes :=
  (text.takeWhile (· ≠ equals), (text.dropWhile (· ≠ equals)).tail)

/-- The options of a command line up to `--`, and the command. An option that
is not listed here has no value of its own. -/
def readOptions : List Bytes → Option RunLine
  | [] => none
  | w :: ws =>
    if w = ascii "--" then some ⟨[], [], [], ws⟩
    else match ws with
      | [] => none
      | v :: rest =>
        if w = ascii "--unit" then (readOptions rest).map fun l => { l with unit := v }
        else if w = ascii "--property" then
          (readOptions rest).map fun l =>
            { l with properties := readAssignment v :: l.properties }
        else if w = ascii "--setenv" then
          (readOptions rest).map fun l => { l with setenv := readAssignment v :: l.setenv }
        else readOptions (v :: rest)

/-- The reading of a whole vector, which starts with the name of the program. -/
def readLine : List Bytes → Option RunLine
  | [] => none
  | _ :: ws => readOptions ws

/-- `name=value`. -/
def assignment (p : Bytes × Bytes) : Bytes := p.1 ++ [equals] ++ p.2

/-- An option given once for each of the pairs. -/
def optionWords (option : Bytes) (ps : List (Bytes × Bytes)) : List Bytes :=
  ps.flatMap fun p => [option, assignment p]

/-- The words that ask for a line. -/
def RunLine.words (l : RunLine) : List Bytes :=
  [ascii "systemd-run", ascii "--unit", l.unit, ascii "--collect",
      ascii "--service-type=simple"] ++
    optionWords (ascii "--property") l.properties ++
    optionWords (ascii "--setenv") l.setenv ++ ascii "--" :: l.command

/-- No name holds an equals sign. -/
def PlainNames (ps : List (Bytes × Bytes)) : Prop := ∀ p ∈ ps, equals ∉ p.1

theorem readAssignment_assignment {p : Bytes × Bytes} (h : equals ∉ p.1) :
    readAssignment (assignment p) = p := by
  obtain ⟨name, value⟩ := p
  have hname : ∀ c ∈ name, (decide (c ≠ equals)) = true := by
    intro c hc
    simpa using fun heq : c = equals => h (heq ▸ hc)
  simp only [readAssignment, assignment, List.append_assoc, List.takeWhile_append_of_pos hname,
    List.dropWhile_append_of_pos hname]
  simp

@[simp] theorem readOptions_end (cmd : List Bytes) :
    readOptions (ascii "--" :: cmd) = some ⟨[], [], [], cmd⟩ := by
  cases cmd <;> simp [readOptions]

theorem readOptions_skip {w : Bytes} (hend : w ≠ ascii "--") (hunit : w ≠ ascii "--unit")
    (hproperty : w ≠ ascii "--property") (hsetenv : w ≠ ascii "--setenv") {ws : List Bytes}
    {l : RunLine} (hws : readOptions ws = some l) : readOptions (w :: ws) = some l := by
  -- a line that ends here has no `--`
  cases ws with
  | nil => simp [readOptions] at hws
  | cons v rest => simpa [readOptions, hend, hunit, hproperty, hsetenv] using hws

theorem readOptions_setenv {ps : List (Bytes × Bytes)} (h : PlainNames ps) (cmd : List Bytes) :
    readOptions (optionWords (ascii "--setenv") ps ++ ascii "--" :: cmd) =
      some ⟨[], [], ps, cmd⟩ := by
  -- each pair takes two words
  induction ps with
  | nil => simp [optionWords]
  | cons p ps ih =>
    have hrest := ih fun q hq => h q (List.mem_cons_of_mem _ hq)
    have hp := readAssignment_assignment (h p List.mem_cons_self)
    have hne : (ascii "--setenv" = ascii "--") = False ∧ (ascii "--setenv" = ascii "--unit") = False ∧
        (ascii "--setenv" = ascii "--property") = False := by decide
    simp only [optionWords, List.flatMap_cons, List.cons_append, List.nil_append] at hrest ⊢
    simp only [readOptions, hne, if_false, if_true, hrest, Option.map_some, hp]

theorem readOptions_property {ps : List (Bytes × Bytes)} (h : PlainNames ps) {ws : List Bytes}
    {l : RunLine} (hws : readOptions ws = some l) :
    readOptions (optionWords (ascii "--property") ps ++ ws) =
      some { l with properties := ps ++ l.properties } := by
  induction ps with
  | nil => simpa [optionWords] using hws
  | cons p ps ih =>
    have hrest := ih fun q hq => h q (List.mem_cons_of_mem _ hq)
    have hp := readAssignment_assignment (h p List.mem_cons_self)
    have hne : (ascii "--property" = ascii "--") = False ∧
        (ascii "--property" = ascii "--unit") = False := by decide
    simp only [optionWords, List.flatMap_cons, List.cons_append, List.nil_append] at hrest ⊢
    simp only [readOptions, hne, if_false, if_true, hrest, Option.map_some, hp]

theorem readLine_words {l : RunLine} (hprops : PlainNames l.properties)
    (henv : PlainNames l.setenv) : readLine l.words = some l := by
  obtain ⟨unit, props, env, cmd⟩ := l
  dsimp only at hprops henv
  have hopts := readOptions_property hprops (readOptions_setenv henv cmd)
  -- two options without a value stand in front of the properties
  have hflags := readOptions_skip (w := ascii "--collect") (by decide) (by decide) (by decide)
    (by decide) (readOptions_skip (w := ascii "--service-type=simple") (by decide) (by decide)
      (by decide) (by decide) hopts)
  have hne : (ascii "--unit" = ascii "--") = False := by decide
  simp only [RunLine.words, readLine, List.cons_append, List.nil_append, List.append_assoc]
  rw [readOptions, if_neg (by decide)]
  simp only [if_true, hflags, Option.map_some, List.append_nil]

/-- The members of a member that is an object. -/
def membersOf (inst : Json) (key : CStr) : List (CStr × Json) :=
  match inst.get? key with
  | some (.obj members) => members
  | _ => []

/-- The restart properties. -/
def respawnProperties : Option Json → List (Bytes × Bytes)
  | none => [(ascii "Restart", ascii "no")]
  | some (.arr (threshold :: timeout :: burst :: _)) =>
    [(ascii "Restart", ascii "always"), (ascii "RestartSec", printed timeout.getString),
      (ascii "StartLimitIntervalSec", printed threshold.getString),
      (ascii "StartLimitBurst", printed burst.getString)]
  | some (.arr [_, timeout]) =>
    [(ascii "Restart", ascii "always"), (ascii "RestartSec", printed timeout.getString)]
  | some _ => [(ascii "Restart", ascii "always"), (ascii "RestartSec", ascii "5")]

/-- A property set from a string that is there and not empty. -/
def nonemptyProperty (key : String) : Option CStr → List (Bytes × Bytes)
  | none => []
  | some v => if v.bytes = [] then [] else [(ascii key, v.bytes)]

/-- The properties set from the service name and the members that are no limits. -/
def plainProperties (service : CStr) (inst : Json) : List (Bytes × Bytes) :=
  [(ascii "Description", service.bytes)] ++
    respawnProperties (inst.get? (CStr.lit "respawn")) ++
    nonemptyProperty "User" (inst.stringMember (CStr.lit "user")) ++
    nonemptyProperty "Group" (inst.stringMember (CStr.lit "group")) ++
    ((inst.get? (CStr.lit "nice")).toList.map fun nice =>
      (ascii "Nice", printed nice.getString)) ++
    (if ((inst.get? (CStr.lit "no_new_privs")).map Json.getBoolean).getD false then
      [(ascii "NoNewPrivileges", ascii "yes")] else []) ++
    [(ascii "StandardOutput", ascii "journal"), (ascii "StandardError", ascii "journal")]

/-- The property a limit is set by, if systemd has one. -/
def limitAssignment (m : CStr × Json) : Option (Bytes × Bytes) :=
  (limitProperty m.1).map fun prop => (prop, normalizeLimitValue m.2.getString 256)

/-- The default `PATH`. -/
def defaultPath : Bytes := ascii "/usr/sbin:/usr/bin:/sbin:/bin"

/-- The environment, with a `PATH` in any case. -/
def environment (inst : Json) : List (Bytes × Bytes) :=
  let members := membersOf inst (CStr.lit "env")
  (members.map fun m => (m.1.bytes, printed m.2.getString)) ++
    if members.any fun m => m.1.bytes = ascii "PATH" then [] else [(ascii "PATH", defaultPath)]

/-- The line that an instance with a command describes. -/
def runLine (service : CStr) (unit : Bytes) (inst : Json) (cmd : List Json) : RunLine where
  unit := unit
  properties := plainProperties service inst ++
    (membersOf inst (CStr.lit "limits")).filterMap limitAssignment
  setenv := environment inst
  command := cmd.filterMap fun word => word.getString.map CStr.bytes

/-- A step of the builder that appends the words `ws`, and stays within the vector. -/
def Appends (f : List Bytes → Option (List Bytes)) (ws : List Bytes) : Prop :=
  ∀ argv argv', f argv = some argv' →
    argv' = argv ++ ws ∧ (argv.length < maxArgs → argv'.length < maxArgs)

namespace Appends

variable {f g : List Bytes → Option (List Bytes)} {xs ys : List Bytes}

theorem pure : Appends some [] := by
  rintro argv _ ⟨⟩
  exact ⟨(List.append_nil _).symm, id⟩

theorem of_eq (hf : Appends f xs) (heq : ∀ argv, g argv = f argv) : Appends g xs := by
  intro argv argv' h
  exact hf argv argv' (heq argv ▸ h)

theorem bind (hf : Appends f xs) (hg : Appends g ys) :
    Appends (fun argv => (f argv).bind g) (xs ++ ys) := by
  intro argv argv' h
  obtain ⟨mid, hmid, hlast⟩ := Option.bind_eq_some_iff.mp h
  obtain ⟨rfl, hfirst⟩ := hf _ _ hmid
  obtain ⟨rfl, hsecond⟩ := hg _ _ hlast
  exact ⟨List.append_assoc _ _ _, fun h => hsecond (hfirst h)⟩

theorem foldlM {α : Type} {step : List Bytes → α → Option (List Bytes)} {word : α → List Bytes}
    (hstep : ∀ a, Appends (fun argv => step argv a) (word a)) (as : List α) :
    Appends (fun argv => as.foldlM step argv) (as.flatMap word) := by
  induction as with
  | nil => exact Appends.pure
  | cons a as ih => exact (hstep a).bind ih

end Appends

theorem addArg_appends (s : Bytes) : Appends (fun argv => addArg argv s) [s] := by
  intro argv argv' h
  dsimp only [addArg] at h
  split at h
  · cases h
  next hroom =>
    obtain rfl := Option.some_inj.mp h
    exact ⟨rfl, fun _ => by simp only [List.length_append, List.length_singleton]; omega⟩

theorem addProp_appends (key value : Bytes) :
    Appends (fun argv => addProp argv key value)
      (optionWords (ascii "--property") [(key, value)]) := by
  have heq : ascii "=" = [equals] := by decide
  simpa [addProp, optionWords, assignment, heq] using
    (addArg_appends (ascii "--property")).bind (addArg_appends (key ++ ascii "=" ++ value))

theorem optionWords_append (option : Bytes) (ps qs : List (Bytes × Bytes)) :
    optionWords option (ps ++ qs) = optionWords option ps ++ optionWords option qs :=
  List.flatMap_append

theorem addRespawn_appends (respawn : Option Json) :
    Appends (fun argv => addRespawn argv respawn)
      (optionWords (ascii "--property") (respawnProperties respawn)) := by
  have hpair (value : Bytes) := (addProp_appends (ascii "Restart") (ascii "always")).bind
    (addProp_appends (ascii "RestartSec") value)
  have hdefault := hpair (ascii "5")
  cases respawn with
  | none => exact addProp_appends _ _
  | some respawn =>
    cases respawn with
    | arr items =>
      -- the number of items decides how much is set
      match items with
      | [] | [_] => exact hdefault.of_eq fun argv => by simp [addRespawn]
      | [_, timeout] => exact (hpair (printed timeout.getString)).of_eq fun argv => by simp [addRespawn]
      | threshold :: timeout :: burst :: _ =>
        have hlimits := (addProp_appends (ascii "StartLimitIntervalSec")
          (printed threshold.getString)).bind
            (addProp_appends (ascii "StartLimitBurst") (printed burst.getString))
        exact ((hpair (printed timeout.getString)).bind hlimits).of_eq fun argv => by
          simp [addRespawn, Option.bind_assoc]
    | _ => exact hdefault.of_eq fun argv => by simp [addRespawn]

theorem addNonempty_appends (key : String) (v : Option CStr) :
    Appends (fun argv => addNonempty argv (ascii key) v)
      (optionWords (ascii "--property") (nonemptyProperty key v)) := by
  cases v with
  | none => exact Appends.pure
  | some v =>
    by_cases hempty : v.bytes = []
    · simpa [addNonempty, nonemptyProperty, hempty, optionWords] using Appends.pure
    · simpa [addNonempty, nonemptyProperty, hempty] using addProp_appends (ascii key) v.bytes

theorem addLimits_appends (members : List (CStr × Json)) :
    Appends (fun argv => addLimits argv (.obj members))
      (optionWords (ascii "--property") (members.filterMap limitAssignment)) := by
  have hstep (m : CStr × Json) : Appends (fun argv =>
      (limitProperty m.1).elim (some argv) fun prop =>
        addProp argv prop (normalizeLimitValue m.2.getString 256))
      (optionWords (ascii "--property") (limitAssignment m).toList) := by
    unfold limitAssignment
    cases limitProperty m.1 with
    | none => exact Appends.pure
    | some prop => exact addProp_appends _ _
  have hwords : optionWords (ascii "--property") (members.filterMap limitAssignment) =
      members.flatMap fun m => optionWords (ascii "--property") (limitAssignment m).toList := by
    rw [List.filterMap_eq_flatMap_toList, optionWords, List.flatMap_assoc]
    rfl
  -- a limit without a counterpart appends nothing
  rw [hwords]
  exact (Appends.foldlM hstep members).of_eq fun argv => addLimits_obj argv members

theorem addEnvironment_eq (inst : Json) (argv : List Bytes) :
    addEnvironment argv (inst.get? (CStr.lit "env")) =
      ((membersOf inst (CStr.lit "env")).foldlM (fun argv (m : CStr × Json) =>
        (addArg argv (ascii "--setenv")).bind fun argv =>
          addArg argv (m.1.bytes ++ ascii "=" ++ printed m.2.getString)) argv).bind fun argv =>
      if (membersOf inst (CStr.lit "env")).any fun m => m.1.bytes = ascii "PATH" then some argv
      else (addArg argv (ascii "--setenv")).bind fun argv =>
        addArg argv (ascii "PATH=/usr/sbin:/usr/bin:/sbin:/bin") := by
  rfl

theorem addEnvironment_appends (inst : Json) :
    Appends (fun argv => addEnvironment argv (inst.get? (CStr.lit "env")))
      (optionWords (ascii "--setenv") (environment inst)) := by
  have heq : ascii "=" = [equals] := by decide
  have hset (name value : Bytes) : Appends (fun argv =>
      (addArg argv (ascii "--setenv")).bind fun argv =>
        addArg argv (name ++ ascii "=" ++ value))
      (optionWords (ascii "--setenv") [(name, value)]) := by
    simpa [optionWords, assignment, heq] using
      (addArg_appends (ascii "--setenv")).bind (addArg_appends (name ++ ascii "=" ++ value))
  have hmembers := Appends.foldlM (fun m : CStr × Json => hset m.1.bytes (printed m.2.getString))
    (membersOf inst (CStr.lit "env"))
  have hwords : ((membersOf inst (CStr.lit "env")).flatMap fun m =>
      optionWords (ascii "--setenv") [(m.1.bytes, printed m.2.getString)]) =
      optionWords (ascii "--setenv") ((membersOf inst (CStr.lit "env")).map fun m =>
        (m.1.bytes, printed m.2.getString)) := by
    simp [optionWords, List.flatMap_map]
  rw [hwords] at hmembers
  unfold environment
  simp only [optionWords_append]
  -- the default PATH comes last, if none was given
  by_cases hpath : (membersOf inst (CStr.lit "env")).any fun m => m.1.bytes = ascii "PATH"
  · rw [if_pos hpath]
    refine (hmembers.bind Appends.pure).of_eq fun argv => ?_
    rw [addEnvironment_eq]
    simp only [if_pos hpath]
  · rw [if_neg hpath]
    refine (hmembers.bind (hset (ascii "PATH") defaultPath)).of_eq fun argv => ?_
    have hdefault : ascii "PATH" ++ ascii "=" ++ defaultPath =
        ascii "PATH=/usr/sbin:/usr/bin:/sbin:/bin" := by decide
    rw [addEnvironment_eq]
    simp only [if_neg hpath, hdefault]

theorem addStrings_appends (cmd : List Json) :
    Appends (fun argv => cmd.foldlM (fun argv word => addString argv word.getString) argv)
      (cmd.filterMap fun word => word.getString.map CStr.bytes) := by
  have hstep (word : Json) : Appends (fun argv => addString argv word.getString)
      (word.getString.map CStr.bytes).toList := by
    cases word.getString with
    | none => exact fun argv argv' h => by simp [addString] at h
    | some s => exact addArg_appends s.bytes
  rw [List.filterMap_eq_flatMap_toList]
  exact Appends.foldlM hstep cmd

/-- A completed vector consists of the words of the line that the instance
describes, with room for the final null pointer. -/
theorem startArgv_eq_words {service : CStr} {unit : Bytes} {inst : Json} {cmd : List Json}
    {argv : List Bytes} (h : startArgv service unit inst cmd = some argv) :
    argv = (runLine service unit inst cmd).words ∧ argv.length < maxArgs := by
  have hnice : Appends (fun argv => (inst.get? (CStr.lit "nice")).elim (some argv) fun nice =>
      addProp argv (ascii "Nice") (printed nice.getString))
      (optionWords (ascii "--property") ((inst.get? (CStr.lit "nice")).toList.map fun nice =>
        (ascii "Nice", printed nice.getString))) := by
    cases inst.get? (CStr.lit "nice") with
    | none => exact Appends.pure
    | some nice => exact addProp_appends _ _
  have hprivs : Appends (fun argv =>
      if ((inst.get? (CStr.lit "no_new_privs")).map Json.getBoolean).getD false then
        addProp argv (ascii "NoNewPrivileges") (ascii "yes")
      else some argv)
      (optionWords (ascii "--property")
        (if ((inst.get? (CStr.lit "no_new_privs")).map Json.getBoolean).getD false then
          [(ascii "NoNewPrivileges", ascii "yes")] else [])) := by
    split
    · exact addProp_appends _ _
    · exact Appends.pure
  have hlimits : Appends (fun argv =>
      (inst.get? (CStr.lit "limits")).elim (some argv) (addLimits argv))
      (optionWords (ascii "--property")
        ((membersOf inst (CStr.lit "limits")).filterMap limitAssignment)) := by
    unfold membersOf
    cases inst.get? (CStr.lit "limits") with
    | none => exact Appends.pure
    | some limits =>
      cases limits with
      | obj members => exact addLimits_appends members
      | _ => exact Appends.pure
  have hhead : Appends (fun argv => [ascii "systemd-run", ascii "--unit", unit,
      ascii "--collect", ascii "--service-type=simple"].foldlM addArg argv)
      [ascii "systemd-run", ascii "--unit", unit, ascii "--collect",
        ascii "--service-type=simple"] := Appends.foldlM addArg_appends _
  -- the stages, one after the other
  have hall := ((((((((((hhead.bind (addProp_appends (ascii "Description") service.bytes)).bind
    (addRespawn_appends (inst.get? (CStr.lit "respawn")))).bind
    (addNonempty_appends "User" (inst.stringMember (CStr.lit "user")))).bind
    (addNonempty_appends "Group" (inst.stringMember (CStr.lit "group")))).bind hnice).bind
    hprivs).bind ((addProp_appends (ascii "StandardOutput") (ascii "journal")).bind
      (addProp_appends (ascii "StandardError") (ascii "journal")))).bind hlimits).bind
    ((addEnvironment_appends inst).bind (addArg_appends (ascii "--")))).bind
    (addStrings_appends cmd)) [] argv ((startArgv_eq service unit inst cmd).symm.trans h)
  refine ⟨?_, hall.2 (by decide)⟩
  rw [hall.1]
  simp [RunLine.words, runLine, plainProperties, optionWords]

/-- The values given under a name, in order. -/
def valuesOf (name : Bytes) (ps : List (Bytes × Bytes)) : List Bytes :=
  (ps.filter fun p => p.1 = name).map Prod.snd

/-- The properties that limits are set by. -/
def limitProperties : List Bytes := limitMaps.map fun m => ascii m.2

/-- An instance whose command, environment and limits hold strings. The members
of an object have different names. -/
structure StringInstance (inst : Json) (cmd : List Json) : Prop where
  command : command? inst = some cmd
  words : ∀ word ∈ cmd, ∃ s, word = .str s
  env : ∀ m ∈ membersOf inst (CStr.lit "env"), ∃ s, m.2 = .str s
  limits : ∀ m ∈ membersOf inst (CStr.lit "limits"), ∃ s, m.2 = .str s
  envNames : ((membersOf inst (CStr.lit "env")).map Prod.fst).Nodup
  limitNames : ((membersOf inst (CStr.lit "limits")).map Prod.fst).Nodup

/-- The line gives the instance back: the command, each environment entry once,
`PATH` once, each limit that systemd knows once, and besides these only what the
service name and the other members determine. -/
structure Faithful (service : CStr) (inst : Json) (cmd : List Json) (line : RunLine) : Prop where
  command : line.command.map Json.str = cmd
  env : ∀ name v, (name, Json.str v) ∈ membersOf inst (CStr.lit "env") →
    valuesOf name.bytes line.setenv = [v]
  defaultPath : (∀ m ∈ membersOf inst (CStr.lit "env"), m.1.bytes ≠ ascii "PATH") →
    valuesOf (ascii "PATH") line.setenv = [defaultPath]
  envOnly : ∀ p ∈ line.setenv, p.1 = ascii "PATH" ∨
    ∃ m ∈ membersOf inst (CStr.lit "env"), m.1.bytes = p.1
  limits : ∀ m ∈ membersOf inst (CStr.lit "limits"), ∀ prop ∈ limitProperty m.1,
    valuesOf prop line.properties = [normalizeLimitValue m.2.getString 256]
  limitsOnly : ∀ p ∈ line.properties, p.1 ∈ limitProperties →
    ∃ m ∈ membersOf inst (CStr.lit "limits"), limitProperty m.1 = some p.1
  others : (line.properties.filter fun p => p.1 ∉ limitProperties) = plainProperties service inst

/-- Each limit is kept as a property. -/
def KeepsLimits (inst : Json) (line : RunLine) : Prop :=
  ∀ m ∈ membersOf inst (CStr.lit "limits"), ∃ prop ∈ limitProperty m.1,
    valuesOf prop line.properties = [normalizeLimitValue m.2.getString 256]

theorem limitProperty_mem {name : CStr} {prop : Bytes} (h : limitProperty name = some prop) :
    ∃ m ∈ limitMaps, ascii m.1 = name.bytes ∧ ascii m.2 = prop := by
  obtain ⟨m, hfind, hprop⟩ := Option.map_eq_some_iff.mp h
  exact ⟨m, List.mem_of_find?_eq_some hfind, by simpa using List.find?_some hfind, hprop⟩

/-- Different limits have different properties. -/
theorem limitProperty_inj {a b : CStr} {prop : Bytes} (ha : limitProperty a = some prop)
    (hb : limitProperty b = some prop) : a = b := by
  obtain ⟨m, hm, hma, hmp⟩ := limitProperty_mem ha
  obtain ⟨n, hn, hnb, hnp⟩ := limitProperty_mem hb
  have hinj : ∀ m ∈ limitMaps, ∀ n ∈ limitMaps, ascii m.2 = ascii n.2 → ascii m.1 = ascii n.1 := by
    decide
  exact CStr.ext_iff.mpr (hma ▸ hnb ▸ hinj m hm n hn (hmp.trans hnp.symm))

theorem limitProperty_mem_limitProperties {name : CStr} {prop : Bytes}
    (h : limitProperty name = some prop) : prop ∈ limitProperties := by
  obtain ⟨m, hm, -, rfl⟩ := limitProperty_mem h
  exact List.mem_map_of_mem hm

/-- The names of the restart properties. -/
def respawnNames : List Bytes :=
  [ascii "Restart", ascii "RestartSec", ascii "StartLimitIntervalSec", ascii "StartLimitBurst"]

/-- The names of the properties that are not set by limits. -/
def plainNames : List Bytes :=
  [ascii "Description"] ++ respawnNames ++ [ascii "User", ascii "Group", ascii "Nice",
    ascii "NoNewPrivileges", ascii "StandardOutput", ascii "StandardError"]

theorem respawnProperties_names (r : Option Json) :
    ∀ p ∈ respawnProperties r, p.1 ∈ respawnNames := by
  unfold respawnProperties
  split <;> simp [respawnNames]

theorem nonemptyProperty_names (key : String) (v : Option CStr) :
    ∀ p ∈ nonemptyProperty key v, p.1 = ascii key := by
  unfold nonemptyProperty
  split
  · simp
  · split <;> simp

theorem plainProperties_mem_plainNames (service : CStr) (inst : Json) :
    ∀ p ∈ plainProperties service inst, p.1 ∈ plainNames := by
  have hother {name : Bytes} (h : name ∈ [ascii "User", ascii "Group", ascii "Nice",
      ascii "NoNewPrivileges", ascii "StandardOutput", ascii "StandardError"]) :
      name ∈ plainNames := List.mem_append_right _ h
  intro p hp
  simp only [plainProperties, List.mem_append, List.mem_map, Option.mem_toList] at hp
  -- one case for each of the parts that the list is put together from
  rcases hp with ((((((hp | hp) | hp) | hp) | ⟨nice, -, rfl⟩) | hp) | hp)
  · obtain rfl := List.mem_singleton.mp hp
    exact List.mem_append_left _ (List.mem_append_left _ List.mem_cons_self)
  · exact List.mem_append_left _ (List.mem_append_right _ (respawnProperties_names _ p hp))
  · rw [nonemptyProperty_names _ _ p hp]
    exact hother List.mem_cons_self
  · rw [nonemptyProperty_names _ _ p hp]
    exact hother (.tail _ List.mem_cons_self)
  · exact hother (.tail _ (.tail _ List.mem_cons_self))
  · split at hp
    · obtain rfl := List.mem_singleton.mp hp
      exact hother (.tail _ (.tail _ (.tail _ List.mem_cons_self)))
    · cases hp
  · simp only [List.mem_cons, List.not_mem_nil, or_false] at hp
    obtain rfl | rfl := hp
    · exact hother (.tail _ (.tail _ (.tail _ (.tail _ List.mem_cons_self))))
    · exact hother (.tail _ (.tail _ (.tail _ (.tail _ (.tail _ List.mem_cons_self)))))

/-- No other property is named like a limit, or holds an equals sign in its name. -/
theorem plainProperties_names {service : CStr} {inst : Json} {p : Bytes × Bytes}
    (h : p ∈ plainProperties service inst) : p.1 ∉ limitProperties ∧ equals ∉ p.1 := by
  have hall : ∀ name ∈ plainNames, name ∉ limitProperties ∧ equals ∉ name := by
    decide
  exact hall _ (plainProperties_mem_plainNames service inst p h)

theorem valuesOf_append (name : Bytes) (ps qs : List (Bytes × Bytes)) :
    valuesOf name (ps ++ qs) = valuesOf name ps ++ valuesOf name qs := by
  simp [valuesOf]

theorem valuesOf_eq_nil {name : Bytes} {ps : List (Bytes × Bytes)} (h : ∀ p ∈ ps, p.1 ≠ name) :
    valuesOf name ps = [] := by
  rw [valuesOf, List.map_eq_nil_iff, List.filter_eq_nil_iff]
  simpa using h

/-- Where an object lists its members under different names, what they are turned
into has one value for each. -/
theorem valuesOf_filterMap {members : List (CStr × Json)} (hnodup : (members.map Prod.fst).Nodup)
    {f : CStr × Json → Option (Bytes × Bytes)} {name : Bytes} {m : CStr × Json} {v : Bytes}
    (hinj : ∀ n, ∀ p ∈ f n, p.1 = name → n.1 = m.1) (hm : m ∈ members)
    (hf : f m = some (name, v)) : valuesOf name (members.filterMap f) = [v] := by
  obtain ⟨xs, ys, rfl⟩ := List.append_of_mem hm
  rw [List.map_append, List.map_cons, List.perm_middle.nodup_iff, List.nodup_cons] at hnodup
  have hother (n : CStr × Json) (hn : n ∈ xs ++ ys) : ∀ p ∈ f n, p.1 ≠ name := by
    intro p hp heq
    refine hnodup.1 ?_
    rw [← hinj n p hp heq, ← List.map_append]
    exact List.mem_map_of_mem hn
  have hrest (zs : List (CStr × Json)) (hzs : ∀ n ∈ zs, n ∈ xs ++ ys) :
      valuesOf name (zs.filterMap f) = [] := by
    refine valuesOf_eq_nil fun p hp => ?_
    obtain ⟨n, hn, hfn⟩ := List.mem_filterMap.mp hp
    exact hother n (hzs n hn) p hfn
  -- nothing before the member, the member itself, and nothing after it
  rw [List.filterMap_append, valuesOf_append, hrest xs fun n hn => by simp [hn],
    List.filterMap_cons_some hf, ← List.singleton_append, valuesOf_append,
    hrest ys fun n hn => by simp [hn]]
  simp [valuesOf]

theorem plainNames_properties (service : CStr) (unit : Bytes) (inst : Json) (cmd : List Json) :
    PlainNames (runLine service unit inst cmd).properties := by
  intro p hp
  -- a property of its own, or that of a limit
  rcases List.mem_append.mp hp with hp | hp
  · exact (plainProperties_names hp).2
  · obtain ⟨m, -, hm⟩ := List.mem_filterMap.mp hp
    obtain ⟨prop, hprop, rfl⟩ := Option.map_eq_some_iff.mp hm
    have hall : ∀ prop ∈ limitProperties, equals ∉ prop := by decide
    exact hall prop (limitProperty_mem_limitProperties hprop)

theorem plainNames_environment {inst : Json}
    (h : ∀ m ∈ membersOf inst (CStr.lit "env"), equals ∉ m.1.bytes) :
    PlainNames (environment inst) := by
  intro p hp
  rcases List.mem_append.mp hp with hp | hp
  · obtain ⟨m, hm, rfl⟩ := List.mem_map.mp hp
    exact h m hm
  · split at hp
    · simp at hp
    · rw [List.mem_singleton.mp hp]
      decide

/-- A string without a zero byte is passed on whole. -/
theorem getString_of_notMem {s : Bytes} (h : 0 ∉ s) :
    ∃ c : CStr, (Json.str s).getString = some c ∧ c.bytes = s :=
  ⟨⟨s, h⟩, Json.getString_str ⟨s, h⟩, rfl⟩

theorem faithful_runLine {service : CStr} {unit : Bytes} {inst : Json} {cmd : List Json}
    (hinst : StringInstance inst cmd) (hwords : ∀ s, Json.str s ∈ cmd → 0 ∉ s)
    (hvalues : ∀ m ∈ membersOf inst (CStr.lit "env"), ∀ s, m.2 = .str s → 0 ∉ s) :
    Faithful service inst cmd (runLine service unit inst cmd) where
  command := by
    rw [runLine, List.map_filterMap]
    conv_rhs => rw [← List.filterMap_some (l := cmd)]
    refine List.filterMap_congr fun word hword => ?_
    obtain ⟨s, rfl⟩ := hinst.words word hword
    obtain ⟨c, hc, rfl⟩ := getString_of_notMem (hwords s hword)
    simp [hc]
  env := by
    intro name v hm
    obtain ⟨c, hc, rfl⟩ := getString_of_notMem (hvalues _ hm v rfl)
    have hown : valuesOf name.bytes ((membersOf inst (CStr.lit "env")).map fun m =>
        (m.1.bytes, printed m.2.getString)) = [c.bytes] := by
      rw [← List.filterMap_eq_map]
      refine valuesOf_filterMap hinst.envNames ?_ hm (by simp [hc, printed])
      rintro n p ⟨⟩ heq
      exact CStr.ext_iff.mpr heq
    -- The default is only there when no entry is called `PATH`.
    have hdefault : valuesOf name.bytes (if (membersOf inst (CStr.lit "env")).any fun m =>
        m.1.bytes = ascii "PATH" then [] else [(ascii "PATH", Procd.defaultPath)]) = [] := by
      split
      · rfl
      next hpath =>
        refine valuesOf_eq_nil fun p hp heq => hpath (List.any_eq_true.mpr ⟨_, hm, ?_⟩)
        rw [List.mem_singleton.mp hp] at heq
        simpa using heq.symm
    rw [runLine, environment, valuesOf_append, hown, hdefault, List.append_nil]
  defaultPath := by
    intro hnone
    have hmembers : valuesOf (ascii "PATH") ((membersOf inst (CStr.lit "env")).map fun m =>
        (m.1.bytes, printed m.2.getString)) = [] := by
      refine valuesOf_eq_nil fun p hp => ?_
      obtain ⟨m, hm, rfl⟩ := List.mem_map.mp hp
      exact hnone m hm
    have hpath : ¬ ((membersOf inst (CStr.lit "env")).any fun m => m.1.bytes = ascii "PATH") := by
      simpa using hnone
    rw [runLine, environment, valuesOf_append, hmembers, if_neg hpath]
    simp [valuesOf]
  envOnly := by
    intro p hp
    rcases List.mem_append.mp hp with hp | hp
    · obtain ⟨m, hm, rfl⟩ := List.mem_map.mp hp
      exact Or.inr ⟨m, hm, rfl⟩
    · split at hp
      · simp at hp
      · rw [List.mem_singleton.mp hp]
        exact Or.inl rfl
  limits := by
    intro m hm prop hprop
    have hplain : valuesOf prop (plainProperties service inst) = [] :=
      valuesOf_eq_nil fun p hp heq => (plainProperties_names hp).1
        (heq ▸ limitProperty_mem_limitProperties hprop)
    rw [runLine, valuesOf_append, hplain, List.nil_append]
    refine valuesOf_filterMap hinst.limitNames ?_ hm (by simp [limitAssignment, Option.mem_def.mp hprop])
    rintro n p hp rfl
    obtain ⟨_, hn, rfl⟩ := Option.map_eq_some_iff.mp hp
    exact limitProperty_inj hn hprop
  limitsOnly := by
    intro p hp hlimit
    rcases List.mem_append.mp hp with hp | hp
    · exact absurd hlimit (plainProperties_names hp).1
    · obtain ⟨m, hm, hassign⟩ := List.mem_filterMap.mp hp
      obtain ⟨prop, hprop, rfl⟩ := Option.map_eq_some_iff.mp hassign
      exact ⟨m, hm, hprop⟩
  others := by
    rw [runLine, List.filter_append, List.filter_eq_self.mpr, List.filter_eq_nil_iff.mpr,
      List.append_nil]
    · intro p hp
      obtain ⟨m, -, hassign⟩ := List.mem_filterMap.mp hp
      obtain ⟨prop, hprop, rfl⟩ := Option.map_eq_some_iff.mp hassign
      simpa using limitProperty_mem_limitProperties hprop
    · exact fun p hp => by simpa using (plainProperties_names hp).1

/-- The vector of an instance is read back as a line that gives the instance
back, and leaves room for the final null pointer. -/
theorem startArgv_faithful {service iname : CStr} {inst : Json} {cmd : List Json}
    {argv : List Bytes} (hinst : StringInstance inst cmd)
    (hwords : ∀ s, Json.str s ∈ cmd → 0 ∉ s)
    (henv : ∀ m ∈ membersOf inst (CStr.lit "env"),
      equals ∉ m.1.bytes ∧ ∀ s, m.2 = .str s → 0 ∉ s)
    (h : startArgv service (unitName service iname) inst cmd = some argv) :
    ∃ line, readLine argv = some line ∧ line.unit = unitName service iname ∧
      Faithful service inst cmd line ∧ argv.length < maxArgs := by
  obtain ⟨rfl, hroom⟩ := startArgv_eq_words h
  exact ⟨runLine service (unitName service iname) inst cmd,
    readLine_words (plainNames_properties _ _ _ _)
      (plainNames_environment fun m hm => (henv m hm).1), rfl,
    faithful_runLine hinst hwords fun m hm => (henv m hm).2, hroom⟩

/-- An instance with the given environment, limits and command. -/
def instanceWith (env limits : List (String × String)) (words : List String) : Json :=
  .obj [(CStr.lit "command", .arr (words.map fun w => .str (ascii w))),
    (CStr.lit "env", .obj (env.map fun m => (CStr.lit m.1, .str (ascii m.2)))),
    (CStr.lit "limits", .obj (limits.map fun m => (CStr.lit m.1, .str (ascii m.2))))]

@[simp] theorem membersOf_env (env limits : List (String × String)) (words : List String) :
    membersOf (instanceWith env limits words) (CStr.lit "env") =
      env.map fun m => (CStr.lit m.1, .str (ascii m.2)) := rfl

@[simp] theorem membersOf_limits (env limits : List (String × String)) (words : List String) :
    membersOf (instanceWith env limits words) (CStr.lit "limits") =
      limits.map fun m => (CStr.lit m.1, .str (ascii m.2)) := rfl

/-- The words of `instanceWith`. -/
def wordsOf (words : List String) : List Json := words.map fun w => .str (ascii w)

/-- An instance that holds strings, whose vector is completed, and which no line
that is read from the vector gives back. -/
def Unfaithful (inst : Json) (cmd : List Json) : Prop :=
  StringInstance inst cmd ∧ ∃ argv,
    startArgv (CStr.lit "ntpd") (unitName (CStr.lit "ntpd") (CStr.lit "main")) inst cmd = some argv ∧
      ¬ ∃ line, readLine argv = some line ∧
        Faithful (CStr.lit "ntpd") inst cmd line ∧ KeepsLimits inst line

theorem stringInstance_instanceWith {env limits : List (String × String)} {w : String}
    {ws : List String} (henv : (env.map fun m => CStr.lit m.1).Nodup)
    (hlimits : (limits.map fun m => CStr.lit m.1).Nodup) :
    StringInstance (instanceWith env limits (w :: ws)) (wordsOf (w :: ws)) where
  command := rfl
  -- all members were built from strings
  words := by
    intro word hword
    obtain ⟨w', -, rfl⟩ := List.mem_map.mp hword
    exact ⟨_, rfl⟩
  env := by
    intro m hm
    obtain ⟨e, -, rfl⟩ := List.mem_map.mp hm
    exact ⟨_, rfl⟩
  limits := by
    intro m hm
    obtain ⟨e, -, rfl⟩ := List.mem_map.mp hm
    exact ⟨_, rfl⟩
  envNames := by rwa [membersOf_env, List.map_map]
  limitNames := by rwa [membersOf_limits, List.map_map]

/-- An instance with one environment entry, one limit and two words is given back. -/
theorem startArgv_faithful_ntpd :
    let inst := instanceWith [("TZ", "UTC")] [("nofile", "64")] ["ntpd", "-n"]
    let unit := unitName (CStr.lit "ntpd") (CStr.lit "main")
    ∃ argv line, startArgv (CStr.lit "ntpd") unit inst (wordsOf ["ntpd", "-n"]) = some argv ∧
      readLine argv = some line ∧
      Faithful (CStr.lit "ntpd") inst (wordsOf ["ntpd", "-n"]) line := by
  intro inst unit
  have hfits : (startArgv (CStr.lit "ntpd") unit inst (wordsOf ["ntpd", "-n"])).isSome := by
    decide +kernel
  obtain ⟨argv, hargv⟩ := Option.isSome_iff_exists.mp hfits
  have hwords (s : Bytes) (hs : Json.str s ∈ wordsOf ["ntpd", "-n"]) : 0 ∉ s := by
    simp only [wordsOf, List.map_cons, List.map_nil, List.mem_cons, Json.str.injEq,
      List.not_mem_nil, or_false] at hs
    rcases hs with rfl | rfl <;> decide
  have henv : ∀ m ∈ membersOf inst (CStr.lit "env"),
      equals ∉ m.1.bytes ∧ ∀ s, m.2 = .str s → 0 ∉ s := by
    intro m hm
    obtain rfl := List.mem_singleton.mp hm
    refine ⟨by decide, fun s hs => ?_⟩
    obtain rfl := Json.str.inj hs
    decide
  obtain ⟨line, hread, -, hfaithful, -⟩ := startArgv_faithful
    (stringInstance_instanceWith (by decide) (by decide)) hwords henv hargv
  exact ⟨argv, line, hargv, hread, hfaithful⟩

/-- The line of `instanceWith`, as it is read from the words of its vector. -/
def lineOf (env limits : List (String × String)) (words : List String) : Option RunLine :=
  (startArgv (CStr.lit "ntpd") (unitName (CStr.lit "ntpd") (CStr.lit "main"))
    (instanceWith env limits words) (wordsOf words)).bind readLine

theorem unfaithful_of {env limits : List (String × String)} {w : String} {ws : List String}
    (henv : (env.map fun m => CStr.lit m.1).Nodup)
    (hlimits : (limits.map fun m => CStr.lit m.1).Nodup)
    (hread : (lineOf env limits (w :: ws)).isSome)
    (hlost : ∀ line, lineOf env limits (w :: ws) = some line →
      Faithful (CStr.lit "ntpd") (instanceWith env limits (w :: ws)) (wordsOf (w :: ws)) line →
        ¬ KeepsLimits (instanceWith env limits (w :: ws)) line) :
    Unfaithful (instanceWith env limits (w :: ws)) (wordsOf (w :: ws)) := by
  refine ⟨stringInstance_instanceWith henv hlimits, ?_⟩
  obtain ⟨line, hline⟩ := Option.isSome_iff_exists.mp hread
  obtain ⟨argv, hargv, -⟩ := Option.bind_eq_some_iff.mp hline
  refine ⟨argv, hargv, ?_⟩
  rintro ⟨line', hline', hfaithful, hkeeps⟩
  exact hlost line' (by rw [lineOf, hargv, Option.bind_some, hline']) hfaithful hkeeps

/-- Three instances that hold strings and are not given back: one with a limit
unknown to systemd, one with an equals sign in the name of an environment entry,
and one with a zero byte in a word. -/
theorem exists_unfaithful :
    Unfaithful (instanceWith [] [("cgroup", "1")] ["ntpd"]) (wordsOf ["ntpd"]) ∧
      Unfaithful (instanceWith [("PATH=x", "y")] [] ["ntpd"]) (wordsOf ["ntpd"]) ∧
      Unfaithful (instanceWith [] [] ["a\x00b"]) (wordsOf ["a\x00b"]) := by
  refine ⟨unfaithful_of (by decide) (by decide) (by decide +kernel) ?_,
    unfaithful_of (by decide) (by decide) (by decide +kernel) ?_,
    unfaithful_of (by decide) (by decide) (by decide +kernel) ?_⟩
  · intro line _ _ hkeeps
    obtain ⟨prop, hprop, -⟩ := hkeeps (CStr.lit "cgroup", .str (ascii "1")) (by simp)
    have hunknown : limitProperty (CStr.lit "cgroup") = none := by decide
    rw [hunknown] at hprop
    cases hprop
  · intro line hline hfaithful _
    have hvalue := hfaithful.env (CStr.lit "PATH=x") (ascii "y") (by simp)
    have hread : (lineOf [("PATH=x", "y")] [] ["ntpd"]).map
        (fun l => valuesOf (CStr.lit "PATH=x").bytes l.setenv) = some [] := by decide +kernel
    rw [hline, Option.map_some, hvalue] at hread
    cases hread
  · intro line hline hfaithful _
    have hread : (lineOf [] [] ["a\x00b"]).map RunLine.command = some [ascii "a"] := by
      decide +kernel
    rw [hline, Option.map_some, Option.some_inj] at hread
    have hwords := hfaithful.command
    rw [hread] at hwords
    have hbytes := Json.str.inj (List.cons.inj hwords).1
    exact absurd hbytes (by decide)

end NeonWrt.Procd
