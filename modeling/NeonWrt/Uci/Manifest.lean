import Mathlib.Data.List.Sort
import NeonWrt.Lib.Lines

/-!
# Translator manifests

neon-uci reads its translators from the `.conf` files of a directory. Each file
has one `[translator]` section of `key=value` lines; the values go to buffers of
fixed sizes, and longer ones are cut. This file models the parser with its error
paths and the loader that reads and sorts a directory.
-/

namespace NeonWrt.Uci

open Lib

/-- The comma, which separates package and unit names. -/
def comma : UInt8 := 44

/-- The characters of `safe_token`. -/
def tokenChar (c : UInt8) : Bool := isalnum c || c == 95 || c == 45 || c == 46 || c == 64

/-- `safe_token`. -/
def safeToken (s : Bytes) : Bool := s ≠ [] && s.all tokenChar

/-- The characters of `package_name_valid`. -/
def packageChar (c : UInt8) : Bool := isalnum c || c == 95 || c == 45

/-- `package_name_valid`. -/
def packageNameValid (s : Bytes) : Bool := s ≠ [] && s.all packageChar

theorem packageNameValid_iff {s : Bytes} :
    packageNameValid s = true ↔ s ≠ [] ∧ ∀ c ∈ s, packageChar c = true := by
  simp [packageNameValid]

/-- The actions that take units. -/
def unitActions : List Bytes :=
  [ascii "reload", ascii "restart", ascii "try-reload-or-restart", ascii "reload-or-restart"]

/-- `action_valid`. -/
def actionValid (s : Bytes) : Bool :=
  s == ascii "none" || unitActions.contains s || s == ascii "daemon-reload"

/-- `parse_bool`. -/
def parseBool (s : Bytes) (dflt : Bool) : Bool :=
  if s = [] then dflt
  else if [ascii "1", ascii "yes", ascii "true", ascii "on"].any (caseEq s) then true
  else if [ascii "0", ascii "no", ascii "false", ascii "off"].any (caseEq s) then false
  else dflt

/-- `struct translator`. -/
structure Translator where
  manifestPath : Buf 4096
  name : Buf 128
  packages : Buf 1024
  command : Buf 4096
  units : Buf 1024
  action : Buf 64
  enabled : Bool
  unitOptional : Bool
  deriving DecidableEq

/-- The translator `parse_manifest` starts from. -/
def Translator.init (path : Bytes) : Translator where
  manifestPath := .print 4096 path
  name := .print 128 []
  packages := .print 1024 []
  command := .print 4096 []
  units := .print 1024 []
  action := .print 64 (ascii "none")
  enabled := true
  unitOptional := true

/-- One assignment of the section; unknown keys are skipped. -/
def Translator.assign (t : Translator) (key val : Bytes) : Translator :=
  if key = ascii "name" then { t with name := .print 128 val }
  else if key = ascii "packages" then { t with packages := .print 1024 val }
  else if key = ascii "command" then { t with command := .print 4096 val }
  else if key = ascii "units" then { t with units := .print 1024 val }
  else if key = ascii "action" then { t with action := .print 64 val }
  else if key = ascii "enabled" then { t with enabled := parseBool val true }
  else if key = ascii "unit_optional" then { t with unitOptional := parseBool val true }
  else t

/-- The loop body of `parse_manifest`: whether the section is the translator's,
and the translator so far. -/
def parseLine (st : Bool × Translator) (line : Bytes) : Bool × Translator :=
  let p := trim (cstr line)
  match p with
  | [] => st
  | c :: _ =>
    if c = 35 ∨ c = 59 then st
    else if c = 91 then (p == ascii "[translator]", st.2)
    else if !st.1 then st
    else
      match p.dropWhile (· ≠ 61) with
      | [] => st
      | _ :: val => (st.1, st.2.assign (trim (p.takeWhile (· ≠ 61))) (trim val))

/-- Why `parse_manifest` gives up. -/
inductive ManifestError where
  | cannotOpen
  | name
  | packages
  | command
  | action (value : Bytes)
  deriving DecidableEq

/-- `parse_manifest`, on the contents of the file, `none` if it cannot be opened. -/
def parseManifest (path : Bytes) (content : Option Bytes) : Except ManifestError Translator :=
  match content with
  | none => .error .cannotOpen
  | some text =>
    let t := ((fgetsLines 2048 [] text).foldl parseLine (false, Translator.init path)).2
    if t.name.bytes = [] ∨ !safeToken t.name.bytes then .error .name
    else if t.packages.bytes = [] then .error .packages
    else if t.command.bytes.head? ≠ some 47 then .error .command
    else if !actionValid t.action.bytes then .error (.action t.action.bytes)
    else .ok t

theorem parseManifest_ok {path : Bytes} {content : Option Bytes} {t : Translator}
    (h : parseManifest path content = .ok t) :
    safeToken t.name.bytes = true ∧ t.packages.bytes ≠ [] ∧ t.command.bytes.head? = some 47 ∧
      actionValid t.action.bytes = true := by
  unfold parseManifest at h
  split at h
  · simp at h
  · dsimp only at h
    split_ifs at h with hname hpackages hcommand haction
    obtain rfl := Except.ok.inj h
    simp only [Bool.not_eq_true', not_or, Bool.not_eq_false, not_not] at hname hcommand haction
    exact ⟨hname.2, hpackages, hcommand, haction⟩

/-- The translator directory: its path, and its entries in the order of `readdir`
with the contents of those that can be opened; `none` if it cannot be read. -/
structure Directory where
  path : Bytes
  entries : Option (List (Bytes × Option Bytes))

/-- Why `load_translators` gives up. -/
inductive LoadError where
  | cannotOpen
  | tooMany
  | manifest (path : Bytes) (e : ManifestError)
  deriving DecidableEq

/-- The entries `load_translators` looks at. -/
def isManifest (name : Bytes) : Bool :=
  name.head? ≠ some 46 && 6 ≤ name.length && name.drop (name.length - 5) == ascii ".conf"

/-- The loop of `load_translators`. -/
def loadLoop (dir : Bytes) :
    List (Bytes × Option Bytes) → List Translator → Except LoadError (List Translator)
  | [], ts => .ok ts
  | (name, content) :: rest, ts =>
    if !isManifest name then loadLoop dir rest ts
    else if 128 ≤ ts.length then .error .tooMany
    else
      let path := dir ++ ascii "/" ++ name
      if 4096 ≤ path.length then loadLoop dir rest ts
      else
        match parseManifest path content with
        | .error e => .error (.manifest path e)
        | .ok t => loadLoop dir rest (ts ++ [t])

/-- `translator_cmp`, as an order. -/
def translatorLe (a b : Translator) : Bool := a.manifestPath.bytes ≤ b.manifestPath.bytes

/-- `load_translators`. -/
def loadTranslators (dir : Directory) : Except LoadError (List Translator) :=
  match dir.entries with
  | none => .error .cannotOpen
  | some entries => (loadLoop dir.path entries []).map fun ts => ts.insertionSort (translatorLe · ·)

theorem assign_manifestPath (t : Translator) (key val : Bytes) :
    (t.assign key val).manifestPath = t.manifestPath := by
  simp only [Translator.assign, apply_ite Translator.manifestPath, ite_self]

theorem parseLine_manifestPath (st : Bool × Translator) (line : Bytes) :
    (parseLine st line).2.manifestPath = st.2.manifestPath := by
  unfold parseLine
  dsimp only
  split
  · rfl
  · split_ifs
    · rfl
    · rfl
    · rfl
    · split
      · rfl
      · exact assign_manifestPath _ _ _

theorem parseManifest_path {path : Bytes} {content : Option Bytes} {t : Translator}
    (h : parseManifest path content = .ok t) : t.manifestPath = .print 4096 path := by
  have hlines (lines : List Bytes) (st : Bool × Translator) :
      (lines.foldl parseLine st).2.manifestPath = st.2.manifestPath := by
    induction lines generalizing st with
    | nil => rfl
    | cons line rest ih => rw [List.foldl_cons, ih, parseLine_manifestPath]
  unfold parseManifest at h
  split at h
  · simp at h
  · dsimp only at h
    split_ifs at h
    obtain rfl := Except.ok.inj h
    exact hlines _ _

theorem loadLoop_ok {dir : Bytes} {entries : List (Bytes × Option Bytes)}
    {before ts : List Translator} (h : loadLoop dir entries before = .ok ts) :
    ∀ t ∈ ts, t ∈ before ∨ ∃ path content, parseManifest path content = .ok t := by
  induction entries generalizing before with
  | nil =>
    obtain rfl := Except.ok.inj h
    exact fun t ht => Or.inl ht
  | cons entry rest ih =>
    obtain ⟨name, content⟩ := entry
    rw [loadLoop] at h
    split_ifs at h with hname hmany
    · exact ih h
    · dsimp only at h
      split_ifs at h with hpath
      · exact ih h
      · split at h
        · simp at h
        next t hparse =>
          intro u hu
          rcases ih h u hu with hu | hu
          · rcases List.mem_append.mp hu with hu | hu
            · exact Or.inl hu
            · exact Or.inr ⟨_, _, List.mem_singleton.mp hu ▸ hparse⟩
          · exact Or.inr hu

/-- Every loaded translator was parsed from some manifest. -/
theorem loadTranslators_ok {dir : Directory} {ts : List Translator}
    (h : loadTranslators dir = .ok ts) :
    ∀ t ∈ ts, ∃ path content, parseManifest path content = .ok t := by
  unfold loadTranslators at h
  split at h
  · simp at h
  next entries _ =>
    cases hloop : loadLoop dir.path entries [] with
    | error e => simp [hloop, Except.map] at h
    | ok us =>
      simp only [hloop, Except.map, Except.ok.injEq] at h
      subst h
      intro t ht
      rw [List.mem_insertionSort] at ht
      rcases loadLoop_ok hloop t ht with ht | ht
      · simp at ht
      · exact ht

end NeonWrt.Uci
