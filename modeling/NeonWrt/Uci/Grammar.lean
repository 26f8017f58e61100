import NeonWrt.Uci.Manifest

/-!
# The grammar of a manifest

What `parse_manifest` makes of a text is set beside the lines of that text: which
of them assign a value, and what the values have to be. The parser is lenient. It
skips lines that assign nothing, keys it does not know and other sections, and
looks at the last value of a key only.

The two agree as long as the lines fit the line buffer and the values their
fields. A longer line is read in pieces, so that the end of a comment may assign
a value, and a longer value is cut without a word.
-/

namespace NeonWrt.Uci

open Lib

/-- A comment, after trimming. -/
def isComment (l : Bytes) : Bool := (trim l).head? = some 35 || (trim l).head? = some 59

/-- The section that a line opens: whether it is the translator's. -/
def section? (l : Bytes) : Option Bool :=
  if (trim l).head? = some 91 then some (trim l == ascii "[translator]") else none

/-- The key and the value of a line with an equals sign. -/
def assignment? (l : Bytes) : Option (Bytes × Bytes) :=
  match (trim l).dropWhile (· ≠ 61) with
  | [] => none
  | _ :: val => some (trim ((trim l).takeWhile (· ≠ 61)), trim val)

/-- The assignments of the translator's sections, from inside or outside of one. -/
def assignmentsFrom : Bool → List Bytes → List (Bytes × Bytes)
  | _, [] => []
  | inside, l :: ls =>
    if isComment l then assignmentsFrom inside ls
    else match section? l with
      | some ours => assignmentsFrom ours ls
      | none => (if inside then (assignment? l).toList else []) ++ assignmentsFrom inside ls

/-- The assignments of a text. -/
def assignments (text : Bytes) : List (Bytes × Bytes) := assignmentsFrom false (textLines text)

/-- The value of a key: the one assigned last. -/
def lastValue (as : List (Bytes × Bytes)) (key : String) : Option Bytes :=
  ((as.filter fun a => a.1 = ascii key).map Prod.snd).getLast?

/-- The fields of `struct translator` that are texts from the manifest. -/
inductive TextField where
  | name
  | packages
  | command
  | units
  | action
  deriving DecidableEq

/-- The key of a field. -/
def TextField.key : TextField → String
  | .name => "name"
  | .packages => "packages"
  | .command => "command"
  | .units => "units"
  | .action => "action"

/-- The size of the buffer of a field. -/
def TextField.size : TextField → ℕ
  | .name => 128
  | .packages => 1024
  | .command => 4096
  | .units => 1024
  | .action => 64

/-- The text in a field. -/
def Translator.text (t : Translator) : TextField → Bytes
  | .name => t.name.bytes
  | .packages => t.packages.bytes
  | .command => t.command.bytes
  | .units => t.units.bytes
  | .action => t.action.bytes

/-- What a field holds before any assignment. -/
def TextField.default : TextField → Bytes
  | .action => ascii "none"
  | _ => []

/-- The value of a field. -/
def valueOf (as : List (Bytes × Bytes)) (f : TextField) : Bytes :=
  (lastValue as f.key).getD f.default

/-- The value of a switch, which is on unless it is turned off. -/
def switchOf (as : List (Bytes × Bytes)) (key : String) : Bool :=
  ((lastValue as key).map fun v => parseBool v true).getD true

/-- The values of a valid manifest. -/
structure Acceptable (as : List (Bytes × Bytes)) : Prop where
  name : safeToken (valueOf as .name) = true
  packages : valueOf as .packages ≠ []
  command : (valueOf as .command).head? = some 47
  action : actionValid (valueOf as .action) = true

/-- The translator holds the values. -/
structure Holds (path : Bytes) (as : List (Bytes × Bytes)) (t : Translator) : Prop where
  path : t.manifestPath = .print 4096 path
  text : ∀ f, t.text f = valueOf as f
  enabled : t.enabled = switchOf as "enabled"
  unitOptional : t.unitOptional = switchOf as "unit_optional"

/-- Each value fits the field of its key. -/
def ValuesFit (as : List (Bytes × Bytes)) : Prop :=
  ∀ a ∈ as, ∀ f : TextField, a.1 = ascii f.key → a.2.length < f.size

theorem parseLine_eq (inside : Bool) (t : Translator) {l : Bytes} (hnul : 0 ∉ l) :
    parseLine (inside, t) l =
      if isComment l then (inside, t)
      else match section? l with
        | some ours => (ours, t)
        | none => (inside, (if inside then (assignment? l).toList else []).foldl
            (fun t a => t.assign a.1 a.2) t) := by
  have hcases : trim l = [] ∨ ∃ c p, trim l = c :: p := by cases trim l <;> simp
  simp only [parseLine, cstr_eq_self hnul, isComment, section?, assignment?]
  rcases hcases with htrim | ⟨c, p, htrim⟩
  · cases inside <;> simp [htrim]
  · by_cases hcomment : c = 35 ∨ c = 59
    · rcases hcomment with rfl | rfl <;> simp [htrim]
    · obtain ⟨hhash, hsemi⟩ := not_or.mp hcomment
      by_cases hsection : c = 91
      · subst hsection
        simp [htrim]
      · cases inside with
        | false => simp [htrim, hhash, hsemi, hsection]
        | true =>
          simp only [htrim, hhash, hsemi, hsection, List.head?_cons, Option.some.injEq,
            decide_false, Bool.or_self, or_self, Bool.false_eq_true, if_false, Bool.not_true,
            if_true]
          cases (c :: p).dropWhile (· ≠ 61) <;> rfl

theorem foldl_parseLine (inside : Bool) (t : Translator) {ls : List Bytes}
    (hnul : ∀ l ∈ ls, 0 ∉ l) :
    (ls.foldl parseLine (inside, t)).2 =
      (assignmentsFrom inside ls).foldl (fun t a => t.assign a.1 a.2) t := by
  induction ls generalizing inside t with
  | nil => rfl
  | cons l ls ih =>
    have hrest : ∀ l ∈ ls, 0 ∉ l := fun l hl => hnul l (List.mem_cons_of_mem _ hl)
    rw [List.foldl_cons, parseLine_eq inside t (hnul l List.mem_cons_self), assignmentsFrom]
    -- a comment, the head of a section, or an assignment
    split
    · exact ih inside t hrest
    · split
      · exact ih _ t hrest
      · rw [ih inside _ hrest, List.foldl_append]

theorem assign_text (t : Translator) (key : Bytes) {val : Bytes} (f : TextField)
    (hfits : key = ascii f.key → val.length < f.size) :
    (t.assign key val).text f = if key = ascii f.key then val else t.text f := by
  have hprint {size : ℕ} [NeZero size] (h : val.length < size) :
      (Buf.print size val).bytes = val := snprintf_of_length_lt h
  by_cases hkey : key = ascii f.key
  · rw [if_pos hkey]
    have hlen := hfits hkey
    subst hkey
    cases f <;> exact hprint hlen
  · rw [if_neg hkey]
    have hread (c : Prop) [Decidable c] (a b : Translator) :
        (if c then a else b).text f = if c then a.text f else b.text f :=
      apply_ite (fun t => Translator.text t f) c a b
    simp only [Translator.assign, hread]
    -- whatever the key is, the assignment goes to another field
    cases f <;> simp only [TextField.key] at hkey <;>
      simp only [if_neg hkey, Translator.text, ite_self]

theorem assign_enabled (t : Translator) (key val : Bytes) :
    (t.assign key val).enabled = if key = ascii "enabled" then parseBool val true else t.enabled := by
  by_cases hkey : key = ascii "enabled"
  · subst hkey
    rfl
  · simp only [Translator.assign, if_neg hkey, apply_ite Translator.enabled, ite_self]

theorem assign_unitOptional (t : Translator) (key val : Bytes) :
    (t.assign key val).unitOptional =
      if key = ascii "unit_optional" then parseBool val true else t.unitOptional := by
  by_cases hkey : key = ascii "unit_optional"
  · subst hkey
    rfl
  · simp only [Translator.assign, if_neg hkey, apply_ite Translator.unitOptional, ite_self]

theorem lastValue_cons (a : Bytes × Bytes) (as : List (Bytes × Bytes)) (key : String) :
    lastValue (a :: as) key =
      (lastValue as key).or (if a.1 = ascii key then some a.2 else none) := by
  by_cases ha : a.1 = ascii key
  · simp [lastValue, ha, List.getLast?_cons]
  · simp [lastValue, ha]

/-- What is read off after assignments that overwrite one another, one key at a time. -/
theorem foldl_assign {α : Type} (read : Translator → α) (parse : Bytes → α) (key : String)
    {as : List (Bytes × Bytes)}
    (hstep : ∀ a ∈ as, ∀ t : Translator,
      read (t.assign a.1 a.2) = if a.1 = ascii key then parse a.2 else read t) (t : Translator) :
    read (as.foldl (fun t a => t.assign a.1 a.2) t) =
      ((lastValue as key).map parse).getD (read t) := by
  induction as generalizing t with
  | nil => rfl
  | cons a as ih =>
    rw [List.foldl_cons, ih (fun b hb => hstep b (List.mem_cons_of_mem _ hb)), lastValue_cons,
      hstep a List.mem_cons_self]
    -- a later value of the key wins
    cases lastValue as key with
    | some v => rfl
    | none => by_cases ha : a.1 = ascii key <;> simp [ha]

theorem foldl_assign_manifestPath (as : List (Bytes × Bytes)) (t : Translator) :
    (as.foldl (fun t a => t.assign a.1 a.2) t).manifestPath = t.manifestPath := by
  induction as generalizing t with
  | nil => rfl
  | cons a as ih => rw [List.foldl_cons, ih, assign_manifestPath]

/-- The assignments leave their values in the fields. -/
theorem holds_foldl (path : Bytes) {as : List (Bytes × Bytes)} (hfits : ValuesFit as) :
    Holds path as (as.foldl (fun t a => t.assign a.1 a.2) (.init path)) where
  path := foldl_assign_manifestPath _ _
  text := by
    intro f
    have hstep : ∀ a ∈ as, ∀ t : Translator,
        (t.assign a.1 a.2).text f = if a.1 = ascii f.key then id a.2 else t.text f :=
      fun a ha t => assign_text t a.1 f fun hkey => hfits a ha f hkey
    have hread := foldl_assign (fun t => t.text f) id f.key hstep (.init path)
    rw [hread, valueOf, Option.map_id]
    cases f <;> rfl
  enabled := foldl_assign Translator.enabled (parseBool · true) "enabled"
    (fun a _ t => assign_enabled t a.1 a.2) _
  unitOptional := foldl_assign Translator.unitOptional (parseBool · true) "unit_optional"
    (fun a _ t => assign_unitOptional t a.1 a.2) _

/-- The last checks of `parse_manifest`. -/
def checkTranslator (t : Translator) : Except ManifestError Translator :=
  if t.name.bytes = [] ∨ !safeToken t.name.bytes then .error .name
  else if t.packages.bytes = [] then .error .packages
  else if t.command.bytes.head? ≠ some 47 then .error .command
  else if !actionValid t.action.bytes then .error (.action t.action.bytes)
  else .ok t

theorem checkTranslator_eq_ok (t u : Translator) :
    checkTranslator t = .ok u ↔ u = t ∧ safeToken t.name.bytes = true ∧ t.packages.bytes ≠ [] ∧
      t.command.bytes.head? = some 47 ∧ actionValid t.action.bytes = true := by
  have hne (h : t.name.bytes = []) : safeToken t.name.bytes = false := by
    rw [h]
    rfl
  unfold checkTranslator
  split_ifs with hname hpackages hcommand haction
  · refine iff_of_false nofun fun ⟨_, hsafe, _⟩ => ?_
    rcases hname with hname | hname
    · simp [hne hname] at hsafe
    · simp [hsafe] at hname
  · exact iff_of_false nofun fun h => h.2.2.1 hpackages
  · exact iff_of_false nofun fun h => hcommand h.2.2.2.1
  · exact iff_of_false nofun fun h => by simp [h.2.2.2.2] at haction
  · simp only [Except.ok.injEq]
    simp only [not_or, Bool.not_eq_true', Bool.not_eq_false, not_not] at hname hcommand haction
    exact ⟨fun h => ⟨h.symm, hname.2, hpackages, hcommand, haction⟩, fun h => h.1.symm⟩

/-- The parser's answer is decided by the assignments. -/
theorem parseManifest_eq (path : Bytes) {text : Bytes} (hnul : 0 ∉ text)
    (hlines : ∀ l ∈ textLines text, l.length < 2048) :
    parseManifest path (some text) =
      checkTranslator ((assignments text).foldl (fun t a => t.assign a.1 a.2) (.init path)) := by
  have hread : ((fgetsLines 2048 [] text).foldl parseLine (false, Translator.init path)).2 =
      (assignments text).foldl (fun t a => t.assign a.1 a.2) (.init path) := by
    rw [fgetsLines_textLines hlines, assignments]
    refine foldl_parseLine false _ fun l hl h0 => hnul ?_
    rw [← flatten_textLines text]
    exact List.mem_flatten_of_mem hl h0
  rw [← hread]
  rfl

/-- Two texts have the same lines apart from comments. -/
def SameButComments (text text' : Bytes) : Prop :=
  ((textLines text).filter fun l => !isComment l) = (textLines text').filter fun l => !isComment l

theorem assignmentsFrom_filter (inside : Bool) (ls : List Bytes) :
    assignmentsFrom inside (ls.filter fun l => !isComment l) = assignmentsFrom inside ls := by
  induction ls generalizing inside with
  | nil => rfl
  | cons l ls ih =>
    cases hl : isComment l with
    | true => simpa [assignmentsFrom, hl] using ih inside
    | false =>
      rw [List.filter_cons_of_pos (by simp [hl]), assignmentsFrom, assignmentsFrom, hl]
      simp only [ih]

theorem SameButComments.assignments_eq {text text' : Bytes} (h : SameButComments text text') :
    assignments text = assignments text' := by
  rw [assignments, assignments, ← assignmentsFrom_filter, h, assignmentsFrom_filter]

/-- A text whose lines fit the line buffer and whose values fit their fields is
accepted if its values are acceptable, and then they are kept whole. Comments make
no difference. -/
theorem parseManifest_iff (path : Bytes) {text : Bytes} (hnul : 0 ∉ text)
    (hlines : ∀ l ∈ textLines text, l.length < 2048) (hfits : ValuesFit (assignments text)) :
    ((∃ t, parseManifest path (some text) = .ok t) ↔ Acceptable (assignments text)) ∧
      (∀ t, parseManifest path (some text) = .ok t → Holds path (assignments text) t) ∧
        ∀ text', 0 ∉ text' → (∀ l ∈ textLines text', l.length < 2048) →
          SameButComments text text' →
            parseManifest path (some text') = parseManifest path (some text) := by
  have hholds := holds_foldl path hfits
  refine ⟨?_, fun t ht => ?_, fun text' hnul' hlines' hsame => ?_⟩
  -- accepted: the checks look at the values that the fields hold
  · have hname := hholds.text .name
    have hpackages := hholds.text .packages
    have hcommand := hholds.text .command
    have haction := hholds.text .action
    simp only [Translator.text] at hname hpackages hcommand haction
    simp only [parseManifest_eq path hnul hlines, checkTranslator_eq_ok, hname, hpackages, hcommand,
      haction]
    exact ⟨fun ⟨_, _, h₁, h₂, h₃, h₄⟩ => ⟨h₁, h₂, h₃, h₄⟩,
      fun ⟨h₁, h₂, h₃, h₄⟩ => ⟨_, rfl, h₁, h₂, h₃, h₄⟩⟩
  · rw [parseManifest_eq path hnul hlines, checkTranslator_eq_ok] at ht
    exact ht.1 ▸ hholds
  · rw [parseManifest_eq path hnul' hlines', parseManifest_eq path hnul hlines,
      hsame.assignments_eq]

/-- A line of the strict grammar: blank, a comment, the head of the section, or a
known key with a value that is valid for it. -/
def StrictLine (l : Bytes) : Prop :=
  trim l = [] ∨ isComment l = true ∨ section? l = some true ∨
    ∃ a, assignment? l = some a ∧
      ((a.1 = ascii "name" ∧ safeToken a.2 = true) ∨ (a.1 = ascii "packages" ∧ a.2 ≠ []) ∨
        (a.1 = ascii "command" ∧ a.2.head? = some 47) ∨ a.1 = ascii "units" ∨
          (a.1 = ascii "action" ∧ actionValid a.2 = true) ∨ a.1 = ascii "enabled" ∨
            a.1 = ascii "unit_optional")

/-- The parser accepts the texts of the strict grammar that assign the required keys. -/
def AcceptsStrict : Prop :=
  ∀ path text, 0 ∉ text → ((∃ t, parseManifest path (some text) = .ok t) ↔
    (∀ l ∈ textLines text, StrictLine l) ∧
      ∀ key ∈ ["name", "packages", "command"], (lastValue (assignments text) key).isSome)

/-- The parser keeps values whole. -/
def KeepsValues : Prop :=
  ∀ path text t, 0 ∉ text → parseManifest path (some text) = .ok t →
    ∀ f v, lastValue (assignments text) (TextField.key f) = some v → t.text f = v

/-- The parser does not look at comments. -/
def SkipsComments : Prop :=
  ∀ path text text', 0 ∉ text → 0 ∉ text' → SameButComments text text' →
    parseManifest path (some text') = parseManifest path (some text)

/-- A manifest of the package `network`, with further lines. -/
def manifestWith (lines : Bytes) : Bytes :=
  ascii "[translator]\nname=network\npackages=network\ncommand=/bin/true\n" ++ lines

/-- The manifest of the package `network` is accepted, and its values are kept. -/
theorem parseManifest_network :
    ∃ t, parseManifest (ascii "/etc/10.conf") (some (manifestWith [])) = .ok t ∧
      Holds (ascii "/etc/10.conf") (assignments (manifestWith [])) t := by
  have hfits : ValuesFit (assignments (manifestWith [])) := by
    have hshort : ∀ a ∈ assignments (manifestWith []), a.2.length < 64 := by decide +kernel
    have hsize (f : TextField) : 64 ≤ f.size := by cases f <;> decide
    exact fun a ha f _ => lt_of_lt_of_le (hshort a ha) (hsize f)
  obtain ⟨haccepts, hholds, -⟩ := parseManifest_iff (ascii "/etc/10.conf")
    (show 0 ∉ manifestWith [] by decide +kernel) (by decide +kernel) hfits
  obtain ⟨t, ht⟩ := haccepts.mpr ⟨by decide +kernel, by decide +kernel, by decide +kernel,
    by decide +kernel⟩
  exact ⟨t, ht, hholds t ht⟩

theorem exists_ok_of_map {α β : Type} {x : Except ManifestError α} {f : α → β} {b : β}
    (h : x.toOption.map f = some b) : ∃ a, x = .ok a ∧ f a = b := by
  cases x with
  | error e => simp [Except.toOption] at h
  | ok a => exact ⟨a, rfl, by simpa [Except.toOption] using h⟩

/-- A text with a name of 200 characters. -/
def longName : Bytes :=
  manifestWith (ascii "name=" ++ List.replicate 200 97 ++ ascii "\n")

/-- A text with a comment that fills the line buffer before it ends. -/
def longComment : Bytes := manifestWith (List.replicate 2047 35 ++ ascii "name=x\n")

/-- A key that is not known is skipped, a name of 200 characters is cut, and the end
of a comment of more than 2047 characters is read as a line. -/
theorem parser_not_strict : ¬ AcceptsStrict ∧ ¬ KeepsValues ∧ ¬ SkipsComments := by
  refine ⟨fun h => ?_, fun h => ?_, fun h => ?_⟩
  -- no line of the strict grammar, but accepted
  · have hiff := h (ascii "/m") (manifestWith (ascii "colour=red\n")) (by decide +kernel)
    obtain ⟨t, ht, -⟩ : ∃ t, parseManifest (ascii "/m")
        (some (manifestWith (ascii "colour=red\n"))) = .ok t ∧ t.enabled = true :=
      exists_ok_of_map (by decide +kernel)
    have hstrict := (hiff.mp ⟨t, ht⟩).1 (ascii "colour=red\n") (by decide +kernel)
    have hassign : assignment? (ascii "colour=red\n") = some (ascii "colour", ascii "red") := by
      decide +kernel
    rcases hstrict with hblank | hcomment | hsection | ⟨a, ha, hknown⟩
    · exact absurd hblank (by decide +kernel)
    · exact absurd hcomment (by decide +kernel)
    · exact absurd hsection (by decide +kernel)
    · obtain rfl := Option.some_inj.mp (hassign.symm.trans ha)
      revert hknown
      decide
  -- the field has 127 of the 200 characters
  · obtain ⟨t, ht, hlen⟩ : ∃ t, parseManifest (ascii "/m") (some longName) = .ok t ∧
        (t.text .name).length = 127 := exists_ok_of_map (by decide +kernel)
    have hvalue : lastValue (assignments longName) "name" = some (List.replicate 200 97) := by
      decide +kernel
    rw [h _ _ t (by decide +kernel) ht .name _ hvalue, List.length_replicate] at hlen
    exact absurd hlen (by decide)
  -- the same lines apart from the comment, and another name
  · obtain ⟨t, ht, hname⟩ : ∃ t, parseManifest (ascii "/m") (some longComment) = .ok t ∧
        t.name.bytes = ascii "x" := exists_ok_of_map (by decide +kernel)
    obtain ⟨u, hu, hname'⟩ : ∃ u, parseManifest (ascii "/m") (some (manifestWith (ascii "#\n"))) =
        .ok u ∧ u.name.bytes = ascii "network" := exists_ok_of_map (by decide +kernel)
    have hsame : SameButComments longComment (manifestWith (ascii "#\n")) := by
      unfold SameButComments
      decide +kernel
    have heq := h (ascii "/m") _ _ (by decide +kernel) (by decide +kernel) hsame
    rw [ht, hu] at heq
    rw [Except.ok.inj heq, hname] at hname'
    exact absurd hname' (by decide)

end NeonWrt.Uci
