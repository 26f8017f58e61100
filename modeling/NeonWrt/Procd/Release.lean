import NeonWrt.Lib.Blanks
import NeonWrt.Lib.Lines

/-!
# Release files

neon-procd answers `system board` from the `KEY="value"` lines of os-release and
openwrt_release. Each line is trimmed, cut at the equals sign, and its value
stripped of quotes and backslashes in place. This file models the parser and
shows that it undoes the quoting of the files.
-/

namespace NeonWrt.Procd

open Lib

/-- The fields of `struct release_info`. -/
inductive ReleaseField where
  | distribution
  | version
  | revision
  | codename
  | target
  | description
  | builddate
  | firmwareUrl
  deriving DecidableEq

/-- `struct release_info`. -/
structure ReleaseInfo where
  distribution : Buf 128
  version : Buf 128
  revision : Buf 128
  codename : Buf 128
  target : Buf 128
  description : Buf 256
  builddate : Buf 64
  firmwareUrl : Buf 256

/-- The size of the buffer of a field. -/
def ReleaseField.size : ReleaseField → ℕ
  | .description | .firmwareUrl => 256
  | .builddate => 64
  | _ => 128

/-- The string in a field. -/
def ReleaseInfo.get (ri : ReleaseInfo) : ReleaseField → Bytes
  | .distribution => ri.distribution.bytes
  | .version => ri.version.bytes
  | .revision => ri.revision.bytes
  | .codename => ri.codename.bytes
  | .target => ri.target.bytes
  | .description => ri.description.bytes
  | .builddate => ri.builddate.bytes
  | .firmwareUrl => ri.firmwareUrl.bytes

/-- `copy_string` into the buffer of a field. -/
def ReleaseInfo.put (ri : ReleaseInfo) (value : Bytes) : ReleaseField → ReleaseInfo
  | .distribution => { ri with distribution := .print 128 value }
  | .version => { ri with version := .print 128 value }
  | .revision => { ri with revision := .print 128 value }
  | .codename => { ri with codename := .print 128 value }
  | .target => { ri with target := .print 128 value }
  | .description => { ri with description := .print 256 value }
  | .builddate => { ri with builddate := .print 64 value }
  | .firmwareUrl => { ri with firmwareUrl := .print 256 value }

/-- The characters that `trim_ws` trims. -/
def isWs (c : UInt8) : Bool := c == 32 || c == 9 || c == 13 || c == 10

/-- `trim_ws`. -/
def trimWs (s : Bytes) : Bytes := trimBy isWs s

/-- The loop of `unquote_value`: a backslash gives way to the character after it. -/
def unescape : Bytes → Bytes
  | [] => []
  | [c] => [c]
  | c :: d :: rest => if c = 92 then d :: unescape rest else c :: unescape (d :: rest)

/-- `unquote_value`, as the caller sees it who has trimmed the value. -/
def unquoteValue (value : Bytes) : Bytes :=
  let v := trimWs value
  if 2 ≤ v.length ∧ (v.head? = some 39 ∨ v.head? = some 34) ∧ v.getLast? = v.head? then
    unescape v.tail.dropLast
  else unescape v

/-- The keys that `release_assign` compares with. -/
def releaseKeys : List (String × ReleaseField) :=
  [("NAME", .distribution), ("DISTRIB_ID", .distribution), ("VERSION", .version),
    ("DISTRIB_RELEASE", .version), ("BUILD_ID", .revision), ("DISTRIB_REVISION", .revision),
    ("VERSION_CODENAME", .codename), ("DISTRIB_CODENAME", .codename),
    ("OPENWRT_BOARD", .target), ("DISTRIB_TARGET", .target), ("OPENWRT_RELEASE", .description),
    ("DISTRIB_DESCRIPTION", .description), ("OPENWRT_BUILD_DATE", .builddate),
    ("FIRMWARE_URL", .firmwareUrl)]

/-- The field that a key names. -/
def fieldOf (key : Bytes) : Option ReleaseField :=
  (releaseKeys.find? fun k => caseEq key (ascii k.1)).map Prod.snd

/-- `release_assign`. -/
def releaseAssign (onlyIfEmpty : Bool) (ri : ReleaseInfo) (key value : Bytes) : ReleaseInfo :=
  match fieldOf key with
  | none => ri
  | some f => if onlyIfEmpty ∧ ri.get f ≠ [] then ri else ri.put value f

/-- The loop body of `parse_release_file`. -/
def parseReleaseLine (onlyIfEmpty : Bool) (ri : ReleaseInfo) (line : Bytes) : ReleaseInfo :=
  let key := trimWs (cstr line)
  if key = [] ∨ key.head? = some 35 then ri
  else
    match key.dropWhile (· ≠ 61) with
    | [] => ri
    | _ :: value =>
      releaseAssign onlyIfEmpty ri (trimWs (key.takeWhile (· ≠ 61))) (unquoteValue (trimWs value))

/-- `parse_release_file`, on the contents of a file that can be opened. -/
def parseReleaseFile (onlyIfEmpty : Bool) (ri : ReleaseInfo) (content : Bytes) : ReleaseInfo :=
  (fgetsLines 512 [] content).foldl (parseReleaseLine onlyIfEmpty) ri

/-- The text that stands for `s` between quotes: a backslash before each of the
characters that `esc` names. -/
def escaped (esc : UInt8 → Bool) (s : Bytes) : Bytes :=
  s.flatMap fun c => if esc c then [92, c] else [c]

/-- `s` between quotes. -/
def quoted (q : UInt8) (esc : UInt8 → Bool) (s : Bytes) : Bytes := q :: escaped esc s ++ [q]

/-- A key: no blanks, no equals sign, and no comment. -/
structure IsKey (key : Bytes) : Prop where
  ne_nil : key ≠ []
  chars : ∀ c ∈ key, isWs c = false ∧ c ≠ 61 ∧ c ≠ 0
  head : key.head? ≠ some 35

/-- A line, without its newline, and the assignment it makes. At least the
backslash is escaped in a value, and possibly either or both kinds of quotes. -/
inductive ReleaseLine : Bytes → Option (Bytes × Bytes) → Prop
  | blank {l : Bytes} : (∀ c ∈ l, isWs c = true) → ReleaseLine l none
  | comment {lead text : Bytes} : (∀ c ∈ lead, isWs c = true) → ReleaseLine (lead ++ 35 :: text) none
  | assign {lead key a b trail s : Bytes} {q : UInt8} {esc : UInt8 → Bool} :
      (∀ c ∈ lead, isWs c = true) → IsKey key → (∀ c ∈ a, isWs c = true) →
      (∀ c ∈ b, isWs c = true) → (∀ c ∈ trail, isWs c = true) → q = 34 ∨ q = 39 →
      esc 92 = true → 0 ∉ s →
      ReleaseLine (lead ++ (key ++ a ++ 61 :: (b ++ quoted q esc s)) ++ trail) (some (key, s))

/-- A file of such lines, each ended by a newline, the last one perhaps not, and
the assignments it makes. Each line fits the line buffer. -/
inductive ReleaseFile : Bytes → List (Bytes × Bytes) → Prop
  | nil : ReleaseFile [] []
  | last {l : Bytes} {m : Option (Bytes × Bytes)} : ReleaseLine l m → l ≠ [] → 10 ∉ l →
      l.length < 512 → ReleaseFile l m.toList
  | cons {l rest : Bytes} {m : Option (Bytes × Bytes)} {ms : List (Bytes × Bytes)} :
      ReleaseLine l m → 10 ∉ l → l.length + 1 < 512 → ReleaseFile rest ms →
      ReleaseFile (l ++ 10 :: rest) (m.toList ++ ms)

/-- The values that are assigned to a field, in order. -/
def valuesFor (f : ReleaseField) (ms : List (Bytes × Bytes)) : List Bytes :=
  (ms.filter fun m => fieldOf m.1 = some f).map Prod.snd

/-- What assignments leave in a field that holds `init`: the last value, or with
`onlyIfEmpty` the first one that is not empty. -/
def assigned (onlyIfEmpty : Bool) (init : Bytes) (values : List Bytes) : Bytes :=
  if onlyIfEmpty then ((init :: values).find? (· ≠ [])).getD []
  else values.getLast?.getD init

theorem escaped_cons (esc : UInt8 → Bool) (c : UInt8) (s : Bytes) :
    escaped esc (c :: s) = (if esc c then [92, c] else [c]) ++ escaped esc s := rfl

theorem unescape_escaped {esc : UInt8 → Bool} (hesc : esc 92 = true) (s : Bytes) :
    unescape (escaped esc s) = s := by
  induction s with
  | nil => rfl
  | cons c s ih =>
    rw [escaped_cons]
    -- an escaped character is taken after its backslash
    by_cases hc : esc c = true
    · rw [if_pos hc]
      simpa [unescape] using ih
    · have hne : c ≠ 92 := fun h => hc (h ▸ hesc)
      rw [if_neg hc]
      -- The loop looks one character ahead, which there need not be.
      cases hs : escaped esc s with
      | nil =>
        rw [hs] at ih
        simpa [unescape] using ih
      | cons d rest =>
        rw [hs] at ih
        simpa [unescape, hne] using ih

theorem isWs_quote {q : UInt8} (hq : q = 34 ∨ q = 39) : isWs q = false := by
  rcases hq with rfl | rfl <;> decide

theorem trimWs_quoted {q : UInt8} (hq : q = 34 ∨ q = 39) (esc : UInt8 → Bool) (s : Bytes)
    {b : Bytes} (hb : ∀ c ∈ b, isWs c = true) : trimWs (b ++ quoted q esc s) = quoted q esc s := by
  have hne := isWs_quote hq
  have := @trimBy_eq_of_append _ isWs b (quoted q esc s) [] hb (by simp)
    (by simp [quoted, hne]) (by simp [quoted, List.getLast?_cons, hne])
  simpa [trimWs] using this

theorem unquoteValue_quoted {q : UInt8} (hq : q = 34 ∨ q = 39) {esc : UInt8 → Bool}
    (hesc : esc 92 = true) (s : Bytes) : unquoteValue (quoted q esc s) = s := by
  have htrim : trimWs (quoted q esc s) = quoted q esc s := by
    exact trimWs_quoted hq esc s (b := []) (by simp)
  have hlast : (quoted q esc s).getLast? = some q := by simp [quoted, List.getLast?_cons]
  have hlen : 2 ≤ (quoted q esc s).length := by simp [quoted]
  have hbody : (quoted q esc s).tail.dropLast = escaped esc s := by simp [quoted]
  have hhead : (quoted q esc s).head? = some q := rfl
  simp only [unquoteValue, htrim, hlast, hhead, hbody, unescape_escaped hesc]
  rw [if_pos]
  rcases hq with rfl | rfl <;> simp [hlen]

/-- What an assignment, or none, does to the fields. -/
def applyAssignment (onlyIfEmpty : Bool) (ri : ReleaseInfo) : Option (Bytes × Bytes) → ReleaseInfo
  | none => ri
  | some (key, s) => releaseAssign onlyIfEmpty ri key s

theorem ne_zero_of_isWs {c : UInt8} (h : isWs c = true) : c ≠ 0 := by
  rintro rfl
  exact absurd h (by decide)

theorem ne_equals_of_isWs {c : UInt8} (h : isWs c = true) : c ≠ 61 := by
  rintro rfl
  exact absurd h (by decide)

theorem zero_notMem_quoted {q : UInt8} (hq : q = 34 ∨ q = 39) {esc : UInt8 → Bool} {s : Bytes}
    (hs : 0 ∉ s) : 0 ∉ quoted q esc s := by
  have hq0 : (0 : UInt8) ≠ q := by rcases hq with rfl | rfl <;> decide
  have hesc : 0 ∉ escaped esc s := by
    simp only [escaped, List.mem_flatMap, not_exists, not_and]
    intro c hc
    have hc0 : (0 : UInt8) ≠ c := fun h => hs (h ▸ hc)
    split <;> simp [hc0]
  simp [quoted, hq0, hesc]

theorem parseReleaseLine_blank (onlyIfEmpty : Bool) (ri : ReleaseInfo) {l : Bytes}
    (h : ∀ c ∈ l, isWs c = true) : parseReleaseLine onlyIfEmpty ri l = ri := by
  have hcstr : cstr l = l := cstr_eq_self fun h0 => ne_zero_of_isWs (h 0 h0) rfl
  have htrim : trimWs l = [] := by
    have := @trimBy_eq_of_append _ isWs l [] [] h (by simp) (by simp) (by simp)
    simpa [trimWs] using this
  simp [parseReleaseLine, hcstr, htrim]

theorem parseReleaseLine_comment (onlyIfEmpty : Bool) (ri : ReleaseInfo) {lead : Bytes}
    (h : ∀ c ∈ lead, isWs c = true) (text : Bytes) :
    parseReleaseLine onlyIfEmpty ri (lead ++ 35 :: text) = ri := by
  have hcstr : cstr (lead ++ 35 :: text) = lead ++ 35 :: cstr text := by
    rw [cstr, List.takeWhile_append_of_pos fun c hc => by simpa using ne_zero_of_isWs (h c hc)]
    rfl
  -- The number sign is no blank, so trimming stops at it.
  have hhead : (trimWs (lead ++ 35 :: cstr text)).head? = some 35 := by
    have hdrop : (lead ++ 35 :: cstr text).dropWhile isWs = 35 :: cstr text := by
      rw [List.dropWhile_append_of_pos h]
      exact List.dropWhile_cons_of_neg (by decide)
    rw [trimWs, trimBy, hdrop]
    have hprefix := List.rdropWhile_prefix isWs (35 :: cstr text)
    have hne : (35 :: cstr text).rdropWhile isWs ≠ [] := by
      rw [Ne, List.rdropWhile_eq_nil_iff]
      exact fun hall => absurd (hall 35 List.mem_cons_self) (by decide)
    obtain ⟨c, rest, hcons⟩ := List.exists_cons_of_ne_nil hne
    rw [hcons] at hprefix ⊢
    rw [(List.cons_prefix_cons.mp hprefix).1]
    rfl
  simp [parseReleaseLine, hcstr, hhead]

theorem parseReleaseLine_assign (onlyIfEmpty : Bool) (ri : ReleaseInfo)
    {lead key a b trail s : Bytes} {q : UInt8} {esc : UInt8 → Bool}
    (hlead : ∀ c ∈ lead, isWs c = true) (hkey : IsKey key) (ha : ∀ c ∈ a, isWs c = true)
    (hb : ∀ c ∈ b, isWs c = true) (htrail : ∀ c ∈ trail, isWs c = true) (hq : q = 34 ∨ q = 39)
    (hesc : esc 92 = true) (hs : 0 ∉ s) :
    parseReleaseLine onlyIfEmpty ri
      (lead ++ (key ++ a ++ 61 :: (b ++ quoted q esc s)) ++ trail) =
      releaseAssign onlyIfEmpty ri key s := by
  obtain ⟨k, ks, rfl⟩ := List.exists_cons_of_ne_nil hkey.ne_nil
  have hws (l : Bytes) (h : ∀ c ∈ l, isWs c = true) : 0 ∉ l := fun h0 => ne_zero_of_isWs (h 0 h0) rfl
  have hcstr : cstr (lead ++ (k :: ks ++ a ++ 61 :: (b ++ quoted q esc s)) ++ trail) =
      lead ++ (k :: ks ++ a ++ 61 :: (b ++ quoted q esc s)) ++ trail := by
    refine cstr_eq_self ?_
    have hkey0 : 0 ∉ k :: ks := fun h0 => (hkey.chars 0 h0).2.2 rfl
    simp only [List.mem_append, List.mem_cons, not_or] at hkey0 ⊢
    exact ⟨⟨hws lead hlead, ⟨hkey0, hws a ha⟩, by decide, hws b hb, zero_notMem_quoted hq hs⟩,
      hws trail htrail⟩
  -- the line starts with the key and ends with a quote
  have htrim : trimWs (lead ++ (k :: ks ++ a ++ 61 :: (b ++ quoted q esc s)) ++ trail) =
      k :: ks ++ a ++ 61 :: (b ++ quoted q esc s) := by
    refine trimBy_eq_of_append hlead htrail ?_ ?_
    · simpa using (hkey.chars k List.mem_cons_self).1
    · have hlast : (k :: ks ++ a ++ 61 :: (b ++ quoted q esc s)).getLast? = some q := by
        have hassoc : k :: ks ++ a ++ 61 :: (b ++ quoted q esc s) =
            (k :: ks ++ a ++ 61 :: (b ++ q :: escaped esc s)) ++ [q] := by simp [quoted]
        rw [hassoc, List.getLast?_concat]
      rw [hlast]
      rintro c ⟨⟩
      exact isWs_quote hq
  have hkeychars : ∀ c ∈ k :: ks ++ a, decide (c ≠ 61) = true := by
    intro c hc
    rcases List.mem_append.mp hc with hc | hc
    · simpa using (hkey.chars c hc).2.1
    · simpa using ne_equals_of_isWs (ha c hc)
  -- the first equals sign is the one behind the key
  have hdrop : (k :: ks ++ a ++ 61 :: (b ++ quoted q esc s)).dropWhile (· ≠ 61) =
      61 :: (b ++ quoted q esc s) := by
    rw [List.dropWhile_append_of_pos hkeychars]
    exact List.dropWhile_cons_of_neg (by simp)
  have htake : (k :: ks ++ a ++ 61 :: (b ++ quoted q esc s)).takeWhile (· ≠ 61) = k :: ks ++ a := by
    rw [List.takeWhile_append_of_pos hkeychars, List.takeWhile_cons_of_neg (by simp),
      List.append_nil]
  have hkeytrim : trimWs (k :: ks ++ a) = k :: ks := by
    have := @trimBy_eq_of_append _ isWs [] (k :: ks) a (by simp) ha
      (by simpa using (hkey.chars k List.mem_cons_self).1)
      (fun c hc => (hkey.chars c (List.mem_of_mem_getLast? hc)).1)
    simpa [trimWs] using this
  have hhead : ¬ (k :: ks ++ a ++ 61 :: (b ++ quoted q esc s) = [] ∨
      (k :: ks ++ a ++ 61 :: (b ++ quoted q esc s)).head? = some 35) := by
    have := hkey.head
    simpa using this
  simp only [parseReleaseLine, hcstr, htrim, if_neg hhead, hdrop, htake, hkeytrim,
    trimWs_quoted hq esc s hb, unquoteValue_quoted hq hesc s]

/-- A line makes its assignment, with its newline or without. -/
theorem parseReleaseLine_eq {l : Bytes} {m : Option (Bytes × Bytes)} (h : ReleaseLine l m)
    (onlyIfEmpty : Bool) (ri : ReleaseInfo) {nl : Bytes} (hnl : ∀ c ∈ nl, isWs c = true) :
    parseReleaseLine onlyIfEmpty ri (l ++ nl) = applyAssignment onlyIfEmpty ri m := by
  have hws {b : Bytes} (hb : ∀ c ∈ b, isWs c = true) : ∀ c ∈ b ++ nl, isWs c = true := by
    intro c hc
    rcases List.mem_append.mp hc with hc | hc
    · exact hb c hc
    · exact hnl c hc
  cases h with
  -- the newline is one more blank at the end
  | blank hl => exact parseReleaseLine_blank _ _ (hws hl)
  | comment hlead =>
    rw [List.append_assoc]
    exact parseReleaseLine_comment _ _ hlead _
  | assign hlead hkey ha hb htrail hq hesc hs =>
    rw [List.append_assoc]
    exact parseReleaseLine_assign _ _ hlead hkey ha hb (hws htrail) hq hesc hs

theorem get_put (ri : ReleaseInfo) {value : Bytes} {f : ReleaseField} (h : value.length < f.size)
    (g : ReleaseField) : (ri.put value f).get g = if g = f then value else ri.get g := by
  cases f <;> cases g <;> simp_all [ReleaseInfo.put, ReleaseInfo.get, Buf.print, ReleaseField.size,
    snprintf_of_length_lt]

/-- The file is read line by line, and each line makes its assignment. -/
theorem parseReleaseFile_eq {content : Bytes} {ms : List (Bytes × Bytes)}
    (h : ReleaseFile content ms) (onlyIfEmpty : Bool) (ri : ReleaseInfo) :
    parseReleaseFile onlyIfEmpty ri content =
      ms.foldl (fun ri m => releaseAssign onlyIfEmpty ri m.1 m.2) ri := by
  unfold parseReleaseFile
  -- one line of the file at a time, as `fgets` reads them
  induction h generalizing ri with
  | nil => rfl
  | @last l m hl hne hnl hlen =>
    rw [fgetsLines_last [] l hne hnl (by simpa using hlen)]
    have hline := parseReleaseLine_eq hl onlyIfEmpty ri
      (show ∀ c ∈ ([] : Bytes), isWs c = true by simp)
    cases m <;> simpa [applyAssignment] using hline
  | @cons l rest m ms hl hnl hlen _ ih =>
    rw [fgetsLines_line [] l rest hnl (by simpa using hlen), List.foldl_cons, List.nil_append,
      parseReleaseLine_eq hl onlyIfEmpty ri (by decide +kernel), ih]
    cases m <;> rfl

theorem assigned_cons (onlyIfEmpty : Bool) (init v : Bytes) (vs : List Bytes) :
    assigned onlyIfEmpty init (v :: vs) =
      assigned onlyIfEmpty (if onlyIfEmpty ∧ init ≠ [] then init else v) vs := by
  cases onlyIfEmpty with
  | false => cases vs <;> simp [assigned, List.getLast?_cons]
  | true => by_cases h : init = [] <;> simp [assigned, h]

theorem releaseAssign_get (onlyIfEmpty : Bool) (ri : ReleaseInfo) {key value : Bytes}
    (hfits : ∀ f, fieldOf key = some f → value.length < f.size) (f : ReleaseField) :
    (releaseAssign onlyIfEmpty ri key value).get f =
      if fieldOf key = some f then (if onlyIfEmpty ∧ ri.get f ≠ [] then ri.get f else value)
      else ri.get f := by
  unfold releaseAssign
  cases hkey : fieldOf key with
  | none => simp
  | some g =>
    -- the field that the key names, or another one
    by_cases hg : g = f
    · subst hg
      by_cases hkeep : onlyIfEmpty ∧ ri.get g ≠ []
      · simp only [if_true, if_pos hkeep]
      · simp only [if_true, if_neg hkeep, get_put ri (hfits g hkey)]
    · simp only [Option.some.injEq, hg, if_false]
      split
      · rfl
      · rw [get_put ri (hfits g hkey), if_neg (Ne.symm hg)]

/-- After a release file, each field holds the last value that the file assigns
to it, or with `onlyIfEmpty` the first that is not empty. -/
theorem parseReleaseFile_get {content : Bytes} {ms : List (Bytes × Bytes)}
    (h : ReleaseFile content ms)
    (hfits : ∀ m ∈ ms, ∀ f, fieldOf m.1 = some f → m.2.length < f.size) (onlyIfEmpty : Bool)
    (ri : ReleaseInfo) (f : ReleaseField) :
    (parseReleaseFile onlyIfEmpty ri content).get f =
      assigned onlyIfEmpty (ri.get f) (valuesFor f ms) := by
  rw [parseReleaseFile_eq h]
  clear h
  induction ms generalizing ri with
  | nil =>
    cases hget : ri.get f <;> cases onlyIfEmpty <;> simp [assigned, valuesFor, hget]
  | cons m ms ih =>
    rw [List.foldl_cons, ih fun m hm => hfits m (List.mem_cons_of_mem _ hm),
      releaseAssign_get _ _ (hfits m List.mem_cons_self)]
    -- the first assignment is to the field or not
    by_cases hm : fieldOf m.1 = some f
    · have hvalues : valuesFor f (m :: ms) = m.2 :: valuesFor f ms := by simp [valuesFor, hm]
      rw [if_pos hm, hvalues, assigned_cons]
    · have hvalues : valuesFor f (m :: ms) = valuesFor f ms := by simp [valuesFor, hm]
      rw [if_neg hm, hvalues]

/-- Empty fields. -/
def ReleaseInfo.empty : ReleaseInfo :=
  ⟨.print 128 [], .print 128 [], .print 128 [], .print 128 [], .print 128 [], .print 256 [],
    .print 64 [], .print 256 []⟩

/-- A file with a comment and two assignments to one field. -/
theorem parseReleaseFile_neonwrt :
    let text := ascii "# release\nname=\"Neon\\\"Wrt\"\nDISTRIB_ID = 'x'\n"
    (parseReleaseFile false .empty text).get .distribution = ascii "x" ∧
      (parseReleaseFile true .empty text).get .distribution = ascii "Neon\"Wrt" := by
  intro text
  have hfile : ReleaseFile (ascii "# release" ++ 10 :: (ascii "name=\"Neon\\\"Wrt\"" ++
      10 :: (ascii "DISTRIB_ID = 'x'" ++ 10 :: [])))
      [(ascii "name", ascii "Neon\"Wrt"), (ascii "DISTRIB_ID", ascii "x")] := by
    have hcomment : ReleaseLine (ascii "# release") none :=
      @ReleaseLine.comment [] (ascii " release") (by simp)
    have hname : ReleaseLine (ascii "name=\"Neon\\\"Wrt\"")
        (some (ascii "name", ascii "Neon\"Wrt")) :=
      @ReleaseLine.assign [] (ascii "name") [] [] [] (ascii "Neon\"Wrt") 34
        (fun c => c == 92 || c == 34) (by simp) ⟨by decide, by decide +kernel, by decide⟩ (by simp)
        (by simp) (by simp) (by simp) rfl (by decide)
    have hid : ReleaseLine (ascii "DISTRIB_ID = 'x'") (some (ascii "DISTRIB_ID", ascii "x")) :=
      @ReleaseLine.assign [] (ascii "DISTRIB_ID") (ascii " ") (ascii " ") [] (ascii "x") 39
        (fun c => c == 92) (by simp) ⟨by decide, by decide +kernel, by decide⟩ (by decide +kernel)
        (by decide +kernel) (by simp) (by simp) rfl (by decide)
    exact .cons hcomment (by decide) (by decide)
      (.cons hname (by decide) (by decide) (.cons hid (by decide) (by decide) .nil))
  have hfits : ∀ m ∈ [(ascii "name", ascii "Neon\"Wrt"), (ascii "DISTRIB_ID", ascii "x")],
      ∀ f, fieldOf m.1 = some f → m.2.length < f.size := by
    have hsize (f : ReleaseField) : 64 ≤ f.size := by cases f <;> decide
    have hlen : ∀ m ∈ [(ascii "name", ascii "Neon\"Wrt"), (ascii "DISTRIB_ID", ascii "x")],
        m.2.length < 64 := by decide
    exact fun m hm f _ => lt_of_lt_of_le (hlen m hm) (hsize f)
  exact ⟨parseReleaseFile_get hfile hfits false .empty .distribution,
    parseReleaseFile_get hfile hfits true .empty .distribution⟩

end NeonWrt.Procd
