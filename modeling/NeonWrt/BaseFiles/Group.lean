import NeonWrt.Lib.Replace

/-!
# Members of groups

`group_add_user` looks for a user among the members of a group and adds it to the line
of the group in `/etc/group`. The user is looked for as a part of the text of all
members, and the line is replaced wherever its text is found in the file.
-/

namespace NeonWrt.BaseFiles.Group

open Lib

/-- No character is special in a pattern or in a replacement. -/
def Plain (t : Bytes) : Prop := ∀ c ∈ t, c ∉ ascii "\\/&.*[^$\n"

/-- No character ends a part of an `s` command or is special in a replacement. -/
def Script (t : Bytes) : Prop := ∀ c ∈ t, c ∉ ascii "\\/&\n"

/-- The command `s/pattern/replacement/g`. -/
def command (pattern replacement : Bytes) : Bytes :=
  ascii "s/" ++ (pattern ++ 47 :: (replacement ++ ascii "/g"))

/-- Patterns as `grep` and `sed` have them. -/
structure Tools where
  /-- The first match of a pattern in a line: where it begins, and how long it is. -/
  find : Bytes → Bytes → Option (ℕ × ℕ)
  /-- A line after `s/pattern/replacement/g`. -/
  subst : Bytes → Bytes → Bytes → Bytes
  /-- The lines of a file after `sed -i` with a script. -/
  sed : Bytes → List Bytes → List Bytes
  find_plain : ∀ pattern line, Plain pattern → ((find pattern line).isSome ↔ pattern <:+: line)
  subst_none : ∀ pattern replacement line, find pattern line = none →
    subst pattern replacement line = line
  subst_whole : ∀ pattern replacement line, line ≠ [] → Script replacement →
    find pattern line = some (0, line.length) → subst pattern replacement line = replacement
  subst_plain : ∀ pattern replacement line, Plain pattern → pattern ≠ [] → Script replacement →
    subst pattern replacement line = replaceAll pattern replacement line
  sed_command : ∀ pattern replacement lines, pattern ≠ [] → Script pattern → Script replacement →
    sed (command pattern replacement) lines = lines.map (subst pattern replacement)

/-- `cut -d: -f4` of a line with colons. -/
def membersField (line : Bytes) : Bytes := (line.splitOn 58).getD 3 []

/-- `group_add_user`: the lines of `/etc/group` afterwards, for a group with a name of legal
characters. -/
def groupAddUser (tools : Tools) (file : List Bytes) (g u : Bytes) : List Bytes :=
  let lines := file.filter fun line => g ++ [58] <+: line
  let echo := if lines = [] then [[]] else lines
  if echo.any fun line => (tools.find u (membersField line)).isSome then file
  else
    let grp := join 10 lines
    let delim := if echo.any fun line => line.getLast? = some 58 then [] else [44]
    tools.sed (command grp (grp ++ delim ++ u)) file

/-- A group. -/
structure Entry where
  name : Bytes
  passwd : Bytes
  gid : Bytes
  members : List Bytes

namespace Entry

variable (e : Entry)

/-- The members as a text. -/
def memberText : Bytes := join 44 e.members

/-- The line of a group. -/
def text : Bytes := e.name ++ 58 :: (e.passwd ++ 58 :: (e.gid ++ 58 :: e.memberText))

/-- A character of a name. -/
def legal (c : UInt8) : Bool := isalnum c || c == 95 || c == 45

/-- The fields have no separators in them. -/
structure Valid : Prop where
  name_legal : e.name.all legal
  passwd : 58 ∉ e.passwd ∧ 10 ∉ e.passwd
  gid : 58 ∉ e.gid ∧ 10 ∉ e.gid
  members : ∀ m ∈ e.members, m ≠ [] ∧ 44 ∉ m ∧ 58 ∉ m ∧ 10 ∉ m

end Entry

/-- The name of a user. -/
structure User (u : Bytes) : Prop where
  ne_nil : u ≠ []
  legal : u.all Entry.legal
  no_option : u.head? ≠ some 45

/-- The user is a member once, and the members before are kept in order. -/
structure Added (old : List Bytes) (u : Bytes) (members : List Bytes) : Prop where
  once : members.count u = 1
  kept : old.Sublist members
  others : members.filter (· ≠ u) = old.filter (· ≠ u)

/-- The user is added to the group, and no other line is changed. -/
def Exact (tools : Tools) (before : List Bytes) (e : Entry) (after : List Bytes) (u : Bytes) : Prop :=
  ∃ members, Added e.members u members ∧
    groupAddUser tools (before ++ e.text :: after) e.name u =
      before ++ { e with members := members }.text :: after

/-- The user is found only as a member, and the line is found as a whole and in no other line. -/
def Fine (tools : Tools) (before : List Bytes) (e : Entry) (after : List Bytes) (u : Bytes) : Prop :=
  if (tools.find u e.memberText).isSome then e.members.count u = 1
  else Script e.text ∧ tools.find e.text e.text = some (0, e.text.length) ∧
    ∀ line ∈ before ++ after, tools.find e.text line = none

section Line

variable {e : Entry} {u : Bytes} {before after : List Bytes}

/-- A member more. -/
def Entry.add (e : Entry) (u : Bytes) : Entry := { e with members := e.members ++ [u] }

theorem Entry.Valid.colon_notMem (he : e.Valid) : (58 : UInt8) ∉ e.memberText := by
  intro h
  rcases mem_join h with h | ⟨m, hm, h⟩
  · exact absurd h (by decide)
  · exact (he.members m hm).2.2.1 h

theorem Entry.Valid.name_notMem (he : e.Valid) : (58 : UInt8) ∉ e.name := fun h =>
  absurd (List.all_eq_true.mp he.name_legal 58 h) (by decide)

/-- The fourth field is that of the members. -/
theorem membersField_text (he : e.Valid) : membersField e.text = e.memberText := by
  have htext : e.text = join 58 [e.name, e.passwd, e.gid, e.memberText] := by
    simp [join, List.intercalate, Entry.text]
  have hsplit : e.text.splitOn 58 = [e.name, e.passwd, e.gid, e.memberText] := by
    rw [htext]
    apply splitOn_join (List.cons_ne_nil _ _)
    simp [he.name_notMem, he.passwd.1, he.gid.1, he.colon_notMem]
  rw [membersField, hsplit]
  rfl

theorem memberText_eq_nil_iff (he : e.Valid) : e.memberText = [] ↔ e.members = [] := by
  refine ⟨fun h => ?_, fun h => by rw [Entry.memberText, h]; rfl⟩
  have hws : ∀ w ∈ e.members, w ≠ [] ∧ 44 ∉ w :=
    fun w hw => ⟨(he.members w hw).1, (he.members w hw).2.1⟩
  exact join_inj hws (by simp) h

/-- The line ends with a colon if there is no member. -/
theorem getLast?_text (he : e.Valid) : e.text.getLast? = some 58 ↔ e.members = [] := by
  have htext : e.text =
      (e.name ++ 58 :: (e.passwd ++ 58 :: e.gid)) ++ [58] ++ e.memberText := by
    simp [Entry.text]
  rw [← memberText_eq_nil_iff he]
  constructor
  · intro h
    by_contra hne
    rw [htext, List.getLast?_append_of_ne_nil _ hne] at h
    exact he.colon_notMem (List.mem_of_getLast? h)
  · intro h
    rw [htext, h, List.append_nil, List.getLast?_concat]

theorem text_add (he : e.Valid) :
    e.text ++ (if e.text.getLast? = some 58 then [] else [44]) ++ u = (e.add u).text := by
  have hjoin : (e.add u).memberText =
      (if e.members = [] then [] else e.memberText ++ [44]) ++ u := join_concat 44 e.members u
  have htext : (e.add u).text =
      e.name ++ 58 :: (e.passwd ++ 58 :: (e.gid ++ 58 :: (e.add u).memberText)) := rfl
  rw [if_congr (getLast?_text he) rfl rfl, htext, hjoin, Entry.text]
  split_ifs with h
  · rw [(memberText_eq_nil_iff he).mpr h]
    simp
  · simp

end Line

section File

variable {tools : Tools} {e : Entry} {u : Bytes} {before after : List Bytes}

/-- Only the line of the group begins with its name. -/
theorem filter_file (hnames : ∀ line ∈ before ++ after, ¬ e.name ++ [58] <+: line) :
    (before ++ e.text :: after).filter (fun line => e.name ++ [58] <+: line) = [e.text] := by
  have hnone : ∀ lines : List Bytes, (∀ line ∈ lines, line ∈ before ++ after) →
      lines.filter (fun line => e.name ++ [58] <+: line) = [] := by
    intro lines hlines
    rw [List.filter_eq_nil_iff]
    intro line hline
    simpa using hnames line (hlines line hline)
  have hself : e.name ++ [58] <+: e.text :=
    ⟨e.passwd ++ 58 :: (e.gid ++ 58 :: e.memberText), by simp [Entry.text]⟩
  rw [List.filter_append, hnone before fun line h => List.mem_append_left after h,
    List.filter_cons, if_pos (decide_eq_true hself),
    hnone after fun line h => List.mem_append_right before h, List.nil_append]

/-- What is done in a file with one line of the group. -/
theorem groupAddUser_eq (he : e.Valid)
    (hnames : ∀ line ∈ before ++ after, ¬ e.name ++ [58] <+: line) :
    groupAddUser tools (before ++ e.text :: after) e.name u =
      if (tools.find u e.memberText).isSome then before ++ e.text :: after
      else tools.sed (command e.text (e.add u).text) (before ++ e.text :: after) := by
  have hjoin : join 10 [e.text] = e.text := by simp [join]
  rw [groupAddUser, filter_file hnames]
  simp only [List.cons_ne_nil, if_false, List.any_cons, List.any_nil, Bool.or_false,
    membersField_text he, hjoin, decide_eq_true_eq, text_add he]

theorem User.plain (hu : User u) : Plain u := by
  intro c hc hspecial
  have hlegal := List.all_eq_true.mp hu.legal c hc
  have hnone : (ascii "\\/&.*[^$\n").all (fun c => !Entry.legal c) = true := by decide
  have hillegal := List.all_eq_true.mp hnone c hspecial
  rw [hlegal] at hillegal
  cases hillegal

theorem Plain.script {t : Bytes} (h : Plain t) : Script t := by
  intro c hc hspecial
  have hsub : (ascii "\\/&\n").all (fun c => (ascii "\\/&.*[^$\n").contains c) = true := by
    decide
  exact h c hc (List.contains_iff_mem.mp (List.all_eq_true.mp hsub c hspecial))

theorem User.sep_notMem (hu : User u) : (44 : UInt8) ∉ u := fun h =>
  absurd (List.all_eq_true.mp hu.legal 44 h) (by decide)

/-- The user is found where a member has the name as a part. -/
theorem find_user_iff (hu : User u) :
    (tools.find u e.memberText).isSome ↔ ∃ m ∈ e.members, u <:+: m := by
  rw [tools.find_plain u e.memberText hu.plain]
  exact infix_join_iff hu.sep_notMem hu.ne_nil

theorem script_add (he : e.Valid) (hu : User u) (h : Script e.text) : Script (e.add u).text := by
  rw [← text_add he]
  intro c hc
  rcases List.mem_append.mp hc with hc | hc
  · rcases List.mem_append.mp hc with hc | hc
    · exact h c hc
    · split_ifs at hc with hlast
      · cases hc
      · rw [List.mem_singleton.mp hc]
        decide
  · exact hu.plain.script c hc

theorem added_concat (h : u ∉ e.members) : Added e.members u (e.members ++ [u]) where
  once := by rw [List.count_append, List.count_eq_zero_of_not_mem h, List.count_singleton_self]
  kept := List.sublist_append_left _ _
  others := by rw [List.filter_append]; simp

theorem text_ne_nil : e.text ≠ [] := by simp [Entry.text]

/-- A file that stays is right if the user is a member once. -/
theorem unchanged_iff (he : e.Valid) (hu : User u) :
    (∃ members, Added e.members u members ∧
      before ++ e.text :: after = before ++ { e with members := members }.text :: after) ↔
      e.members.count u = 1 := by
  constructor
  · rintro ⟨members, hadded, heq⟩
    have htext : e.text = Entry.text { e with members := members } :=
      (List.cons.inj (List.append_cancel_left heq)).1
    -- the lines agree field by field
    have hjoin : join 44 e.members = join 44 members := by
      have hcancel := List.append_cancel_left htext
      rw [List.cons.injEq] at hcancel
      have hcancel := List.append_cancel_left hcancel.2
      rw [List.cons.injEq] at hcancel
      have hcancel := List.append_cancel_left hcancel.2
      rw [List.cons.injEq] at hcancel
      exact hcancel.2
    -- the new members are the user and members before
    have hmembers : ∀ m ∈ members, m ≠ [] ∧ 44 ∉ m := by
      intro m hm
      rcases eq_or_ne m u with rfl | hne
      · exact ⟨hu.ne_nil, hu.sep_notMem⟩
      · have hold : m ∈ e.members.filter (· ≠ u) := by
          rw [← hadded.others]
          exact List.mem_filter.mpr ⟨hm, decide_eq_true hne⟩
        have hvalid := he.members m (List.mem_filter.mp hold).1
        exact ⟨hvalid.1, hvalid.2.1⟩
    have hsame := join_inj (fun m hm => ⟨(he.members m hm).1, (he.members m hm).2.1⟩) hmembers hjoin
    rw [hsame]
    exact hadded.once
  · intro h
    exact ⟨e.members, ⟨h, List.Sublist.refl _, rfl⟩, rfl⟩

/-- One line of the file is rewritten, and the others stay. -/
theorem map_file_iff {f : Bytes → Bytes} {line line' : Bytes} :
    (before ++ line :: after).map f = before ++ line' :: after ↔
      f line = line' ∧ ∀ x ∈ before ++ after, f x = x := by
  have hfixed : ∀ lines : List Bytes, lines.map f = lines ↔ ∀ x ∈ lines, f x = x := by
    intro lines
    induction lines with
    | nil => simp
    | cons x lines ih => rw [List.map_cons, List.cons.injEq, ih, List.forall_mem_cons]
  rw [List.map_append, List.map_cons, List.forall_mem_append, ← hfixed, ← hfixed]
  constructor
  · intro h
    obtain ⟨hbefore, hrest⟩ := List.append_inj h (List.length_map f)
    obtain ⟨hline, hafter⟩ := List.cons.inj hrest
    exact ⟨hline, hbefore, hafter⟩
  · rintro ⟨hline, hbefore, hafter⟩
    rw [hbefore, hline, hafter]

/-- The user is added when the line is found as a whole, and in no other line. -/
theorem exact_of_fine (he : e.Valid) (hu : User u)
    (hnames : ∀ line ∈ before ++ after, ¬ e.name ++ [58] <+: line)
    (h : Fine tools before e after u) : Exact tools before e after u := by
  rw [Exact, groupAddUser_eq he hnames]
  rw [Fine] at h
  split_ifs at h ⊢ with hfound
  · exact (unchanged_iff he hu).mpr h
  · obtain ⟨hscript, hwhole, hothers⟩ := h
    -- a member is always found
    have hnot : u ∉ e.members := fun hmem =>
      hfound ((find_user_iff hu).mpr ⟨u, hmem, List.infix_refl u⟩)
    refine ⟨e.members ++ [u], added_concat hnot, ?_⟩
    rw [tools.sed_command _ _ _ text_ne_nil hscript (script_add he hu hscript)]
    refine map_file_iff.mpr ⟨?_, fun line hline => ?_⟩
    · exact tools.subst_whole _ _ _ text_ne_nil (script_add he hu hscript) hwhole
    · exact tools.subst_none _ _ _ (hothers line hline)

theorem length_text_add (he : e.Valid) (hu : User u) : e.text.length < (e.add u).text.length := by
  have hpos := List.length_pos_iff.mpr hu.ne_nil
  rw [← text_add he, List.length_append, List.length_append]
  omega

/-- When the line has no special characters, the user is added if no member has it as a part of the
name and no other line has the line as a part; and a user who is found as a part has to be a
member. -/
theorem groupAddUser_exact_iff (he : e.Valid) (hu : User u)
    (hnames : ∀ line ∈ before ++ after, ¬ e.name ++ [58] <+: line) :
    (Fine tools before e after u → Exact tools before e after u) ∧
      (Plain e.text → (Exact tools before e after u ↔
        ((∃ m ∈ e.members, u <:+: m) → e.members.count u = 1) ∧
          ((∀ m ∈ e.members, ¬ u <:+: m) → ∀ line ∈ before ++ after, ¬ e.text <:+: line))) := by
  refine ⟨exact_of_fine he hu hnames, fun hplain => ?_⟩
  rw [Exact, groupAddUser_eq he hnames]
  by_cases hfound : ∃ m ∈ e.members, u <:+: m
  · have hnone : ¬ ∀ m ∈ e.members, ¬ u <:+: m := by
      obtain ⟨m, hm, hpart⟩ := hfound
      exact fun h => h m hm hpart
    rw [if_pos ((find_user_iff hu).mpr hfound), unchanged_iff he hu]
    simp only [hfound, hnone, forall_const, false_implies, and_true]
  · have hnot : u ∉ e.members := fun hmem => hfound ⟨u, hmem, List.infix_refl u⟩
    have hnone : ∀ m ∈ e.members, ¬ u <:+: m := fun m hm hpart => hfound ⟨m, hm, hpart⟩
    have hscript := script_add he hu hplain.script
    -- `sed` replaces the text of the line, wherever it is
    have hsubst : ∀ line, tools.subst e.text (e.add u).text line =
        replaceAll e.text (e.add u).text line :=
      fun line => tools.subst_plain _ _ _ hplain text_ne_nil hscript
    have hstay : ∀ line, tools.subst e.text (e.add u).text line = line ↔ ¬ e.text <:+: line := by
      intro line
      rw [hsubst]
      exact replaceAll_eq_self_iff text_ne_nil (length_text_add he hu)
    rw [if_neg (mt (find_user_iff hu).mp hfound),
      tools.sed_command _ _ _ text_ne_nil hplain.script hscript]
    constructor
    · rintro ⟨members, -, heq⟩
      refine ⟨fun h => absurd h hfound, fun _ line hline => ?_⟩
      exact (hstay line).mp ((map_file_iff.mp heq).2 line hline)
    · rintro ⟨-, hothers⟩
      refine ⟨e.members ++ [u], added_concat hnot, map_file_iff.mpr ⟨?_, fun line hline => ?_⟩⟩
      · rw [hsubst, replaceAll_self text_ne_nil]
        rfl
      · exact (hstay line).mpr (hothers hnone line hline)

end File

section Literal

variable {p r line : Bytes}

/-- The first place where a text is in a line. -/
def firstAt (p line : Bytes) : Option (ℕ × ℕ) :=
  ((List.range (line.length + 1)).find? fun i => p <+: line.drop i).map fun i => (i, p.length)

/-- What `sed` does with a script that is one `s` command. -/
def sedLiteral (script : Bytes) (lines : List Bytes) : List Bytes :=
  match script.splitOn 47 with
  | [_, p, r, _] => lines.map (replaceAll p r)
  | _ => lines

theorem firstAt_isSome : (firstAt p line).isSome ↔ p <:+: line := by
  rw [firstAt, Option.isSome_map, List.find?_isSome]
  constructor
  · rintro ⟨i, -, hp⟩
    exact (of_decide_eq_true hp).isInfix.trans (List.drop_suffix i line).isInfix
  · rintro ⟨front, back, rfl⟩
    have hlt : front.length < (front ++ p ++ back).length + 1 := by
      rw [List.length_append, List.length_append]
      omega
    refine ⟨front.length, List.mem_range.mpr hlt, decide_eq_true ?_⟩
    rw [List.append_assoc, List.drop_left' rfl]
    exact List.prefix_append p back

theorem replaceAll_of_firstAt_none (h : firstAt p line = none) : replaceAll p r line = line := by
  apply replaceAll_of_not_infix
  intro hin
  rw [← firstAt_isSome, h] at hin
  cases hin

theorem replaceAll_of_firstAt_whole (hne : line ≠ []) (h : firstAt p line = some (0, line.length)) :
    replaceAll p r line = r := by
  obtain ⟨i, hfind, hpair⟩ := Option.map_eq_some_iff.mp h
  have hprefix := List.find?_some hfind
  rw [Prod.mk.injEq] at hpair
  obtain ⟨rfl, hlen⟩ := hpair
  rw [decide_eq_true_eq, List.drop_zero] at hprefix
  obtain rfl := hprefix.eq_of_length hlen
  exact replaceAll_self hne

theorem sedLiteral_command (hp : Script p) (hr : Script r) (lines : List Bytes) :
    sedLiteral (command p r) lines = lines.map (replaceAll p r) := by
  have hslash : ∀ t, Script t → (47 : UInt8) ∉ t := fun t ht h => ht 47 h (by decide)
  have hjoin : command p r = join 47 [ascii "s", p, r, ascii "g"] := by
    simp [command, join, List.intercalate, ascii]
  have hsplit : (command p r).splitOn 47 = [ascii "s", p, r, ascii "g"] := by
    rw [hjoin]
    apply splitOn_join (List.cons_ne_nil _ _)
    simp only [List.forall_mem_cons]
    exact ⟨by decide, hslash p hp, hslash r hr, by decide, by simp⟩
  rw [sedLiteral, hsplit]

/-- Tools that take every pattern as a text. -/
def literal : Tools where
  find := firstAt
  subst := replaceAll
  sed := sedLiteral
  find_plain _ _ _ := firstAt_isSome
  subst_none _ _ _ := replaceAll_of_firstAt_none
  subst_whole _ _ _ hne _ := replaceAll_of_firstAt_whole hne
  subst_plain _ _ _ _ _ _ := rfl
  sed_command _ _ lines _ hp hr := sedLiteral_command hp hr lines

/-- The group of the modems, with a member. -/
def dialout : Entry := ⟨ascii "dialout", ascii "x", ascii "20", [ascii "www-data"]⟩

/-- The group of the sound cards, without members. -/
def audio : Entry := ⟨ascii "audio", ascii "x", ascii "29", []⟩

theorem dialout_valid : dialout.Valid :=
  ⟨by decide +kernel, by decide +kernel, by decide +kernel, by decide +kernel⟩

theorem audio_valid : audio.Valid :=
  ⟨by decide +kernel, by decide +kernel, by decide +kernel, by decide +kernel⟩

/-- A user whose name is a part of that of a member is not added, and a group whose line has that of
another one as a part gets the user too. -/
theorem not_exact :
    ¬ Exact literal [] dialout [] (ascii "www") ∧
      ¬ Exact literal [] audio [ascii "pulse-audio:x:29:"] (ascii "mpd") := by
  constructor
  · have hrun : groupAddUser literal ([] ++ dialout.text :: []) dialout.name (ascii "www") =
        [] ++ dialout.text :: [] := by
      decide +kernel
    rw [Exact, hrun, unchanged_iff dialout_valid ⟨by decide, by decide, by decide⟩]
    decide
  · rintro ⟨members, -, heq⟩
    have hrun : groupAddUser literal ([] ++ audio.text :: [ascii "pulse-audio:x:29:"]) audio.name
        (ascii "mpd") = [ascii "audio:x:29:mpd", ascii "pulse-audio:x:29:mpd"] := by
      decide +kernel
    rw [hrun, List.nil_append, List.cons.injEq, List.cons.injEq] at heq
    exact absurd heq.2.1 (by decide)

/-- Between other lines, the user is added. -/
theorem exact_audio :
    Exact literal [ascii "root:x:0:"] audio [ascii "www-data:x:33:"] (ascii "mpd") := by
  have hplain : Plain audio.text := by
    unfold Plain
    decide +kernel
  exact ((groupAddUser_exact_iff audio_valid ⟨by decide, by decide, by decide⟩
    (by decide +kernel)).2 hplain).mpr ⟨by decide +kernel, by decide +kernel⟩

end Literal

end NeonWrt.BaseFiles.Group
