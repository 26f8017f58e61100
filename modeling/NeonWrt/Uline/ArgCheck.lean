import NeonWrt.Uline.ArgParser

/-!
# Checking a line for completeness

`argp.check` runs the loop of `argp.parse` without the lists of arguments and returns what a line
lacks. The quoting states are the same in both modes, and what is missing completes each of them.
Text is only collected where there is a list for it; but a quoting character makes an argument in
both modes, and an argument is pushed onto the list whether there is one or not.
-/

namespace NeonWrt.Uline

open NeonWrt.Lib

/-- What one character does to the quoting state. -/
def ArgState.next : ArgState → UInt8 → ArgState
  | .unquoted, c =>
    if c = 39 then .singleQuote
    else if c = 34 then .doubleQuote
    else if c = 92 then .backslash
    else .unquoted
  | .backslash, _ => .unquoted
  | .doubleQuoteBackslash, _ => .doubleQuote
  | .singleQuote, c => if c = 39 then .unquoted else .singleQuote
  | .doubleQuote, c =>
    if c = 34 then .unquoted
    else if c = 92 then .doubleQuoteBackslash
    else .doubleQuote

section States

variable {lineSep : UInt8} {check : Bool} {p : ArgParser}

/-- Characters that keep a state may be left out. -/
theorem foldl_dropWhile (st : ArgState) (f : UInt8 → Bool) (h : ∀ c, f c = true → st.next c = st)
    (l : Bytes) : (l.dropWhile f).foldl ArgState.next st = l.foldl ArgState.next st := by
  induction l with
  | nil => rfl
  | cons c l ih =>
    by_cases hc : f c = true
    · rw [List.dropWhile_cons_of_pos hc, List.foldl_cons, h c hc, ih]
    · rw [List.dropWhile_cons_of_neg hc]

@[simp] theorem ArgParser.state_newLine (p : ArgParser) (check : Bool) :
    (p.newLine check).state = p.state := by
  unfold newLine
  cases check with
  | true => rfl
  | false => exact state_finish _ _

theorem unquoted_next_of_isspace {c : UInt8} (h : isspace c = true) : ArgState.unquoted.next c = .unquoted := by
  rw [ArgState.next, if_neg, if_neg, if_neg]
  all_goals
    rintro rfl
    exact absurd h (by decide)

theorem unquoted_next_of_plain {c : UInt8} (h : c ∉ unquoteTok lineSep) :
    ArgState.unquoted.next c = .unquoted := by
  simp only [mem_unquoteTok, not_or] at h
  rw [ArgState.next, if_neg h.2.1, if_neg h.2.2.1, if_neg h.2.2.2.1]

theorem unquotedStep_foldl (hstate : p.state = .unquoted) :
    (unquotedStep lineSep check p).rest.foldl ArgState.next (unquotedStep lineSep check p).state =
      p.rest.foldl ArgState.next .unquoted := by
  have hplain := foldl_dropWhile .unquoted (· ∉ unquoteTok lineSep)
    (fun c hc => unquoted_next_of_plain (by simpa using hc)) p.rest
  unfold unquotedStep
  generalize hq : (p.mark.addUntil check (unquoteTok lineSep)).setEnd = q
  have hrest : q.rest = p.rest.dropWhile (· ∉ unquoteTok lineSep) := by simp [← hq]
  have hqs : q.state = .unquoted := by simp [← hq, hstate]
  rw [← hplain, ← hrest]
  cases hc : q.rest with
  | nil => simp [hc, hqs]
  | cons c cs =>
    by_cases h1 : c = 39
    · simp [h1, hc, ArgState.next]
    by_cases h2 : c = 34
    · simp [h2, hc, ArgState.next]
    by_cases h3 : c = 92
    · simp [h3, hc, ArgState.next]
    have hnext : ArgState.unquoted.next c = .unquoted := by
      rw [ArgState.next, if_neg h1, if_neg h2, if_neg h3]
    rw [List.foldl_cons, hnext]
    by_cases h4 : lineSep ≠ 0 ∧ c = lineSep
    · simp only [if_neg h1, if_neg h2, if_neg h3, if_pos h4, ArgParser.rest_newLine,
        ArgParser.state_newLine, hc, hqs, List.drop_one, List.tail_cons]
    · simp only [if_neg h1, if_neg h2, if_neg h3, if_neg h4, hc, hqs, List.foldl_cons, hnext]

/-- An iteration reads the characters one after the other. -/
theorem step_foldl (h : p.rest ≠ []) :
    (step lineSep check p).rest.foldl ArgState.next (step lineSep check p).state =
      p.rest.foldl ArgState.next p.state := by
  obtain ⟨c, cs, hrest⟩ := List.exists_cons_of_ne_nil h
  have hslash : ∀ after, (∀ d, p.state.next d = after) →
      (backslashStep check after p).rest.foldl ArgState.next (backslashStep check after p).state =
        p.rest.foldl ArgState.next p.state := by
    intro after hafter
    have hstate : (backslashStep check after p).state = after := rfl
    rw [rest_backslashStep, hstate, hrest, List.foldl_cons, hafter, List.drop_one, List.tail_cons]
  unfold step
  cases hst : p.state with
  | unquoted =>
    simp only
    split_ifs with hspace
    · rw [ArgParser.rest_finish, ArgParser.state_finish, ArgParser.rest_skipSpace,
        ArgParser.state_skipSpace, hst]
      exact foldl_dropWhile _ _ (fun c hc => unquoted_next_of_isspace hc) p.rest
    · exact unquotedStep_foldl hst
  | backslash => simpa only [hst] using hslash .unquoted fun d => by rw [hst]; rfl
  | doubleQuoteBackslash => simpa only [hst] using hslash .doubleQuote fun d => by rw [hst]; rfl
  | singleQuote =>
    have hplain := foldl_dropWhile .singleQuote (· ∉ [39])
      (fun c hc => by simp [ArgState.next, show c ≠ 39 by simpa using hc]) p.rest
    simp only [singleQuoteStep]
    generalize hq : p.mark.addUntil check [39] = q
    have hrest : q.rest = p.rest.dropWhile (· ∉ [39]) := by simp [← hq]
    have hqs : q.state = .singleQuote := by simp [← hq, hst]
    rw [← hplain, ← hrest]
    cases hd : q.rest with
    | nil => simp [hd, hqs]
    | cons d ds =>
      by_cases hquote : d = 39
      · simp [hquote, hd, ArgState.next]
      · simp [hquote, hd, hqs, ArgState.next]
  | doubleQuote =>
    have hplain := foldl_dropWhile .doubleQuote (· ∉ [34, 92])
      (fun c hc => by
        have : c ≠ 34 ∧ c ≠ 92 := by simpa using hc
        simp [ArgState.next, this]) p.rest
    simp only [doubleQuoteStep]
    generalize hq : p.mark.addUntil check [34, 92] = q
    have hrest : q.rest = p.rest.dropWhile (· ∉ [34, 92]) := by simp [← hq]
    have hqs : q.state = .doubleQuote := by simp [← hq, hst]
    rw [← hplain, ← hrest]
    cases hd : q.rest with
    | nil => simp [hd, hqs]
    | cons d ds =>
      by_cases hquote : d = 34
      · simp [hquote, hd, ArgState.next]
      · by_cases hslash : d = 92
        · simp [hslash, hd, ArgState.next]
        · simp [hquote, hslash, hd, hqs, ArgState.next]

theorem state_run (lineSep : UInt8) (check : Bool) (p : ArgParser) :
    (run lineSep check p).state = p.rest.foldl ArgState.next p.state := by
  fun_induction run lineSep check p with
  | case1 p h => rw [h]; rfl
  | case2 p h ih => rw [ih, step_foldl h]

/-- The state of a line, which the mode and the line separator have no part in. -/
theorem state_run_start (lineSep : UInt8) (check : Bool) (s : Bytes) :
    (run lineSep check (start s)).state = (cstr s).foldl ArgState.next .unquoted := by
  rw [state_run]
  exact foldl_dropWhile _ _ (fun c hc => unquoted_next_of_isspace hc) (cstr s)

theorem check_eq_missing (lineSep : UInt8) (s : Bytes) :
    Uline.check lineSep s = (parse lineSep s).missing := by
  rw [Uline.check, parse, ArgParser.state_finish, state_run_start, state_run_start]

theorem check_append_missing (lineSep : UInt8) {s : Bytes} (hs : 0 ∉ s) :
    Uline.check lineSep (s ++ (Uline.check lineSep s).getD []) = none := by
  have hmissing : ∀ st, (0 : UInt8) ∉ (stateStr st).getD [] ∧
      stateStr (((stateStr st).getD []).foldl ArgState.next st) = none := by
    intro st
    cases st <;> decide
  have hcheck : ∀ {t}, 0 ∉ t →
      Uline.check lineSep t = stateStr (t.foldl ArgState.next .unquoted) := by
    intro t ht
    rw [Uline.check, state_run_start, cstr_eq_self ht]
  rw [hcheck hs]
  obtain ⟨hnul, hdone⟩ := hmissing (s.foldl ArgState.next .unquoted)
  rw [hcheck, List.foldl_append, hdone]
  simp [hs, hnul]

end States

/-- A call that adds to the lists: to `list`, to `pos_list`, or a new line to `args` and
`pos_args`. -/
inductive ListCall
  | push (arg : Bytes)
  | addPos (startIdx endIdx : ℤ)
  | newLine
  deriving DecidableEq

/-- The calls that finish an argument, if there is one. -/
def ArgParser.finishCalls (p : ArgParser) : List ListCall :=
  match p.buf with
  | none => []
  | some b => [.push b, .addPos p.startIdx p.endIdx]

/-- The parser behind a stretch of text. -/
def ArgParser.behindText (lineSep : UInt8) (check : Bool) (p : ArgParser) : ArgParser :=
  (p.mark.addUntil check (unquoteTok lineSep)).setEnd

/-- The calls for the character that ends a stretch of text. Those for a line separator are made
if there are lists. -/
def endCalls (lineSep : UInt8) (check : Bool) (q : ArgParser) : List ListCall :=
  match q.rest with
  | [] => []
  | c :: _ =>
    if c = 39 ∨ c = 34 ∨ c = 92 then []
    else if lineSep ≠ 0 ∧ c = lineSep then
      if check then [] else q.finishCalls ++ [.newLine]
    else []

/-- The calls of one iteration. -/
def stepCalls (lineSep : UInt8) (check : Bool) (p : ArgParser) : List ListCall :=
  match p.state with
  | .unquoted =>
    if p.rest.head?.any isspace then p.skipSpace.finishCalls
    else endCalls lineSep check (p.behindText lineSep check)
  | _ => []

/-- The calls of the loop and of the lines behind it. -/
def runCalls (lineSep : UInt8) (check : Bool) (p : ArgParser) : List ListCall :=
  if _h : p.rest = [] then p.finishCalls
  else stepCalls lineSep check p ++ runCalls lineSep check (step lineSep check p)
termination_by p.rest.length
decreasing_by exact step_lt lineSep check _h

/-- A call on the lists. -/
def ListCall.build : List ArgLine × ArgLine → ListCall → List ArgLine × ArgLine
  | (lines, line), push arg => (lines, { line with args := line.args ++ [arg] })
  | (lines, line), addPos s e => (lines, { line with pos := line.pos ++ [(s, e)] })
  | (lines, line), newLine => (lines ++ [line], ⟨[], []⟩)

/-- What a check promises: it finds the same missing as parsing, that completes the line, and it
adds nothing to the lists, which it has none of. -/
structure CheckComplete (lineSep : UInt8) (s : Bytes) : Prop where
  missing : Uline.check lineSep s = (parse lineSep s).missing
  complete : Uline.check lineSep (s ++ (Uline.check lineSep s).getD []) = none
  lists : runCalls lineSep true (start s) = []

section Lists

variable {lineSep : UInt8} {p : ArgParser}

theorem finish_build (p : ArgParser) :
    ((p.finish false).lines, (p.finish false).line) =
      p.finishCalls.foldl ListCall.build (p.lines, p.line) := by
  unfold ArgParser.finish ArgParser.finishCalls
  cases p.buf <;> rfl

theorem newLine_build (p : ArgParser) :
    ((p.newLine false).lines, (p.newLine false).line) =
      (p.finishCalls ++ [ListCall.newLine]).foldl ListCall.build (p.lines, p.line) := by
  unfold ArgParser.newLine ArgParser.finish ArgParser.finishCalls
  cases p.buf <;> rfl

theorem lists_mark (p : ArgParser) : (p.mark.lines, p.mark.line) = (p.lines, p.line) := by
  unfold ArgParser.mark
  split_ifs <;> rfl

/-- A quoting character. -/
def Quotes (c : UInt8) : Prop := c = 39 ∨ c = 34 ∨ c = 92

theorem blank_step (lineSep : UInt8) (check : Bool) (hstate : p.state = .unquoted)
    (hspace : p.rest.head?.any isspace = true) :
    step lineSep check p = p.skipSpace.finish check ∧
      stepCalls lineSep check p = p.skipSpace.finishCalls := by
  rw [step, stepCalls, hstate]
  exact ⟨if_pos hspace, if_pos hspace⟩

/-- Text outside quotes: it goes to the end of the line or a blank, a quote begins behind it, or
there is a line separator. -/
theorem text_step {check : Bool} (hstate : p.state = .unquoted)
    (hspace : ¬p.rest.head?.any isspace = true) {q : ArgParser}
    (hq : p.behindText lineSep check = q) :
    (step lineSep check p = q ∧ stepCalls lineSep check p = []) ∨
    (∃ c cs st, q.rest = c :: cs ∧ Quotes c ∧ step lineSep check p = q.enter st ∧
      stepCalls lineSep check p = []) ∨
    (∃ c cs, q.rest = c :: cs ∧ ¬Quotes c ∧ step lineSep check p = q.newLine check ∧
      stepCalls lineSep check p = if check then [] else q.finishCalls ++ [.newLine]) := by
  have hstep : step lineSep check p = unquotedStep lineSep check p := by
    rw [step, hstate]
    exact if_neg hspace
  have hcalls : stepCalls lineSep check p = endCalls lineSep check q := by
    rw [stepCalls, hstate, ← hq]
    exact if_neg hspace
  rw [hstep, hcalls, endCalls]
  unfold unquotedStep
  rw [ArgParser.behindText] at hq
  rw [hq]
  cases hrest : q.rest with
  | nil =>
    left
    simp only [hrest, and_self]
  | cons c cs =>
    by_cases hquote : c = 39 ∨ c = 34 ∨ c = 92
    · right
      left
      rcases hquote with rfl | rfl | rfl
      · exact ⟨39, cs, .singleQuote, rfl, Or.inl rfl, by simp [hrest]⟩
      · exact ⟨34, cs, .doubleQuote, rfl, Or.inr (Or.inl rfl), by simp [hrest]⟩
      · exact ⟨92, cs, .backslash, rfl, Or.inr (Or.inr rfl), by simp [hrest]⟩
    · have h1 : c ≠ 39 := fun h => hquote (Or.inl h)
      have h2 : c ≠ 34 := fun h => hquote (Or.inr (Or.inl h))
      have h3 : c ≠ 92 := fun h => hquote (Or.inr (Or.inr h))
      by_cases hsep : lineSep ≠ 0 ∧ c = lineSep
      · right
        right
        refine ⟨c, cs, rfl, hquote, ?_, ?_⟩
        · simp only [hrest, if_neg h1, if_neg h2, if_neg h3, if_pos hsep]
        · simp only [if_neg hquote, if_pos hsep]
      · left
        simp only [hrest, if_neg h1, if_neg h2, if_neg h3, if_neg hsep, if_neg hquote, and_self]

/-- An iteration does to the lists what its calls do. -/
theorem step_build (lineSep : UInt8) (p : ArgParser) :
    ((step lineSep false p).lines, (step lineSep false p).line) =
      (stepCalls lineSep false p).foldl ListCall.build (p.lines, p.line) := by
  have hslash : ∀ after, ((backslashStep false after p).lines, (backslashStep false after p).line) =
      (p.lines, p.line) := by
    intro after
    rw [← lists_mark p]
    unfold backslashStep
    simp only
    split_ifs <;> rfl
  cases hst : p.state with
  | unquoted =>
    by_cases hspace : p.rest.head?.any isspace = true
    · obtain ⟨hstep, hcalls⟩ := blank_step lineSep false hst hspace
      rw [hstep, hcalls]
      exact finish_build p.skipSpace
    · have hlines : ((p.behindText lineSep false).lines, (p.behindText lineSep false).line) =
          (p.lines, p.line) := lists_mark p
      rw [← hlines]
      rcases text_step hst hspace rfl with ⟨hstep, hcalls⟩ | ⟨c, cs, st, -, -, hstep, hcalls⟩ |
        ⟨c, cs, -, -, hstep, hcalls⟩
      · rw [hstep, hcalls]
        rfl
      · rw [hstep, hcalls]
        rfl
      · rw [hstep, hcalls, if_neg Bool.false_ne_true]
        exact newLine_build _
  | backslash =>
    rw [step, stepCalls, hst]
    exact hslash _
  | doubleQuoteBackslash =>
    rw [step, stepCalls, hst]
    exact hslash _
  | singleQuote =>
    rw [step, stepCalls, hst, ← lists_mark p]
    simp only [singleQuoteStep]
    split_ifs <;> rfl
  | doubleQuote =>
    rw [step, stepCalls, hst, ← lists_mark p]
    simp only [doubleQuoteStep]
    split_ifs <;> rfl

theorem exists_dropWhile {f : UInt8 → Bool} (h : ∀ c, f c = true → ¬Quotes c) (l : Bytes) :
    (∃ c ∈ l.dropWhile f, Quotes c) ↔ ∃ c ∈ l, Quotes c := by
  constructor
  · rintro ⟨c, hc, hquotes⟩
    exact ⟨c, (List.dropWhile_sublist f).subset hc, hquotes⟩
  · rintro ⟨c, hc, hquotes⟩
    rw [← List.takeWhile_append_dropWhile (p := f) (l := l)] at hc
    rcases List.mem_append.mp hc with hc | hc
    · exact absurd hquotes (h c (List.mem_takeWhile_imp hc))
    · exact ⟨c, hc, hquotes⟩

theorem buf_behindText (lineSep : UInt8) (p : ArgParser) :
    (p.behindText lineSep true).buf = p.buf := by
  simp [ArgParser.behindText, ArgParser.addUntil, ArgParser.add, ArgParser.setEnd]

/-- An iteration of a check that adds nothing to the lists keeps the argument it reads. -/
theorem buf_step (h : stepCalls lineSep true p = []) (hbuf : p.buf.isSome) :
    (step lineSep true p).buf.isSome := by
  have hadd : ∀ tok, (p.mark.addUntil true tok).buf = p.buf := by
    intro tok
    simp [ArgParser.addUntil, ArgParser.add]
  have hslash : ∀ after, (backslashStep true after p).buf = p.buf := by
    intro after
    unfold backslashStep
    simp only
    split_ifs
    · exact p.buf_mark
    · simp [ArgParser.setEnd, ArgParser.add]
  cases hst : p.state with
  | unquoted =>
    by_cases hspace : p.rest.head?.any isspace = true
    · -- the argument would be pushed
      rw [(blank_step lineSep true hst hspace).2, ArgParser.finishCalls] at h
      obtain ⟨b, hb⟩ := Option.isSome_iff_exists.mp hbuf
      rw [show p.skipSpace.buf = some b from hb] at h
      cases h
    · have hq : (p.behindText lineSep true).buf.isSome := buf_behindText lineSep p ▸ hbuf
      rcases text_step hst hspace rfl with ⟨hstep, -⟩ | ⟨c, cs, st, -, -, hstep, -⟩ |
        ⟨c, cs, -, -, hstep, -⟩
      · rw [hstep]
        exact hq
      · rw [hstep]
        rfl
      · rw [hstep]
        exact hq
  | backslash =>
    rw [step, hst]
    exact (hslash _).symm ▸ hbuf
  | doubleQuoteBackslash =>
    rw [step, hst]
    exact (hslash _).symm ▸ hbuf
  | singleQuote =>
    have hq := hadd [39]
    rw [step, hst]
    simp only [singleQuoteStep]
    split_ifs <;> exact hq.symm ▸ hbuf
  | doubleQuote =>
    have hq := hadd [34, 92]
    rw [step, hst]
    simp only [doubleQuoteStep]
    split_ifs <;> exact hq.symm ▸ hbuf

/-- An argument that a check has begun is pushed in the end. -/
theorem runCalls_ne_nil (hbuf : p.buf.isSome) : runCalls lineSep true p ≠ [] := by
  fun_induction runCalls lineSep true p with
  | case1 p h =>
    obtain ⟨b, hb⟩ := Option.isSome_iff_exists.mp hbuf
    rw [ArgParser.finishCalls, hb]
    exact List.cons_ne_nil _ _
  | case2 p h ih =>
    intro hnil
    obtain ⟨hstep, hrun⟩ := List.append_eq_nil_iff.mp hnil
    exact ih (buf_step hstep hbuf) hrun

/-- Outside quotes and arguments, an iteration of a check opens a quote or stays there. -/
theorem step_outside (lineSep : UInt8) (hstate : p.state = .unquoted) (hbuf : p.buf = none) :
    stepCalls lineSep true p = [] ∧
      (((step lineSep true p).buf.isSome ∧ ∃ c ∈ p.rest, Quotes c) ∨
        ((step lineSep true p).state = .unquoted ∧ (step lineSep true p).buf = none ∧
          ((∃ c ∈ (step lineSep true p).rest, Quotes c) ↔ ∃ c ∈ p.rest, Quotes c))) := by
  by_cases hspace : p.rest.head?.any isspace = true
  · have hskip : p.skipSpace.buf = none := hbuf
    obtain ⟨hstep, hcalls⟩ := blank_step lineSep true hstate hspace
    rw [hstep, hcalls, ArgParser.finishCalls, ArgParser.finish, hskip]
    refine ⟨rfl, Or.inr ⟨hstate, hbuf, exists_dropWhile (fun c hc hquotes => ?_) p.rest⟩⟩
    rcases hquotes with rfl | rfl | rfl <;> exact absurd hc (by decide)
  · generalize hq : p.behindText lineSep true = q
    have hqs : q.state = .unquoted := by simp [← hq, ArgParser.behindText, hstate]
    have hqb : q.buf = none := by rw [← hq, buf_behindText, hbuf]
    have hrest : (∃ c ∈ q.rest, Quotes c) ↔ ∃ c ∈ p.rest, Quotes c := by
      have hdrop : q.rest = p.rest.dropWhile (· ∉ unquoteTok lineSep) := by
        simp [← hq, ArgParser.behindText]
      rw [hdrop]
      refine exists_dropWhile (fun c hc hquotes => ?_) p.rest
      have htok : c ∉ unquoteTok lineSep := by simpa using hc
      refine htok (mem_unquoteTok.mpr (Or.inr ?_))
      rcases hquotes with h | h | h
      · exact Or.inl h
      · exact Or.inr (Or.inl h)
      · exact Or.inr (Or.inr (Or.inl h))
    rcases text_step hstate hspace hq with ⟨hstep, hcalls⟩ | ⟨c, cs, st, hqr, hc, hstep, hcalls⟩ |
      ⟨c, cs, hqr, hc, hstep, hcalls⟩
    · rw [hstep, hcalls]
      exact ⟨rfl, Or.inr ⟨hqs, hqb, hrest⟩⟩
    · rw [hstep, hcalls]
      refine ⟨rfl, Or.inl ⟨rfl, hrest.mp ⟨c, ?_, hc⟩⟩⟩
      rw [hqr]
      exact List.mem_cons_self ..
    · rw [hstep, hcalls]
      refine ⟨rfl, Or.inr ⟨by rw [ArgParser.state_newLine, hqs], hqb, ?_⟩⟩
      rw [ArgParser.rest_newLine, ← hrest, hqr, List.exists_mem_cons_iff]
      simp [hc]

/-- Outside quotes and arguments, a check calls nothing exactly if nothing is quoted. -/
theorem runCalls_eq_nil_iff (lineSep : UInt8) (hstate : p.state = .unquoted)
    (hbuf : p.buf = none) :
    runCalls lineSep true p = [] ↔ ¬∃ c ∈ p.rest, Quotes c := by
  fun_induction runCalls lineSep true p with
  | case1 p h =>
    simp [ArgParser.finishCalls, hbuf, h]
  | case2 p h ih =>
    obtain ⟨hcalls, ⟨hopened, hquotes⟩ | ⟨hst, hb, hrest⟩⟩ :=
      step_outside lineSep hstate hbuf
    · rw [hcalls, List.nil_append]
      exact iff_of_false (runCalls_ne_nil hopened) (not_not_intro hquotes)
    · rw [hcalls, List.nil_append, ih hst hb, hrest]

/-- A check does all it promises exactly on the strings without a quote or a backslash. -/
theorem checkComplete_iff (lineSep : UInt8) {s : Bytes} (hs : 0 ∉ s) :
    CheckComplete lineSep s ↔ ¬∃ c ∈ s, Quotes c := by
  have hstart : (∃ c ∈ (start s).rest, Quotes c) ↔ ∃ c ∈ s, Quotes c := by
    have hrest : (start s).rest = s.dropWhile isspace := by
      rw [start, ArgParser.rest_skipSpace, cstr_eq_self hs]
    rw [hrest]
    refine exists_dropWhile (fun c hc hquotes => ?_) s
    rcases hquotes with rfl | rfl | rfl <;> exact absurd hc (by decide)
  rw [← hstart, ← runCalls_eq_nil_iff lineSep (p := start s) rfl rfl]
  exact ⟨fun h => h.lists,
    fun h => ⟨check_eq_missing lineSep s, check_append_missing lineSep hs, h⟩⟩

/-- Two words. -/
theorem checkComplete_words :
    CheckComplete 0 (ascii "a b") ↔ ¬∃ c ∈ ascii "a b", Quotes c :=
  checkComplete_iff 0 (by decide)

/-- A check of a quoted word pushes the word onto a list it does not have. -/
theorem not_checkComplete : runCalls 0 true (start (ascii "'a' b")) = [.push [], .addPos 0 3] ∧
    ¬CheckComplete 0 (ascii "'a' b") := by
  have hcalls : runCalls 0 true (start (ascii "'a' b")) = [.push [], .addPos 0 3] := by
    decide +kernel
  refine ⟨hcalls, fun h => ?_⟩
  have := h.lists
  rw [hcalls] at this
  cases this

end Lists

end NeonWrt.Uline
