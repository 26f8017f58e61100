import NeonWrt.Uline.ArgParser

/-!
# Escaped arguments are read back

What one iteration of the parser reads and keeps is a relation between quoting
states, `Reads`. The number of quotes and backslashes a whole line may lose
follows from it, and with it which strings `argp.escape()` cannot protect.
-/

namespace NeonWrt.Uline

open NeonWrt.Lib

/-- The plain text of a line: nothing that ends a stretch. -/
def IsPlain (r : Bytes) : Prop := ∀ c ∈ r, c ∉ unquoteTok 0

/-- What is left of a character after a backslash. -/
def unescaped (c : UInt8) : Bytes := if c = 10 then [] else [c]

/-- In a quoting state, an iteration reads bytes, keeps some of them for an
argument and goes on in another state. -/
inductive Reads : ArgState → Bytes → Bytes → ArgState → Prop
  | blanks {r : Bytes} : (∀ c ∈ r, isspace c) → Reads .unquoted r [] .unquoted
  | plain {r : Bytes} : IsPlain r → Reads .unquoted r r .unquoted
  | openSingle {r : Bytes} : IsPlain r → Reads .unquoted (r ++ [39]) r .singleQuote
  | openDouble {r : Bytes} : IsPlain r → Reads .unquoted (r ++ [34]) r .doubleQuote
  | slash {r : Bytes} : IsPlain r → Reads .unquoted (r ++ [92]) r .backslash
  | escaped (c : UInt8) : Reads .backslash [c] (unescaped c) .unquoted
  | escapedDouble (c : UInt8) : Reads .doubleQuoteBackslash [c] (unescaped c) .doubleQuote
  | inSingle {r : Bytes} : 39 ∉ r → Reads .singleQuote r r .singleQuote
  | closeSingle {r : Bytes} : 39 ∉ r → Reads .singleQuote (r ++ [39]) r .unquoted
  | inDouble {r : Bytes} : 34 ∉ r → 92 ∉ r → Reads .doubleQuote r r .doubleQuote
  | closeDouble {r : Bytes} : 34 ∉ r → 92 ∉ r → Reads .doubleQuote (r ++ [34]) r .unquoted
  | slashDouble {r : Bytes} : 34 ∉ r → 92 ∉ r →
      Reads .doubleQuote (r ++ [92]) r .doubleQuoteBackslash

/-- The parser reads a stretch of its input, and its arguments grow by what it keeps. -/
def StepReads (p q : ArgParser) : Prop :=
  ∃ r k, p.rest = r ++ q.rest ∧ q.out = p.out ++ k ∧ Reads p.state r k q.state

theorem notMem_of_takeWhile {tok r : Bytes} :
    ∀ c ∈ r.takeWhile (· ∉ tok), c ∉ tok := by
  intro c hc
  simpa using List.mem_takeWhile_imp hc

theorem unquotedStep_reads {p : ArgParser} (hstate : p.state = .unquoted) :
    StepReads p (unquotedStep 0 false p) := by
  have hsplit := (List.takeWhile_append_dropWhile (p := (· ∉ unquoteTok 0)) (l := p.rest)).symm
  have hplain : IsPlain (p.rest.takeWhile (· ∉ unquoteTok 0)) := notMem_of_takeWhile
  unfold unquotedStep
  generalize hq : (p.mark.addUntil false (unquoteTok 0)).setEnd = q
  have hrest : q.rest = p.rest.dropWhile (· ∉ unquoteTok 0) := by simp [← hq]
  have hout : q.out = p.out ++ p.rest.takeWhile (· ∉ unquoteTok 0) := by simp [← hq]
  have hqs : q.state = .unquoted := by simp [← hq, hstate]
  rw [← hrest] at hsplit
  simp only
  cases hqr : q.rest with
  | nil =>
    refine ⟨_, _, by simpa only [hqr] using hsplit, hout, ?_⟩
    rw [hstate, hqs]
    exact .plain hplain
  | cons c cs =>
    rw [hqr] at hsplit
    have hone : p.rest = (p.rest.takeWhile (· ∉ unquoteTok 0) ++ [c]) ++ cs := by
      rw [List.append_assoc]
      exact hsplit
    simp only
    split_ifs with h1 h2 h3 h4
    · subst h1
      refine ⟨_, _, by rw [ArgParser.rest_enter, hqr]; exact hone, hout, ?_⟩
      rw [hstate]
      exact .openSingle hplain
    · subst h2
      refine ⟨_, _, by rw [ArgParser.rest_enter, hqr]; exact hone, hout, ?_⟩
      rw [hstate]
      exact .openDouble hplain
    · subst h3
      refine ⟨_, _, by rw [ArgParser.rest_enter, hqr]; exact hone, hout, ?_⟩
      rw [hstate]
      exact .slash hplain
    · exact absurd rfl h4.1
    · refine ⟨_, _, by rw [hqr]; exact hsplit, hout, ?_⟩
      rw [hstate, hqs]
      exact .plain hplain

theorem backslashStep_reads {p : ArgParser} {c : UInt8} {cs : Bytes} (hrest : p.rest = c :: cs)
    {after : ArgState} (hreads : Reads p.state [c] (unescaped c) after) :
    StepReads p (backslashStep false after p) := by
  refine ⟨[c], unescaped c, by simp [hrest], ?_, hreads⟩
  unfold backslashStep
  by_cases hc : c = 10
  · -- A continued line: the break is skipped.
    simp only [ArgParser.rest_mark, hrest, List.head?_cons, hc, if_true, unescaped, List.append_nil]
    exact ArgParser.out_mark p
  · simp only [ArgParser.rest_mark, hrest, List.head?_cons, Option.some.injEq, hc, if_false,
      unescaped]
    have hadd : (p.mark.add false 1).out = p.out ++ [c] := by simp [hrest]
    exact hadd

theorem singleQuoteStep_reads {p : ArgParser} (hstate : p.state = .singleQuote) :
    StepReads p (singleQuoteStep false p) := by
  have hsplit := (List.takeWhile_append_dropWhile (p := (· ∉ [39])) (l := p.rest)).symm
  have htext : (39 : UInt8) ∉ p.rest.takeWhile (· ∉ [39]) := fun h =>
    notMem_of_takeWhile 39 h (List.mem_singleton_self 39)
  unfold singleQuoteStep
  generalize hq : p.mark.addUntil false [39] = q
  have hrest : q.rest = p.rest.dropWhile (· ∉ [39]) := by simp [← hq]
  have hout : q.out = p.out ++ p.rest.takeWhile (· ∉ [39]) := by simp [← hq]
  have hqs : q.state = .singleQuote := by simp [← hq, hstate]
  rw [← hrest] at hsplit
  simp only
  split_ifs with h
  · obtain ⟨cs, hcs⟩ := List.head?_eq_some_iff.mp h
    refine ⟨p.rest.takeWhile (· ∉ [39]) ++ [39], _, ?_, hout, ?_⟩
    · simpa [hcs] using hsplit
    · rw [hstate]
      exact .closeSingle htext
  · refine ⟨_, _, hsplit, hout, ?_⟩
    rw [hstate, ArgParser.state_setEnd, hqs]
    exact .inSingle htext

theorem doubleQuoteStep_reads {p : ArgParser} (hstate : p.state = .doubleQuote) :
    StepReads p (doubleQuoteStep false p) := by
  have hsplit := (List.takeWhile_append_dropWhile (p := (· ∉ [34, 92])) (l := p.rest)).symm
  have hquote : (34 : UInt8) ∉ p.rest.takeWhile (· ∉ [34, 92]) := fun h =>
    notMem_of_takeWhile 34 h (by decide)
  have hslash : (92 : UInt8) ∉ p.rest.takeWhile (· ∉ [34, 92]) := fun h =>
    notMem_of_takeWhile 92 h (by decide)
  unfold doubleQuoteStep
  generalize hq : p.mark.addUntil false [34, 92] = q
  have hrest : q.rest = p.rest.dropWhile (· ∉ [34, 92]) := by simp [← hq]
  have hout : q.out = p.out ++ p.rest.takeWhile (· ∉ [34, 92]) := by simp [← hq]
  have hqs : q.state = .doubleQuote := by simp [← hq, hstate]
  rw [← hrest] at hsplit
  simp only
  split_ifs with h1 h2
  · obtain ⟨cs, hcs⟩ := List.head?_eq_some_iff.mp h1
    refine ⟨p.rest.takeWhile (· ∉ [34, 92]) ++ [34], _, ?_, hout, ?_⟩
    · rw [hcs] at hsplit
      rw [ArgParser.rest_setEnd, ArgParser.rest_leave, hcs, List.append_assoc]
      exact hsplit
    · rw [hstate]
      exact .closeDouble hquote hslash
  · obtain ⟨cs, hcs⟩ := List.head?_eq_some_iff.mp h2
    refine ⟨p.rest.takeWhile (· ∉ [34, 92]) ++ [92], _, ?_, hout, ?_⟩
    · rw [hcs] at hsplit
      rw [ArgParser.rest_setEnd, ArgParser.rest_leave, hcs, List.append_assoc]
      exact hsplit
    · rw [hstate]
      exact .slashDouble hquote hslash
  · refine ⟨_, _, hsplit, hout, ?_⟩
    rw [hstate, ArgParser.state_setEnd, hqs]
    exact .inDouble hquote hslash

theorem step_reads {p : ArgParser} (h : p.rest ≠ []) : StepReads p (step 0 false p) := by
  obtain ⟨c, cs, hrest⟩ := List.exists_cons_of_ne_nil h
  unfold step
  cases hstate : p.state with
  | unquoted =>
    simp only
    split_ifs with hspace
    · refine ⟨p.rest.takeWhile isspace, [], ?_, by simp, ?_⟩
      · simp [List.takeWhile_append_dropWhile]
      · rw [hstate, ArgParser.state_finish, ArgParser.state_skipSpace, hstate]
        exact .blanks fun c hc => List.mem_takeWhile_imp hc
    · exact unquotedStep_reads hstate
  | backslash => exact backslashStep_reads hrest (hstate ▸ .escaped c)
  | doubleQuoteBackslash => exact backslashStep_reads hrest (hstate ▸ .escapedDouble c)
  | singleQuote => exact singleQuoteStep_reads hstate
  | doubleQuote => exact doubleQuoteStep_reads hstate

/-- What the loop reads and keeps, iteration after iteration. -/
inductive ReadsAll : ArgState → Bytes → Bytes → ArgState → Prop
  | done (st : ArgState) : ReadsAll st [] [] st
  | more {st st' st'' : ArgState} {r k r' k' : Bytes} : Reads st r k st' →
      ReadsAll st' r' k' st'' → ReadsAll st (r ++ r') (k ++ k') st''

theorem run_reads (p : ArgParser) : ∃ k, (run 0 false p).out = p.out ++ k ∧
    ReadsAll p.state p.rest k (run 0 false p).state := by
  fun_induction run 0 false p with
  | case1 p h => exact ⟨[], by simp, h ▸ .done p.state⟩
  | case2 p h ih =>
    obtain ⟨r, k, hrest, hout, hreads⟩ := step_reads h
    obtain ⟨k', hout', hreads'⟩ := ih
    refine ⟨k ++ k', by rw [hout', hout, List.append_assoc], ?_⟩
    rw [hrest]
    exact .more hreads hreads'

theorem IsPlain.notMem {r : Bytes} (h : IsPlain r) {c : UInt8} (hc : c ∈ unquoteTok 0) : c ∉ r :=
  fun hmem => h c hmem hc

theorem unescaped_sublist (c : UInt8) : (unescaped c).Sublist [c] := by
  unfold unescaped
  split_ifs
  · exact List.nil_sublist _
  · exact List.Sublist.refl _

theorem Reads.sublist {st st' : ArgState} {r k : Bytes} (h : Reads st r k st') : k.Sublist r := by
  cases h with
  | blanks => exact List.nil_sublist _
  | plain | inSingle | inDouble => exact List.Sublist.refl _
  | openSingle | openDouble | slash | closeSingle | closeDouble | slashDouble =>
    exact List.sublist_append_left _ _
  | escaped c | escapedDouble c => exact unescaped_sublist c

/-- Arguments hold nothing that was not in the line. -/
theorem ReadsAll.sublist {st st' : ArgState} {r k : Bytes} (h : ReadsAll st r k st') :
    k.Sublist r := by
  induction h with
  | done => exact List.Sublist.refl _
  | more hread _ ih => exact hread.sublist.append ih

/-- The backslash that was read and whose character is still to come. -/
def pendingSlash : ArgState → ℕ
  | .backslash => 1
  | .doubleQuoteBackslash => 1
  | _ => 0

/-- The backslashes that a text takes outside single quotes: each backslash and
each double quote needs one before it. -/
def slashCost (k : Bytes) : ℕ := 2 * k.count 92 + k.count 34

@[simp] theorem slashCost_nil : slashCost [] = 0 := rfl

@[simp] theorem slashCost_append (k l : Bytes) : slashCost (k ++ l) = slashCost k + slashCost l := by
  simp only [slashCost, List.count_append]
  omega

theorem slashCost_eq_zero {k : Bytes} (hquote : 34 ∉ k) (hslash : 92 ∉ k) : slashCost k = 0 := by
  rw [slashCost, List.count_eq_zero.mpr hquote, List.count_eq_zero.mpr hslash]

theorem slashCost_unescaped (c : UInt8) : slashCost (unescaped c) ≤ 1 + [c].count 92 := by
  by_cases hnl : c = 10
  · simp [unescaped, hnl]
  · simp only [unescaped, hnl, if_false, slashCost]
    by_cases hslash : c = 92
    · simp [hslash]
    · by_cases hquote : c = 34
      · simp [hquote]
      · simp [hslash, hquote]

theorem IsPlain.slashCost {r : Bytes} (h : IsPlain r) : slashCost r = 0 :=
  slashCost_eq_zero (h.notMem (by decide)) (h.notMem (by decide))

/-- Away from single quotes, an iteration pays for what it keeps. -/
theorem Reads.slashCost_le {st st' : ArgState} {r k : Bytes} (h : Reads st r k st')
    (hst : st ≠ .singleQuote) :
    slashCost k + pendingSlash st' ≤ r.count 92 + pendingSlash st := by
  cases h with
  | blanks => simp [pendingSlash]
  | plain hplain => simp [hplain.slashCost, pendingSlash]
  | openSingle hplain => simp [hplain.slashCost, pendingSlash]
  | openDouble hplain => simp [hplain.slashCost, pendingSlash]
  | slash hplain => simp [hplain.slashCost, pendingSlash]
  | escaped c =>
    have := slashCost_unescaped c
    simp only [pendingSlash]
    omega
  | escapedDouble c =>
    have := slashCost_unescaped c
    simp only [pendingSlash]
    omega
  | inSingle => exact absurd rfl hst
  | closeSingle => exact absurd rfl hst
  | inDouble hquote hslash => simp [slashCost_eq_zero hquote hslash, pendingSlash]
  | closeDouble hquote hslash => simp [slashCost_eq_zero hquote hslash, pendingSlash]
  | slashDouble hquote hslash => simp [slashCost_eq_zero hquote hslash, pendingSlash]

/-- A line whose single quotes all end up in its arguments was never inside
single quotes, and has paid for what it kept with backslashes. -/
theorem ReadsAll.slashCost_le {st st' : ArgState} {r k : Bytes} (h : ReadsAll st r k st')
    (hst : st ≠ .singleQuote) (hcount : r.count 39 ≤ k.count 39) :
    slashCost k ≤ r.count 92 + pendingSlash st := by
  induction h with
  | done => simp
  | @more st st' st'' r k r' k' hread hrest ih =>
    have hle := hread.sublist.count_le 39
    have hle' := hrest.sublist.count_le 39
    rw [List.count_append, List.count_append] at hcount
    have hst' : st' ≠ .singleQuote := by
      rintro rfl
      -- The quote that was opened is missing from the arguments.
      cases hread with
      | @openSingle r hplain =>
        rw [List.count_append, List.count_singleton_self] at hcount
        omega
      | inSingle => exact hst rfl
    have hcost := hread.slashCost_le hst
    have := ih hst' (by omega)
    rw [slashCost_append, List.count_append]
    omega

theorem ReadsAll.notMem_cr {st st' : ArgState} {r k : Bytes} (h : ReadsAll st r k st')
    (hst : st = .unquoted) (hquotes : ∀ c ∈ r, c ≠ 39 ∧ c ≠ 34 ∧ c ≠ 92) : 13 ∉ k := by
  induction h with
  | done => simp
  | @more st st' st'' r k r' k' hread hrest ih =>
    subst hst
    have hhead : ∀ c ∈ r, c ≠ 39 ∧ c ≠ 34 ∧ c ≠ 92 := fun c hc =>
      hquotes c (List.mem_append_left _ hc)
    have htail : ∀ c ∈ r', c ≠ 39 ∧ c ≠ 34 ∧ c ≠ 92 := fun c hc =>
      hquotes c (List.mem_append_right _ hc)
    rw [List.mem_append, not_or]
    cases hread with
    | blanks => exact ⟨List.not_mem_nil, ih rfl htail⟩
    | plain hplain => exact ⟨hplain.notMem (by decide), ih rfl htail⟩
    | openSingle => exact absurd rfl (hhead 39 (by simp)).1
    | openDouble => exact absurd rfl (hhead 34 (by simp)).2.1
    | slash => exact absurd rfl (hhead 92 (by simp)).2.2

/-- The first argument of the line is being read: `b` of it so far, `rest` ahead. -/
structure Inside (p : ArgParser) (st : ArgState) (b rest : Bytes) : Prop where
  hstate : p.state = st
  hbuf : p.buf = some b
  hrest : p.rest = rest
  hline : p.line = ⟨[], []⟩

namespace Inside

variable {p : ArgParser} {st st' : ArgState} {b r rest : Bytes} {c : UInt8}

theorem mark (h : Inside p st b rest) : Inside p.mark st b rest := by
  unfold ArgParser.mark
  split
  · exact ⟨h.hstate, h.hbuf, h.hrest, h.hline⟩
  · exact h

theorem setEnd (h : Inside p st b rest) : Inside p.setEnd st b rest :=
  ⟨h.hstate, h.hbuf, h.hrest, h.hline⟩

theorem add (h : Inside p st b (r ++ rest)) : Inside (p.add false r.length) st (b ++ r) rest where
  hstate := h.hstate
  hbuf := by
    simp only [ArgParser.add, h.hrest, List.take_left, Bool.false_or, decide_eq_true_eq]
    split_ifs with hr
    · rw [hr, List.append_nil, h.hbuf]
    · rw [h.hbuf, Option.getD_some]
  hrest := by simp [ArgParser.add, h.hrest]
  hline := h.hline

/-- A stretch ends at the first character of a token set. -/
theorem addUntil {tok : Bytes} (h : Inside p st b (r ++ c :: rest)) (hr : ∀ d ∈ r, d ∉ tok)
    (hc : c ∈ tok) : Inside (p.addUntil false tok) st (b ++ r) (c :: rest) := by
  have htake : p.rest.takeWhile (· ∉ tok) = r := by
    rw [h.hrest, List.takeWhile_append_of_pos (by simpa using hr),
      List.takeWhile_cons_of_neg (by simpa using hc), List.append_nil]
  rw [ArgParser.addUntil, htake]
  exact h.add

theorem leave (h : Inside p st b (c :: rest)) : Inside (p.leave st') st' b rest :=
  ⟨rfl, h.hbuf, by simp [h.hrest], h.hline⟩

/-- A text in single quotes is kept as it is. -/
theorem step_singleQuote (h : Inside p .singleQuote b (r ++ 39 :: rest)) (hr : 39 ∉ r) :
    Inside (step 0 false p) .unquoted (b ++ r) rest := by
  have htext : ∀ d ∈ r, d ∉ [(39 : UInt8)] := fun d hd hmem =>
    hr (List.mem_singleton.mp hmem ▸ hd)
  have hmid := h.mark.addUntil htext (List.mem_singleton_self 39)
  rw [step, h.hstate]
  simp only [singleQuoteStep, hmid.hrest, List.head?_cons, if_true]
  exact hmid.leave.setEnd

theorem addUntil_doubleQuote (h : Inside p .doubleQuote b (r ++ c :: rest)) (hquote : 34 ∉ r)
    (hslash : 92 ∉ r) (hc : c ∈ [34, 92]) :
    Inside (p.mark.addUntil false [34, 92]) .doubleQuote (b ++ r) (c :: rest) := by
  apply h.mark.addUntil _ hc
  intro d hd hmem
  rcases List.mem_pair.mp hmem with rfl | rfl
  · exact hquote hd
  · exact hslash hd

theorem step_doubleQuote_close (h : Inside p .doubleQuote b (r ++ 34 :: rest)) (hquote : 34 ∉ r)
    (hslash : 92 ∉ r) : Inside (step 0 false p) .unquoted (b ++ r) rest := by
  have hmid := h.addUntil_doubleQuote hquote hslash (by simp)
  rw [step, h.hstate]
  simp only [doubleQuoteStep, hmid.hrest, List.head?_cons, if_true]
  exact hmid.leave.setEnd

theorem step_doubleQuote_slash (h : Inside p .doubleQuote b (r ++ 92 :: rest)) (hquote : 34 ∉ r)
    (hslash : 92 ∉ r) : Inside (step 0 false p) .doubleQuoteBackslash (b ++ r) rest := by
  have hmid := h.addUntil_doubleQuote hquote hslash (by simp)
  have hne : ¬(some (92 : UInt8) = some 34) := by decide
  rw [step, h.hstate]
  simp only [doubleQuoteStep, hmid.hrest, List.head?_cons, if_true, if_neg hne]
  exact hmid.leave.setEnd

theorem backslashStep (h : Inside p st b (c :: rest)) (hc : c ≠ 10) :
    Inside (backslashStep false st' p) st' (b ++ [c]) rest := by
  have hhead : p.mark.rest.head? ≠ some 10 := by simp [h.hrest, hc]
  have hadd : Inside (p.mark.add false 1) st (b ++ [c]) rest := Inside.add (r := [c]) h.mark
  unfold Uline.backslashStep
  simp only [if_neg hhead]
  exact ⟨rfl, hadd.hbuf, hadd.hrest, hadd.hline⟩

theorem step_backslash (h : Inside p .backslash b (c :: rest)) (hc : c ≠ 10) :
    Inside (step 0 false p) .unquoted (b ++ [c]) rest := by
  rw [step, h.hstate]
  exact h.backslashStep hc

theorem step_doubleQuoteBackslash (h : Inside p .doubleQuoteBackslash b (c :: rest))
    (hc : c ≠ 10) : Inside (step 0 false p) .doubleQuote (b ++ [c]) rest := by
  rw [step, h.hstate]
  exact h.backslashStep hc

end Inside

theorem addUntil_eq_self {check : Bool} {p : ArgParser} {c : UInt8} {rest tok : Bytes}
    (hrest : p.rest = c :: rest) (hc : c ∈ tok) : p.addUntil check tok = p := by
  have htake : p.rest.takeWhile (· ∉ tok) = [] := by
    rw [hrest, List.takeWhile_cons_of_neg (by simpa using hc)]
  rw [ArgParser.addUntil, htake]
  simp [ArgParser.add]

/-- A quoting character outside quotes opens its state at once, and there is an
argument from then on. -/
theorem step_open {p : ArgParser} (c : UInt8) (st : ArgState) {rest : Bytes}
    (hopen : (c, st) ∈ [(39, ArgState.singleQuote), (34, .doubleQuote), (92, .backslash)])
    (hstate : p.state = .unquoted) (hrest : p.rest = c :: rest) (hline : p.line = ⟨[], []⟩) :
    Inside (step 0 false p) st (p.buf.getD []) rest := by
  have hchar : c = 39 ∨ c = 34 ∨ c = 92 := by
    simp only [List.mem_cons, Prod.mk.injEq, List.not_mem_nil, or_false] at hopen
    tauto
  have htok : c ∈ unquoteTok 0 := mem_unquoteTok.mpr (by tauto)
  have hspace : isspace c = false := by
    rcases hchar with rfl | rfl | rfl <;> decide
  have hmark : p.mark.rest = c :: rest := (p.rest_mark).trans hrest
  -- The stretch before the character is empty.
  have hstep : step 0 false p = p.mark.setEnd.enter st := by
    rw [step, hstate]
    simp only [hrest, List.head?_cons, Option.any_some, hspace, unquotedStep,
      addUntil_eq_self hmark htok, ArgParser.rest_setEnd, hmark]
    simp only [List.mem_cons, Prod.mk.injEq, List.not_mem_nil, or_false] at hopen
    rcases hopen with ⟨rfl, rfl⟩ | ⟨rfl, rfl⟩ | ⟨rfl, rfl⟩ <;> rfl
  rw [hstep]
  exact ⟨rfl, by simp [ArgParser.enter, ArgParser.setEnd], by simp [hrest],
    p.line_mark.trans hline⟩

theorem run_of_ne_nil {lineSep : UInt8} {check : Bool} {p : ArgParser} (h : p.rest ≠ []) :
    run lineSep check p = run lineSep check (step lineSep check p) := by
  rw [run, dif_neg h]

theorem run_of_nil {lineSep : UInt8} {check : Bool} {p : ArgParser} (h : p.rest = []) :
    run lineSep check p = p := by
  rw [run, dif_pos h]

theorem notMem_of_dropWhile {ref : UInt8} {s : Bytes} (h : s.dropWhile (· ≠ ref) = []) :
    ref ∉ s := fun hmem => by
  simpa using List.dropWhile_eq_nil_iff.mp h ref hmem

theorem eq_of_dropWhile {ref c : UInt8} {s next : Bytes}
    (h : s.dropWhile (· ≠ ref) = c :: next) : s = s.takeWhile (· ≠ ref) ++ ref :: next := by
  have hc : c = ref := by
    have := List.head?_dropWhile_not (· ≠ ref) s
    rw [h] at this
    simpa using this
  conv_lhs => rw [← List.takeWhile_append_dropWhile (p := (· ≠ ref)) (l := s), h, hc]

theorem notMem_takeWhile_ne (ref : UInt8) (s : Bytes) : ref ∉ s.takeWhile (· ≠ ref) := fun h => by
  simpa using List.mem_takeWhile_imp h

namespace Inside

variable {p : ArgParser} {b s : Bytes}

/-- A body in single quotes is read back: each quote of it closes the quotes,
stands after a backslash and opens them again. -/
theorem run_singleQuote (h : Inside p .singleQuote b (escapeBody 39 s ++ [39])) :
    Inside (run 0 false p) .unquoted (b ++ s) [] := by
  fun_induction escapeBody 39 s generalizing p b with
  | case1 s hnone =>
    have hstep := h.step_singleQuote (notMem_of_dropWhile hnone)
    rw [run_of_ne_nil (by simp [h.hrest]), run_of_nil hstep.hrest]
    exact hstep
  | case2 s c next hfound ih =>
    have hescaped : escapedRef 39 = [39, 92, 39, 39] := by decide
    rw [hescaped, List.append_assoc, List.append_assoc] at h
    have hclose := h.step_singleQuote (notMem_takeWhile_ne 39 s)
    have hslash := step_open 92 .backslash (by simp) hclose.hstate hclose.hrest hclose.hline
    rw [hclose.hbuf, Option.getD_some] at hslash
    have hquote := hslash.step_backslash (by decide)
    have hopen := step_open 39 .singleQuote (by simp) hquote.hstate hquote.hrest hquote.hline
    rw [hquote.hbuf, Option.getD_some] at hopen
    rw [run_of_ne_nil (by simp [h.hrest]), run_of_ne_nil (by simp [hclose.hrest]),
      run_of_ne_nil (by simp [hslash.hrest]), run_of_ne_nil (by simp [hquote.hrest])]
    have hrun := ih hopen
    rw [List.append_assoc, List.append_assoc] at hrun
    rw [eq_of_dropWhile hfound]
    exact hrun

/-- A body in double quotes without backslashes is read back: each quote of it
stands after a backslash. -/
theorem run_doubleQuote (h : Inside p .doubleQuote b (escapeBody 34 s ++ [34])) (hs : 92 ∉ s) :
    Inside (run 0 false p) .unquoted (b ++ s) [] := by
  fun_induction escapeBody 34 s generalizing p b with
  | case1 s hnone =>
    have hstep := h.step_doubleQuote_close (notMem_of_dropWhile hnone) hs
    rw [run_of_ne_nil (by simp [h.hrest]), run_of_nil hstep.hrest]
    exact hstep
  | case2 s c next hfound ih =>
    have hescaped : escapedRef 34 = [92, 34] := by decide
    rw [hescaped, List.append_assoc, List.append_assoc] at h
    have heq := eq_of_dropWhile hfound
    have htext : 92 ∉ s.takeWhile (· ≠ 34) := fun hmem => 
      hs (List.takeWhile_subset _ hmem)
    have hnext : 92 ∉ next := fun hmem => hs (by rw [heq]; simp [hmem])
    have hslash := h.step_doubleQuote_slash (notMem_takeWhile_ne 34 s) htext
    have hquote := hslash.step_doubleQuoteBackslash (by decide)
    rw [run_of_ne_nil (by simp [h.hrest]), run_of_ne_nil (by simp [hslash.hrest])]
    have hrun := ih hquote hnext
    rw [List.append_assoc, List.append_assoc] at hrun
    rw [heq]
    exact hrun

end Inside

/-- The strings that come back: in single quotes all; in double quotes those
without a backslash; without quotes those that are one plain word. -/
def Escapable (s : Bytes) (refArg : Option Bytes) : Prop :=
  if chooseRef s refArg = 39 then True
  else if chooseRef s refArg = 34 then 92 ∉ s
  else s ≠ [] ∧ 92 ∉ s ∧ 13 ∉ s ∧ s.head? ≠ some 11 ∧ s.head? ≠ some 12

instance (s : Bytes) (refArg : Option Bytes) : Decidable (Escapable s refArg) := by
  unfold Escapable
  infer_instance

/-- Parsing gives exactly one argument, equal to the string, and nothing is missing. -/
def ParsesTo (line s : Bytes) : Prop :=
  (parse 0 line).args = .flat [s] ∧ (parse 0 line).missing = none

instance (line s : Bytes) : Decidable (ParsesTo line s) := inferInstanceAs (Decidable (_ ∧ _))

theorem parsesTo_of_inside {line s : Bytes} (h : Inside (run 0 false (start line)) .unquoted s []) :
    ParsesTo line s := by
  constructor
  · simp [parse, ArgParser.finish, h.hbuf, h.hline]
  · simp [parse, h.hstate, stateStr]

/-- The only argument of a line is what the loop kept of it. -/
theorem readsAll_of_parsesTo {line s : Bytes} (h : ParsesTo line s) (hnul : 0 ∉ line) :
    ∃ st, ReadsAll .unquoted (line.dropWhile isspace) s st := by
  obtain ⟨k, hout, hreads⟩ := run_reads (start line)
  have hstart : (start line).out = [] := rfl
  have hrest : (start line).rest = line.dropWhile isspace := by
    rw [start, ArgParser.rest_skipSpace, cstr_eq_self hnul]
  have hfinish := ArgParser.out_finish (run 0 false (start line))
  have hline : ((run 0 false (start line)).finish false).line.args = [s] := by
    simpa [parse] using h.1
  have hbuf : ((run 0 false (start line)).finish false).buf = none := by
    unfold ArgParser.finish
    split
    next hnone => exact hnone
    next => rfl
  have hs : s = k := by
    rw [hout, hstart, List.nil_append, ArgParser.out, hline, hbuf] at hfinish
    simpa using hfinish
  rw [hrest] at hreads
  exact ⟨_, hs ▸ hreads⟩

theorem count_escapeBody (ref c : UInt8) (s : Bytes) :
    (escapeBody ref s).count c + s.count ref * [ref].count c =
      s.count c + s.count ref * (escapedRef ref).count c := by
  fun_induction escapeBody ref s with
  | case1 s hnone => simp [List.count_eq_zero.mpr (notMem_of_dropWhile hnone)]
  | case2 s d next hfound ih =>
    have hpre : (s.takeWhile (· ≠ ref)).count ref = 0 :=
      List.count_eq_zero.mpr (notMem_takeWhile_ne ref s)
    have heq : ∀ x, s.count x = (s.takeWhile (· ≠ ref)).count x + ([ref].count x + next.count x) := by
      intro x
      conv_lhs => rw [eq_of_dropWhile hfound]
      rw [List.count_append, ← List.singleton_append, List.count_append]
    have href : s.count ref = 1 + next.count ref := by
      rw [heq ref, hpre, List.count_singleton_self]
      omega
    rw [href, heq c, List.count_append, List.count_append, Nat.add_mul, Nat.add_mul, Nat.one_mul,
      Nat.one_mul]
    omega

/-- What the escaper writes around a string. -/
def quoted (ref : UInt8) (s : Bytes) : Bytes := ref :: escapeBody ref s ++ [ref]

theorem escape_of_quote {s : Bytes} {refArg : Option Bytes} {ref : UInt8} (hs : 0 ∉ s)
    (href : chooseRef s refArg = ref) (hquote : ref = 34 ∨ ref = 39) :
    escape s refArg = quoted ref s := by
  rw [escape, cstr_eq_self hs]
  simp only [href]
  rw [if_neg (by tauto), quoted]

theorem escape_of_plain {s : Bytes} {refArg : Option Bytes} (hs : 0 ∉ s)
    (h34 : chooseRef s refArg ≠ 34) (h39 : chooseRef s refArg ≠ 39) : escape s refArg = s := by
  rw [escape, cstr_eq_self hs]
  exact if_pos ⟨h34, h39⟩

theorem nul_notMem_quoted {ref : UInt8} {s : Bytes} (hquote : ref = 34 ∨ ref = 39) (hs : 0 ∉ s) :
    0 ∉ quoted ref s := by
  have hcount := count_escapeBody ref 0 s
  rw [List.count_eq_zero.mpr hs] at hcount
  have hbody : 0 ∉ escapeBody ref s := by
    rw [← List.count_eq_zero]
    rcases hquote with rfl | rfl
    · have : (escapedRef 34).count 0 = 0 := by decide
      rw [this] at hcount
      omega
    · have : (escapedRef 39).count 0 = 0 := by decide
      rw [this] at hcount
      omega
  rcases hquote with rfl | rfl <;> simp [quoted, hbody]

/-- The loop starts behind the opening quote. -/
theorem start_quoted (ref : UInt8) (st : ArgState) {s : Bytes}
    (hopen : (ref, st) ∈ [((39 : UInt8), ArgState.singleQuote), (34, .doubleQuote)]) (hs : 0 ∉ s) :
    run 0 false (start (quoted ref s)) = run 0 false (step 0 false (start (quoted ref s))) ∧
      Inside (step 0 false (start (quoted ref s))) st [] (escapeBody ref s ++ [ref]) := by
  have hquote : ref = 34 ∨ ref = 39 := by
    simp only [List.mem_cons, Prod.mk.injEq, List.not_mem_nil, or_false] at hopen
    tauto
  have hspace : isspace ref = false := by rcases hquote with rfl | rfl <;> decide
  have hrest : (start (quoted ref s)).rest = ref :: (escapeBody ref s ++ [ref]) := by
    rw [start, ArgParser.rest_skipSpace, cstr_eq_self (nul_notMem_quoted hquote hs)]
    rw [quoted, List.cons_append, List.dropWhile_cons_of_neg (by simp [hspace])]
  refine ⟨run_of_ne_nil (by simp [hrest]), step_open ref st ?_ rfl hrest rfl⟩
  simp only [List.mem_cons, Prod.mk.injEq, List.not_mem_nil, or_false] at hopen ⊢
  tauto

theorem parsesTo_singleQuote {s : Bytes} (hs : 0 ∉ s) : ParsesTo (quoted 39 s) s := by
  obtain ⟨hrun, hinside⟩ := start_quoted 39 .singleQuote (by simp) hs
  apply parsesTo_of_inside
  rw [hrun]
  exact hinside.run_singleQuote

theorem parsesTo_doubleQuote_iff {s : Bytes} (hs : 0 ∉ s) :
    ParsesTo (quoted 34 s) s ↔ 92 ∉ s := by
  constructor
  · intro h
    obtain ⟨st, hreads⟩ := readsAll_of_parsesTo h (nul_notMem_quoted (Or.inl rfl) hs)
    have hdrop : (quoted 34 s).dropWhile isspace = quoted 34 s := by
      rw [quoted, List.cons_append, List.dropWhile_cons_of_neg (by decide)]
    rw [hdrop] at hreads
    have hcount : ∀ c, c ≠ 34 → (quoted 34 s).count c = (escapeBody 34 s).count c := by
      intro c hc
      simp [quoted, List.count_append, Ne.symm hc]
    have h39 := count_escapeBody 34 39 s
    have h92 := count_escapeBody 34 92 s
    have hescaped : (escapedRef 34).count 39 = 0 ∧ (escapedRef 34).count 92 = 1 := by decide
    have hsingle : [(34 : UInt8)].count 39 = 0 ∧ [(34 : UInt8)].count 92 = 0 := by decide
    rw [hescaped.1, hsingle.1] at h39
    rw [hescaped.2, hsingle.2] at h92
    -- A backslash in the string would cost two, and the escaper wrote one.
    have hcost := hreads.slashCost_le (by decide) (by rw [hcount 39 (by decide)]; omega)
    rw [hcount 92 (by decide), slashCost, pendingSlash] at hcost
    · rw [← List.count_eq_zero]
      omega
    all_goals simp
  · intro hslash
    obtain ⟨hrun, hinside⟩ := start_quoted 34 .doubleQuote (by simp) hs
    apply parsesTo_of_inside
    rw [hrun]
    exact hinside.run_doubleQuote hslash

theorem isspace_iff {c : UInt8} :
    isspace c = true ↔ c = 32 ∨ c = 9 ∨ c = 10 ∨ c = 11 ∨ c = 12 ∨ c = 13 := by
  simp only [isspace, Bool.or_eq_true, beq_iff_eq, Bool.and_eq_true, decide_eq_true_eq,
    UInt8.le_iff_toNat_le, ← UInt8.toNat_inj, UInt8.reduceToNat]
  omega

/-- A line of one plain word is read in one iteration. -/
theorem step_plain {p : ArgParser} {c : UInt8} {cs : Bytes} (hrest : p.rest = c :: cs)
    (hstate : p.state = .unquoted) (hbuf : p.buf = none) (hline : p.line = ⟨[], []⟩)
    (hspace : isspace c = false) (htext : ∀ d ∈ c :: cs, d ∉ unquoteTok 0) :
    Inside (step 0 false p) .unquoted (c :: cs) [] := by
  have hmark : p.mark.rest = c :: cs := p.rest_mark.trans hrest
  have htake : p.mark.rest.takeWhile (· ∉ unquoteTok 0) = c :: cs := by
    rw [hmark, List.takeWhile_eq_self_iff]
    simpa using htext
  have hadd : p.mark.addUntil false (unquoteTok 0) = p.mark.add false (c :: cs).length := by
    rw [ArgParser.addUntil, htake]
  have hmid : (p.mark.add false (c :: cs).length).rest = [] := by
    rw [ArgParser.rest_add, hmark, List.drop_length]
  have hstep : step 0 false p = (p.mark.add false (c :: cs).length).setEnd := by
    rw [step, hstate]
    simp only [hrest, List.head?_cons, Option.any_some, hspace, unquotedStep, hadd,
      ArgParser.rest_setEnd, hmid]
    rfl
  rw [hstep]
  refine ⟨by simp [hstate], ?_, hmid, p.line_mark.trans hline⟩
  simp [ArgParser.setEnd, ArgParser.add, hrest, hbuf]

theorem parsesTo_plain_iff {s : Bytes} (hs : 0 ∉ s) (hplain : ∀ c ∈ s, c ∉ ascii "\n\t '\"") :
    ParsesTo s s ↔ s ≠ [] ∧ 92 ∉ s ∧ 13 ∉ s ∧ s.head? ≠ some 11 ∧ s.head? ≠ some 12 := by
  have hset : ascii "\n\t '\"" = [10, 9, 32, 39, 34] := by decide
  rw [hset] at hplain
  have hnot : ∀ c ∈ [(10 : UInt8), 9, 32, 39, 34], c ∉ s := fun c hc hmem => hplain c hmem hc
  constructor
  · intro h
    obtain ⟨st, hreads⟩ := readsAll_of_parsesTo h hs
    have hsub := hreads.sublist
    have hdrop : s.dropWhile isspace = s :=
      (List.dropWhile_sublist _).eq_of_length_le hsub.length_le
    rw [hdrop] at hreads
    have hslash : 92 ∉ s := by
      have hcost := hreads.slashCost_le (by decide) le_rfl
      rw [slashCost, pendingSlash] at hcost
      · rw [← List.count_eq_zero]
        omega
      all_goals simp
    have hhead : ∀ c, isspace c = true → s.head? ≠ some c := by
      rintro c hc hhead
      obtain ⟨t, rfl⟩ := List.head?_eq_some_iff.mp hhead
      have := length_dropWhile_lt t hc
      rw [hdrop] at this
      exact lt_irrefl _ this
    refine ⟨?_, hslash, ?_, hhead 11 (by decide), hhead 12 (by decide)⟩
    · rintro rfl
      exact absurd h (by decide +kernel)
    · apply hreads.notMem_cr rfl
      intro c hc
      refine ⟨?_, ?_, ?_⟩
      · rintro rfl
        exact hnot 39 (by simp) hc
      · rintro rfl
        exact hnot 34 (by simp) hc
      · rintro rfl
        exact hslash hc
  · rintro ⟨hne, hslash, hcr, hvt, hff⟩
    obtain ⟨c, cs, rfl⟩ := List.exists_cons_of_ne_nil hne
    have hspace : isspace c = false := by
      rw [Bool.eq_false_iff]
      intro hc
      have hmem : ∀ d ∈ [(10 : UInt8), 9, 32, 39, 34], c ≠ d := fun d hd heq =>
        hnot d hd (by simp [heq])
      rcases isspace_iff.mp hc with rfl | rfl | rfl | rfl | rfl | rfl
      · exact hmem 32 (by simp) rfl
      · exact hmem 9 (by simp) rfl
      · exact hmem 10 (by simp) rfl
      · exact hvt rfl
      · exact hff rfl
      · exact hcr (by simp)
    have htext : ∀ d ∈ c :: cs, d ∉ unquoteTok 0 := by
      intro d hd hmem
      rcases mem_unquoteTok.mp hmem with (rfl | rfl | rfl | rfl) | rfl | rfl | rfl | h0
      · exact hnot 32 (by simp) hd
      · exact hnot 9 (by simp) hd
      · exact hcr hd
      · exact hnot 10 (by simp) hd
      · exact hnot 39 (by simp) hd
      · exact hnot 34 (by simp) hd
      · exact hslash hd
      · exact h0.1 rfl
    have hrest : (start (c :: cs)).rest = c :: cs := by
      rw [start, ArgParser.rest_skipSpace, cstr_eq_self hs,
        List.dropWhile_cons_of_neg (by simp [hspace])]
    apply parsesTo_of_inside
    have hstep := step_plain hrest rfl rfl rfl hspace htext
    rw [run_of_ne_nil (by simp [hrest]), run_of_nil hstep.hrest]
    exact hstep

/-- Escaping a string and parsing the result with a parser without line
separator gives exactly that one argument for the escapable strings, and for no
others. -/
theorem escape_roundtrip_iff (s : CStr) (refArg : Option Bytes) :
    ParsesTo (escape s.bytes refArg) s.bytes ↔ Escapable s.bytes refArg := by
  unfold Escapable
  split_ifs with h39 h34
  · rw [escape_of_quote s.noNul h39 (Or.inr rfl)]
    exact iff_of_true (parsesTo_singleQuote s.noNul) trivial
  · rw [escape_of_quote s.noNul h34 (Or.inl rfl)]
    exact parsesTo_doubleQuote_iff s.noNul
  · rw [escape_of_plain s.noNul h34 h39]
    apply parsesTo_plain_iff s.noNul
    -- A character of the set would have made the escaper choose double quotes.
    intro c hc hset
    apply h34
    have hany : s.bytes.any (· ∈ ascii "\n\t '\"") = true :=
      List.any_eq_true.mpr ⟨c, hc, by simpa using hset⟩
    unfold chooseRef at h34 h39 ⊢
    simp only [hany, and_true] at h34 h39 ⊢
    split_ifs at h34 h39 ⊢ with h
    · rfl
    · exact absurd ⟨h34, h39⟩ h

/-- A string that ends in a backslash: the escaper puts it in double quotes for
its blank, and the backslash then takes the closing quote with it. -/
theorem not_escape_roundtrip :
    ¬ ∀ (s : CStr) (refArg : Option Bytes), ParsesTo (escape s.bytes refArg) s.bytes := by
  intro h
  have hfail : ¬ParsesTo (escape (CStr.lit "a b\\").bytes none) (CStr.lit "a b\\").bytes := by
    decide +kernel
  exact hfail (h (CStr.lit "a b\\") none)

end NeonWrt.Uline
