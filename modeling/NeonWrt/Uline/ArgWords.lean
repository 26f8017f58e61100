import NeonWrt.Uline.Escape

/-!
# The words of a command line

A word of a line is read chunk by chunk, one chunk for each iteration of the
loop, and what a chunk leaves behind does not depend on the text after it. So
the parser reads a word on its own as it reads it within a line.
-/

namespace NeonWrt.Uline

open NeonWrt.Lib

/-- Where a prefix of the line ends: between arguments, in the plain text of an
argument, or in an argument where a quoting state was left or entered. -/
inductive Place
  | between
  | text
  | quoted (st : ArgState)
  deriving DecidableEq

namespace Place

/-- The state of the loop at a place. -/
def state : Place → ArgState
  | .between => .unquoted
  | .text => .unquoted
  | .quoted st => st

/-- The place behind a character outside quotes. A vertical tab or a form feed
ends an argument only where no plain text is being read. -/
def outside (lineSep : UInt8) (pl : Place) (c : UInt8) : Place :=
  if c = 39 then .quoted .singleQuote
  else if c = 34 then .quoted .doubleQuote
  else if c = 92 then .quoted .backslash
  else if c ∈ unquoteTok lineSep ∨ pl ≠ .text ∧ isspace c = true then .between
  else .text

/-- The place behind one more character. -/
def next (lineSep : UInt8) (pl : Place) (c : UInt8) : Place :=
  match pl with
  | .between => pl.outside lineSep c
  | .text => pl.outside lineSep c
  | .quoted .unquoted => pl.outside lineSep c
  | .quoted .backslash => .quoted .unquoted
  | .quoted .doubleQuoteBackslash => .quoted .doubleQuote
  | .quoted .singleQuote => if c = 39 then .quoted .unquoted else pl
  | .quoted .doubleQuote =>
    if c = 34 then .quoted .unquoted
    else if c = 92 then .quoted .doubleQuoteBackslash
    else pl

/-- An iteration may start a stretch of plain text here. -/
def Edge (pl : Place) : Prop := pl = .between ∨ pl = .quoted .unquoted

theorem Edge.state {pl : Place} (h : pl.Edge) : pl.state = .unquoted := by
  rcases h with rfl | rfl <;> rfl

theorem Edge.next {pl : Place} (h : pl.Edge) (lineSep c : UInt8) :
    pl.next lineSep c = pl.outside lineSep c := by
  rcases h with rfl | rfl <;> rfl

theorem Edge.ne_text {pl : Place} (h : pl.Edge) : pl ≠ .text := by
  rcases h with rfl | rfl <;> simp

theorem edge_or_text {pl : Place} (h : pl.state = .unquoted) : pl.Edge ∨ pl = .text := by
  cases pl with
  | between => exact Or.inl (Or.inl rfl)
  | text => exact Or.inr rfl
  | quoted st => exact Or.inl (Or.inr (congrArg _ h))

end Place

/-- Where a line that starts between arguments ends. -/
def place (lineSep : UInt8) (s : Bytes) : Place := s.foldl (Place.next lineSep) .between

@[simp] theorem place_nil (lineSep : UInt8) : place lineSep [] = .between := rfl

theorem place_append (lineSep : UInt8) (s r : Bytes) :
    place lineSep (s ++ r) = r.foldl (Place.next lineSep) (place lineSep s) := List.foldl_append

/-- No blank at the front, which the loop would skip. -/
def Starts (r : Bytes) : Prop := ∀ c, r.head? = some c → isspace c = false

theorem Starts.append {r : Bytes} (h : Starts r) (hne : r ≠ []) (t : Bytes) : Starts (r ++ t) := by
  obtain ⟨c, cs, rfl⟩ := List.exists_cons_of_ne_nil hne
  exact h

/-- What one iteration reads of an argument and adds to it. -/
inductive ArgChunk (lineSep : UInt8) : Place → Bytes → Bytes → Place → Prop
  | text {pl : Place} {r : Bytes} : pl.Edge → (∀ c ∈ r, c ∉ unquoteTok lineSep) → r ≠ [] →
      Starts r → ArgChunk lineSep pl r r .text
  | opening {pl : Place} {r : Bytes} {q : UInt8} {st : ArgState} : pl.Edge →
      (∀ c ∈ r, c ∉ unquoteTok lineSep) → Starts r →
      q = 39 ∧ st = .singleQuote ∨ q = 34 ∧ st = .doubleQuote ∨ q = 92 ∧ st = .backslash →
      ArgChunk lineSep pl (r ++ [q]) r (.quoted st)
  | escaped (c : UInt8) :
      ArgChunk lineSep (.quoted .backslash) [c] (unescaped c) (.quoted .unquoted)
  | escapedDouble (c : UInt8) :
      ArgChunk lineSep (.quoted .doubleQuoteBackslash) [c] (unescaped c) (.quoted .doubleQuote)
  | closeSingle {r : Bytes} : 39 ∉ r →
      ArgChunk lineSep (.quoted .singleQuote) (r ++ [39]) r (.quoted .unquoted)
  | closeDouble {r : Bytes} : 34 ∉ r → 92 ∉ r →
      ArgChunk lineSep (.quoted .doubleQuote) (r ++ [34]) r (.quoted .unquoted)
  | slashDouble {r : Bytes} : 34 ∉ r → 92 ∉ r →
      ArgChunk lineSep (.quoted .doubleQuote) (r ++ [92]) r (.quoted .doubleQuoteBackslash)

/-- The text read of an argument, what the argument is so far, and the place behind it. -/
inductive ArgPart (lineSep : UInt8) : Bytes → Option Bytes → Place → Prop
  | nil : ArgPart lineSep [] none .between
  | snoc {w r k : Bytes} {ob : Option Bytes} {pl pl' : Place} : ArgPart lineSep w ob pl →
      ArgChunk lineSep pl r k pl' → ArgPart lineSep (w ++ r) (some (ob.getD [] ++ k)) pl'

section Chunks

variable {lineSep : UInt8} {pl pl' : Place} {r k w t : Bytes} {ob : Option Bytes}

theorem ArgChunk.ne_nil (h : ArgChunk lineSep pl r k pl') : r ≠ [] := by
  cases h with
  | text _ _ hne _ => exact hne
  | escaped | escapedDouble => exact List.cons_ne_nil _ _
  | opening | closeSingle | closeDouble | slashDouble =>
    exact List.append_ne_nil_of_right_ne_nil _ (List.cons_ne_nil _ _)

theorem ArgChunk.ne_between (h : ArgChunk lineSep pl r k pl') : pl' ≠ .between := by
  cases h <;> simp

theorem ArgChunk.ne_text (h : ArgChunk lineSep pl r k pl') : pl ≠ .text := by
  cases h with
  | text hedge => exact hedge.ne_text
  | opening hedge => exact hedge.ne_text
  | escaped | escapedDouble | closeSingle | closeDouble | slashDouble => simp

theorem quotes_of_plain {c : UInt8} (hc : c ∉ unquoteTok lineSep) : c ≠ 39 ∧ c ≠ 34 ∧ c ≠ 92 := by
  simp only [mem_unquoteTok, not_or] at hc
  exact ⟨hc.2.1, hc.2.2.1, hc.2.2.2.1⟩

theorem foldl_next_text {s : Bytes} (hs : ∀ c ∈ s, c ∉ unquoteTok lineSep) :
    s.foldl (Place.next lineSep) .text = .text := by
  induction s with
  | nil => rfl
  | cons c cs ih =>
    have hc : c ∉ unquoteTok lineSep := hs c (List.mem_cons_self ..)
    have hnext : Place.text.next lineSep c = .text := by
      simp [Place.next, Place.outside, hc, quotes_of_plain hc]
    rw [List.foldl_cons, hnext]
    exact ih fun d hd => hs d (List.mem_cons_of_mem _ hd)

theorem next_of_plain {c : UInt8} (hedge : pl.Edge) (hc : c ∉ unquoteTok lineSep)
    (hspace : isspace c = false) : pl.next lineSep c = .text := by
  simp [hedge.next, Place.outside, hc, quotes_of_plain hc, hspace]

theorem foldl_next_single {s : Bytes} (hs : 39 ∉ s) :
    s.foldl (Place.next lineSep) (.quoted .singleQuote) = .quoted .singleQuote := by
  induction s with
  | nil => rfl
  | cons c cs ih =>
    rw [List.mem_cons, not_or] at hs
    rw [List.foldl_cons, Place.next, if_neg (Ne.symm hs.1)]
    exact ih hs.2

/-- Text in double quotes stays there up to a quote or a backslash. -/
theorem foldl_next_double {s : Bytes} (hquote : 34 ∉ s) (hslash : 92 ∉ s) :
    s.foldl (Place.next lineSep) (.quoted .doubleQuote) = .quoted .doubleQuote := by
  induction s with
  | nil => rfl
  | cons c cs ih =>
    rw [List.mem_cons, not_or] at hquote hslash
    rw [List.foldl_cons, Place.next, if_neg (Ne.symm hquote.1), if_neg (Ne.symm hslash.1)]
    exact ih hquote.2 hslash.2

/-- Behind a nonempty stretch of plain text. -/
theorem foldl_next_plain (hedge : pl.Edge) (hplain : ∀ c ∈ r, c ∉ unquoteTok lineSep)
    (hstarts : Starts r) :
    r.foldl (Place.next lineSep) pl = if r = [] then pl else .text := by
  cases r with
  | nil => rfl
  | cons c cs =>
    rw [List.foldl_cons, next_of_plain hedge (hplain c (List.mem_cons_self ..)) (hstarts c rfl),
      if_neg (List.cons_ne_nil _ _)]
    exact foldl_next_text fun d hd => hplain d (List.mem_cons_of_mem _ hd)

theorem ArgChunk.place_eq (h : ArgChunk lineSep pl r k pl') : r.foldl (Place.next lineSep) pl = pl' := by
  cases h with
  | text hedge hplain hne hstarts => rw [foldl_next_plain hedge hplain hstarts, if_neg hne]
  | opening hedge hplain hstarts hq =>
    rw [List.foldl_append, foldl_next_plain hedge hplain hstarts]
    split_ifs
    · rcases hq with ⟨rfl, rfl⟩ | ⟨rfl, rfl⟩ | ⟨rfl, rfl⟩ <;>
        simp [hedge.next, Place.outside]
    · rcases hq with ⟨rfl, rfl⟩ | ⟨rfl, rfl⟩ | ⟨rfl, rfl⟩ <;> rfl
  | escaped | escapedDouble => rfl
  | closeSingle hr => rw [List.foldl_append, foldl_next_single hr]; rfl
  | closeDouble hquote hslash => rw [List.foldl_append, foldl_next_double hquote hslash]; rfl
  | slashDouble hquote hslash => rw [List.foldl_append, foldl_next_double hquote hslash]; rfl

theorem ArgPart.place_eq (h : ArgPart lineSep w ob pl) : w.foldl (Place.next lineSep) .between = pl := by
  induction h with
  | nil => rfl
  | snoc _ hchunk ih => rw [List.foldl_append, ih, hchunk.place_eq]

theorem ArgPart.eq_nil_iff (h : ArgPart lineSep w ob pl) : w = [] ↔ pl = .between := by
  cases h with
  | nil => simp
  | snoc _ hchunk => simp [hchunk.ne_nil, hchunk.ne_between]

theorem ArgPart.buf_eq_none_iff (h : ArgPart lineSep w ob pl) : ob = none ↔ w = [] := by
  cases h with
  | nil => simp
  | snoc _ hchunk => simp [hchunk.ne_nil]

end Chunks

section Iterations

variable {lineSep : UInt8} {pl pl' : Place} {r k w t : Bytes} {ob : Option Bytes} {p : ArgParser}

/-- The parser behind `r` bytes of an argument that were read and kept as `k`. -/
def ArgParser.reads (p : ArgParser) (r k t : Bytes) (st : ArgState) (e : ℤ) : ArgParser :=
  { p with
    rest := t
    off := p.off + r.length
    state := st
    buf := some (p.buf.getD [] ++ k)
    startIdx := if p.startIdx < 0 then p.off else p.startIdx
    endIdx := e }

theorem takeWhile_tok {tok : Bytes} (hr : ∀ c ∈ r, c ∉ tok) (ht : ∀ c, t.head? = some c → c ∈ tok) :
    (r ++ t).takeWhile (· ∉ tok) = r := by
  rw [List.takeWhile_append_of_pos (by simpa using hr)]
  cases t with
  | nil => simp
  | cons c cs => simp [ht c rfl]

theorem mark_eq (p : ArgParser) :
    p.mark = { p with startIdx := if p.startIdx < 0 then p.off else p.startIdx } := by
  unfold ArgParser.mark
  split_ifs <;> rfl

theorem add_eq (hrest : p.rest = r ++ t) :
    p.add false r.length =
      { p with
        rest := t
        off := p.off + r.length
        buf := if r = [] then p.buf else some (p.buf.getD [] ++ r) } := by
  simp [ArgParser.add, hrest]

/-- The stretch that `strcspn` finds is read. -/
theorem mark_addUntil_eq {tok : Bytes} (hrest : p.rest = r ++ t) (hr : ∀ c ∈ r, c ∉ tok)
    (ht : ∀ c, t.head? = some c → c ∈ tok) :
    p.mark.addUntil false tok =
      { p with
        rest := t
        off := p.off + r.length
        buf := if r = [] then p.buf else some (p.buf.getD [] ++ r)
        startIdx := if p.startIdx < 0 then p.off else p.startIdx } := by
  have hmark : p.mark.rest = r ++ t := p.rest_mark.trans hrest
  rw [ArgParser.addUntil, hmark, takeWhile_tok hr ht, add_eq hmark, mark_eq]

/-- The parser behind a stretch of plain text, which may be empty. -/
def ArgParser.textRead (p : ArgParser) (r t : Bytes) : ArgParser :=
  { p with
    rest := t
    off := p.off + r.length
    buf := if r = [] then p.buf else some (p.buf.getD [] ++ r)
    startIdx := if p.startIdx < 0 then p.off else p.startIdx
    endIdx := (p.off + r.length : ℕ) }

/-- What the case `UNQUOTED` does with the character that ends the stretch. -/
def unquotedEnd (lineSep : UInt8) (q : ArgParser) : ArgParser :=
  match q.rest with
  | [] => q
  | c :: _ =>
    if c = 39 then q.enter .singleQuote
    else if c = 34 then q.enter .doubleQuote
    else if c = 92 then q.enter .backslash
    else if lineSep ≠ 0 ∧ c = lineSep then q.newLine false
    else q

theorem step_unquoted (hstate : p.state = .unquoted) (hrest : p.rest = r ++ t) (hne : r ++ t ≠ [])
    (hstarts : Starts (r ++ t)) (hr : ∀ c ∈ r, c ∉ unquoteTok lineSep)
    (ht : ∀ c, t.head? = some c → c ∈ unquoteTok lineSep) :
    step lineSep false p = unquotedEnd lineSep (p.textRead r t) := by
  obtain ⟨c, cs, hcons⟩ := List.exists_cons_of_ne_nil hne
  have hspace : isspace c = false := hstarts c (by rw [hcons]; rfl)
  have hread : (p.mark.addUntil false (unquoteTok lineSep)).setEnd = p.textRead r t := by
    rw [mark_addUntil_eq hrest hr ht]
    rfl
  have hstep : step lineSep false p = unquotedStep lineSep false p := by
    simp [step, hstate, hrest, hcons, hspace]
  rw [hstep, unquotedStep, hread]
  rfl

/-- An escaped character is read, and kept unless it is a line break. -/
theorem backslashStep_eq {c : UInt8} {b : Bytes} {after : ArgState} (hrest : p.rest = c :: t)
    (hbuf : p.buf = some b) :
    backslashStep false after p = p.reads [c] (unescaped c) t after (p.off + 1 : ℕ) := by
  by_cases hc : c = 10
  · subst hc
    simp [backslashStep, hrest, mark_eq, ArgParser.setEnd, ArgParser.reads, unescaped, hbuf]
  · simp [backslashStep, mark_eq, ArgParser.setEnd, ArgParser.reads, unescaped, hbuf, hc,
      ArgParser.add, hrest]

/-- The text up to the closing quote is read, and the quote with it. -/
theorem singleQuoteStep_eq {b : Bytes} (hrest : p.rest = r ++ 39 :: t) (hr : 39 ∉ r)
    (hbuf : p.buf = some b) :
    singleQuoteStep false p = p.reads (r ++ [39]) r t .unquoted (p.off + (r ++ [39]).length : ℕ) := by
  have hplain : ∀ c ∈ r, c ∉ [(39 : UInt8)] := by
    rintro c hc hmem
    exact hr (List.mem_singleton.mp hmem ▸ hc)
  have hread := mark_addUntil_eq hrest hplain (by simp)
  rw [singleQuoteStep, hread]
  by_cases hnil : r = []
  · simp [ArgParser.leave, ArgParser.setEnd, ArgParser.reads, hnil, hbuf]
  · simp [ArgParser.leave, ArgParser.setEnd, ArgParser.reads, hnil, Nat.add_assoc]

/-- The text up to a quote or a backslash is read, and the character with it. -/
theorem doubleQuoteStep_eq {b : Bytes} {q : UInt8} {st : ArgState} (hrest : p.rest = r ++ q :: t)
    (hq : q = 34 ∧ st = .unquoted ∨ q = 92 ∧ st = .doubleQuoteBackslash) (hquote : 34 ∉ r)
    (hslash : 92 ∉ r) (hbuf : p.buf = some b) :
    doubleQuoteStep false p = p.reads (r ++ [q]) r t st (p.off + (r ++ [q]).length : ℕ) := by
  have hplain : ∀ c ∈ r, c ∉ [(34 : UInt8), 92] := by
    intro c hc hmem
    rcases List.mem_pair.mp hmem with rfl | rfl
    · exact hquote hc
    · exact hslash hc
  have hstop : q ∈ [(34 : UInt8), 92] := by
    rcases hq with ⟨rfl, -⟩ | ⟨rfl, -⟩ <;> simp
  have hread := mark_addUntil_eq hrest hplain (by rintro c ⟨⟩; exact hstop)
  rw [doubleQuoteStep, hread]
  by_cases hnil : r = []
  · rcases hq with ⟨rfl, rfl⟩ | ⟨rfl, rfl⟩ <;>
      simp [ArgParser.leave, ArgParser.setEnd, ArgParser.reads, hnil, hbuf]
  · rcases hq with ⟨rfl, rfl⟩ | ⟨rfl, rfl⟩ <;>
      simp [ArgParser.leave, ArgParser.setEnd, ArgParser.reads, hnil, Nat.add_assoc]

/-- An iteration reads one chunk, whatever follows it; only plain text has to
end where a blank ends it. -/
theorem step_chunk (h : ArgChunk lineSep pl r k pl') (hstate : p.state = pl.state)
    (hbuf : pl ≠ .between → p.buf ≠ none) (hrest : p.rest = r ++ t)
    (ht : pl' = .text → ∀ c, t.head? = some c →
      c ∈ unquoteTok lineSep ∧ isspace c = true ∧ c ≠ lineSep) :
    ∃ e, step lineSep false p = p.reads r k t pl'.state e ∧
      (pl'.state = .unquoted → e = (p.off + r.length : ℕ)) := by
  have hsome : pl ≠ .between → ∃ b, p.buf = some b := fun h => Option.ne_none_iff_exists'.mp (hbuf h)
  cases h with
  | text hedge hplain hne hstarts =>
    have hp : p.state = .unquoted := hstate.trans hedge.state
    have hstep := step_unquoted hp hrest (by simp [hne])
      (hstarts.append hne t) hplain
      (fun c hc => (ht rfl c hc).1)
    have hend : unquotedEnd lineSep (p.textRead r t) = p.textRead r t := by
      cases t with
      | nil => rfl
      | cons c cs =>
        obtain ⟨-, hspace, hsep⟩ := ht rfl c rfl
        have hquotes : c ≠ 39 ∧ c ≠ 34 ∧ c ≠ 92 := by
          refine ⟨?_, ?_, ?_⟩ <;> rintro rfl <;> exact absurd hspace (by decide)
        simp [unquotedEnd, ArgParser.textRead, hquotes, hsep]
    refine ⟨_, ?_, fun _ => rfl⟩
    rw [hstep, hend]
    simp [ArgParser.textRead, ArgParser.reads, hne, hp, Place.state]
  | @opening _ _ q st hedge hplain hstarts hq =>
    have hp : p.state = .unquoted := hstate.trans hedge.state
    have htok : q ∈ unquoteTok lineSep := by
      rw [mem_unquoteTok]
      tauto
    rw [List.append_assoc] at hrest
    have hstart : Starts (k ++ q :: t) := by
      cases k with
      | nil =>
        rintro c ⟨⟩
        rcases hq with ⟨rfl, -⟩ | ⟨rfl, -⟩ | ⟨rfl, -⟩ <;> decide
      | cons d ds => exact hstarts
    have hstep := step_unquoted hp hrest (by simp) hstart hplain (by rintro c ⟨⟩; exact htok)
    refine ⟨(p.off + k.length : ℕ), ?_, ?_⟩
    · rw [hstep]
      by_cases hnil : k = []
      · rcases hq with ⟨rfl, rfl⟩ | ⟨rfl, rfl⟩ | ⟨rfl, rfl⟩ <;>
          simp [unquotedEnd, ArgParser.textRead, ArgParser.enter, ArgParser.reads, Place.state, hnil]
      · rcases hq with ⟨rfl, rfl⟩ | ⟨rfl, rfl⟩ | ⟨rfl, rfl⟩ <;>
          simp [unquotedEnd, ArgParser.textRead, ArgParser.enter, ArgParser.reads, Place.state,
            hnil, Nat.add_assoc]
    · rcases hq with ⟨-, rfl⟩ | ⟨-, rfl⟩ | ⟨-, rfl⟩ <;> simp [Place.state]
  | escaped c =>
    obtain ⟨b, hb⟩ := hsome (by simp)
    exact ⟨_, by simp only [step, hstate, Place.state]; exact backslashStep_eq hrest hb, fun _ => rfl⟩
  | escapedDouble c =>
    obtain ⟨b, hb⟩ := hsome (by simp)
    exact ⟨_, by simp only [step, hstate, Place.state]; exact backslashStep_eq hrest hb, fun _ => rfl⟩
  | closeSingle hr =>
    obtain ⟨b, hb⟩ := hsome (by simp)
    rw [List.append_assoc] at hrest
    exact ⟨_, by simp only [step, hstate, Place.state]; exact singleQuoteStep_eq hrest hr hb,
      fun _ => rfl⟩
  | closeDouble hquote hslash =>
    obtain ⟨b, hb⟩ := hsome (by simp)
    rw [List.append_assoc] at hrest
    have hread := doubleQuoteStep_eq hrest (Or.inl ⟨rfl, rfl⟩) hquote hslash hb
    exact ⟨_, by simp only [step, hstate, Place.state]; exact hread, fun _ => rfl⟩
  | slashDouble hquote hslash =>
    obtain ⟨b, hb⟩ := hsome (by simp)
    rw [List.append_assoc] at hrest
    have hread := doubleQuoteStep_eq hrest (Or.inr ⟨rfl, rfl⟩) hquote hslash hb
    exact ⟨_, by simp only [step, hstate, Place.state]; exact hread, fun _ => rfl⟩

end Iterations

/-- What stands in `args` or `pos` of a line that holds one argument. -/
def ArgList.only {α : Type} (lineSep : UInt8) (a : α) : ArgList α :=
  if lineSep = 0 then .flat [a] else .lines [[a]]

section Words

variable {lineSep : UInt8} {pl pl' : Place} {r k w t : Bytes} {ob : Option Bytes}

/-- The parser before a line, and behind the word `w` of it. -/
def before (s : Bytes) : ArgParser := ⟨s, 0, .unquoted, none, -1, 0, [], ⟨[], []⟩⟩

def behind (w t : Bytes) (st : ArgState) (ob : Option Bytes) (e : ℤ) : ArgParser :=
  ⟨t, w.length, st, ob, if w = [] then -1 else 0, e, [], ⟨[], []⟩⟩

/-- The line is read up to the end of the word, whatever follows the word; after
plain text nothing may follow. -/
theorem ArgPart.run (h : ArgPart lineSep w ob pl) (ht : pl = .text → t = []) :
    ∃ e, run lineSep false (before (w ++ t)) = run lineSep false (behind w t pl.state ob e) ∧
      (w ≠ [] → pl.state = .unquoted → e = w.length) := by
  induction h generalizing t with
  | nil => exact ⟨0, rfl, fun h => absurd rfl h⟩
  | @snoc w r k ob pl pl' hpart hchunk ih =>
    obtain ⟨e, hrun, -⟩ := ih (t := r ++ t) fun h => absurd h hchunk.ne_text
    have hbuf : pl ≠ .between → (behind w (r ++ t) pl.state ob e).buf ≠ none := fun hpl =>
      mt hpart.buf_eq_none_iff.mp (mt hpart.eq_nil_iff.mp hpl)
    obtain ⟨e', hstep, he⟩ := step_chunk (p := behind w (r ++ t) pl.state ob e) hchunk rfl hbuf rfl
      (fun hpl c hc => by rw [ht hpl] at hc; cases hc)
    refine ⟨e', ?_, fun _ hst => ?_⟩
    · rw [List.append_assoc, hrun, run_of_ne_nil (by simp [behind, hchunk.ne_nil]), hstep]
      congr 1
      simp only [ArgParser.reads, behind, List.length_append, List.append_eq_nil_iff,
        hchunk.ne_nil, and_false, if_false]
      by_cases hw : w = []
      · simp [hw]
      · simp [hw]
    · rw [he hst, behind, List.length_append]

theorem ArgChunk.starts (h : ArgChunk lineSep pl r k pl') (hedge : pl.Edge) : Starts r := by
  cases h with
  | text _ _ _ hstarts => exact hstarts
  | @opening _ _ q _ _ _ hstarts hq =>
    cases k with
    | nil =>
      rintro c ⟨⟩
      rcases hq with ⟨rfl, -⟩ | ⟨rfl, -⟩ | ⟨rfl, -⟩ <;> decide
    | cons d ds => exact hstarts
  | escaped | escapedDouble | closeSingle | closeDouble | slashDouble =>
    rcases hedge with h | h <;> simp at h

theorem ArgPart.starts (h : ArgPart lineSep w ob pl) : Starts w := by
  induction h with
  | nil => rintro c ⟨⟩
  | @snoc w r k ob pl pl' hpart hchunk ih =>
    cases w with
    | nil =>
      have hpl : pl = .between := hpart.eq_nil_iff.mp rfl
      exact hchunk.starts (Or.inl hpl)
    | cons d ds => exact ih

theorem dropWhile_of_starts {s : Bytes} (h : Starts s) : s.dropWhile isspace = s := by
  cases s with
  | nil => rfl
  | cons c cs => exact List.dropWhile_cons_of_neg (by simp [h c rfl])

theorem takeWhile_of_starts {s : Bytes} (h : Starts s) : s.takeWhile isspace = [] := by
  cases s with
  | nil => rfl
  | cons c cs => exact List.takeWhile_cons_of_neg (by simp [h c rfl])

/-- A complete word is parsed to its argument and nothing else. -/
theorem ArgPart.parse {a : Bytes} (h : ArgPart lineSep w (some a) pl) (hst : pl.state = .unquoted)
    (hnul : 0 ∉ w) :
    parse lineSep w =
      { args := .only lineSep a, pos := .only lineSep (0, (w.length : ℤ)), missing := none } := by
  have hne : w ≠ [] := mt h.buf_eq_none_iff.mpr (Option.some_ne_none a)
  obtain ⟨e, hrun, he⟩ := h.run (t := []) fun _ => rfl
  have hstart : start w = before (w ++ []) := by
    rw [start, cstr_eq_self hnul, List.append_nil]
    simp [ArgParser.skipSpace, before, dropWhile_of_starts h.starts, takeWhile_of_starts h.starts]
  have hend : Uline.run lineSep false (start w) = behind w [] .unquoted (some a) w.length := by
    rw [hstart, hrun, run_of_nil rfl, hst, he hne hst]
  simp [Uline.parse, hend, behind, ArgParser.finish, hne, stateStr, ArgList.only]

end Words

end NeonWrt.Uline
