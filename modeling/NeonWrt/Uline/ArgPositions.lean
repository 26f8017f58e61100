import NeonWrt.Uline.ArgWords

/-!
# The positions of the arguments

The start index of an argument is set where the scanner leaves the blanks, and
taken back where an argument ends. A line separator that ends no argument sets
it and takes nothing back, so that the next argument seems to start there. Apart
from that, the positions of the arguments cut the line into the words that are
read as these arguments.
-/

namespace NeonWrt.Uline

open NeonWrt.Lib

/-- The separator is read as one: no blank, and no character of a quoting state. -/
structure Separates (lineSep : UInt8) : Prop where
  space : isspace lineSep = false
  single : lineSep ≠ 39
  double : lineSep ≠ 34
  slash : lineSep ≠ 92
  pos : lineSep ≠ 0

theorem Separates.mem {lineSep : UInt8} (h : Separates lineSep) : lineSep ∈ unquoteTok lineSep :=
  mem_unquoteTok.mpr (by simp [h.pos])

theorem ne_zero_of_mem {c lineSep : UInt8} (h : c ∈ unquoteTok lineSep) : c ≠ 0 := by
  rintro rfl
  rcases mem_unquoteTok.mp h with h | h | h | h | h
  · exact absurd h (by decide)
  · exact absurd h (by decide)
  · exact absurd h (by decide)
  · exact absurd h (by decide)
  · exact h.1 h.2.symm

/-- No separator of the text stands where no argument is open. -/
def Clean (lineSep : UInt8) (u : Bytes) : Prop :=
  Separates lineSep → ∀ s v, u = s ++ lineSep :: v → place lineSep s ≠ .between

/-- Nothing, or a separator with blanks and separators after it. -/
def Loose (lineSep : UInt8) (z : Bytes) : Prop :=
  z = [] ∨ Separates lineSep ∧ ∃ z', z = lineSep :: z' ∧ ∀ c ∈ z', isspace c = true ∨ c = lineSep

section Separators

variable {lineSep : UInt8} {pl pl' : Place} {u z r k w : Bytes} {ob : Option Bytes}

theorem Clean.append (h : Clean lineSep u)
    (hr : Separates lineSep → ∀ s v, r = s ++ lineSep :: v → place lineSep (u ++ s) ≠ .between) :
    Clean lineSep (u ++ r) := by
  intro hsep s v heq
  rcases List.append_eq_append_iff.mp heq with ⟨s', rfl, hs'⟩ | ⟨v', rfl, hv'⟩
  · exact hr hsep s' v hs'
  · cases v' with
    | nil =>
      have := hr hsep [] v hv'.symm
      rwa [List.append_nil, List.append_nil] at this
    | cons c cs =>
      rw [List.cons_append, List.cons.injEq] at hv'
      obtain ⟨rfl, -⟩ := hv'
      exact h hsep s cs rfl

theorem Clean.blanks (h : Clean lineSep u) (hr : ∀ c ∈ r, isspace c = true) :
    Clean lineSep (u ++ r) := by
  refine h.append fun hsep s v heq => ?_
  have := hr lineSep (by rw [heq]; simp)
  rw [hsep.space] at this
  exact absurd this Bool.false_ne_true

theorem Clean.attached (h : Clean lineSep u) (hu : place lineSep u ≠ .between) :
    Clean lineSep (u ++ [lineSep]) := by
  refine h.append fun _ s v heq => ?_
  have hs : s = [] := by
    have := congrArg List.length heq
    simp only [List.length_cons, List.length_append, List.length_nil] at this
    exact List.eq_nil_of_length_eq_zero (by omega)
  rwa [hs, List.append_nil]

/-- A chunk is inside its argument from its first character on. -/
theorem ArgChunk.inner (h : ArgChunk lineSep pl r k pl') {s v : Bytes} {c : UInt8}
    (hr : r = s ++ c :: v) (hs : s ≠ []) : s.foldl (Place.next lineSep) pl ≠ .between := by
  have hproper : ∀ {x : Bytes} {q : UInt8}, x ++ [q] = s ++ c :: v → ∀ d ∈ s, d ∈ x := by
    intro x q heq d hd
    rw [← List.dropLast_append_getLast (List.cons_ne_nil c v), ← List.append_assoc] at heq
    rw [(List.append_inj' heq rfl).1]
    exact List.mem_append_left _ hd
  cases h with
  | text hedge hplain hne hstarts =>
    have hsub : ∀ d ∈ s, d ∈ r := fun d hd => by rw [hr]; exact List.mem_append_left _ hd
    have hstarts' : Starts s := by
      obtain ⟨d, ds, rfl⟩ := List.exists_cons_of_ne_nil hs
      intro e he
      exact hstarts e (by rw [hr]; exact he)
    rw [foldl_next_plain hedge (fun d hd => hplain d (hsub d hd)) hstarts', if_neg hs]
    simp
  | opening hedge hplain hstarts hq =>
    have hsub := hproper hr
    have hstarts' : Starts s := by
      obtain ⟨d, ds, rfl⟩ := List.exists_cons_of_ne_nil hs
      cases k with
      | nil => exact absurd (hsub d (List.mem_cons_self ..)) List.not_mem_nil
      | cons e es =>
        rw [List.cons_append, List.cons_append, List.cons.injEq] at hr
        rw [← hr.1]
        exact hstarts
    rw [foldl_next_plain hedge (fun d hd => hplain d (hsub d hd)) hstarts', if_neg hs]
    simp
  | escaped | escapedDouble =>
    have := congrArg List.length hr
    simp only [List.length_cons, List.length_append, List.length_nil] at this
    exact absurd (List.eq_nil_of_length_eq_zero (by omega)) hs
  | closeSingle hk =>
    rw [foldl_next_single fun hd => hk (hproper hr _ hd)]
    simp
  | closeDouble hquote hslash | slashDouble hquote hslash =>
    rw [foldl_next_double (fun hd => hquote (hproper hr _ hd)) fun hd => hslash (hproper hr _ hd)]
    simp

/-- An argument does not start with a separator. -/
theorem ArgChunk.head_ne (h : ArgChunk lineSep pl r k pl') (hedge : pl.Edge) (hsep : Separates lineSep)
    {c : UInt8} (hc : r.head? = some c) : c ≠ lineSep := by
  rintro rfl
  have hmem : c ∈ unquoteTok c := hsep.mem
  cases h with
  | text _ hplain _ _ => exact hplain c (List.mem_of_mem_head? hc) hmem
  | @opening _ _ q _ _ hplain _ hq =>
    cases k with
    | nil =>
      cases hc
      rcases hq with ⟨rfl, -⟩ | ⟨rfl, -⟩ | ⟨rfl, -⟩
      · exact hsep.single rfl
      · exact hsep.double rfl
      · exact hsep.slash rfl
    | cons d ds =>
      cases hc
      exact hplain _ (List.mem_cons_self ..) hmem
  | escaped | escapedDouble | closeSingle | closeDouble | slashDouble =>
    rcases hedge with h | h <;> simp at h

theorem ArgPart.head_ne (h : ArgPart lineSep w ob pl) (hsep : Separates lineSep) {c : UInt8}
    (hc : w.head? = some c) : c ≠ lineSep := by
  induction h with
  | nil => cases hc
  | @snoc w r k ob pl pl' hpart hchunk ih =>
    cases w with
    | nil => exact hchunk.head_ne (Or.inl (hpart.eq_nil_iff.mp rfl)) hsep hc
    | cons d ds => exact ih hc

/-- A word is inside its argument from its first character on. -/
theorem ArgPart.inner (h : ArgPart lineSep w ob pl) {s v : Bytes} {c : UInt8} (hw : w = s ++ c :: v)
    (hs : s ≠ []) : s.foldl (Place.next lineSep) .between ≠ .between := by
  induction h generalizing v with
  | nil => simp at hw
  | @snoc w r k ob pl pl' hpart hchunk ih =>
    rcases List.append_eq_append_iff.mp hw with ⟨s', rfl, hs'⟩ | ⟨v', hws, hv'⟩
    · rw [List.foldl_append, hpart.place_eq]
      by_cases hnil : s' = []
      · subst hnil
        rw [List.append_nil] at hs
        exact mt hpart.eq_nil_iff.mpr hs
      · exact hchunk.inner hs' hnil
    · cases v' with
      | nil =>
        rw [List.append_nil] at hws
        rw [← hws, hpart.place_eq]
        exact mt hpart.eq_nil_iff.mpr (hws ▸ hs)
      | cons d ds =>
        rw [List.cons_append, List.cons.injEq] at hv'
        obtain ⟨rfl, -⟩ := hv'
        exact ih hws

theorem ArgPart.clean (h : ArgPart lineSep w ob pl) (hu : Clean lineSep u)
    (hplace : place lineSep u = .between) : Clean lineSep (u ++ w) := by
  refine hu.append fun hsep s v heq => ?_
  rw [place_append, hplace]
  apply h.inner heq
  rintro rfl
  exact h.head_ne hsep (by rw [heq]; rfl) rfl

/-- An argument ends at a blank or a separator outside quotes. -/
theorem next_of_stop (hst : pl.state = .unquoted) {c : UInt8} (hquotes : c ≠ 39 ∧ c ≠ 34 ∧ c ≠ 92)
    (hc : c ∈ unquoteTok lineSep ∨ pl ≠ .text ∧ isspace c = true) :
    pl.next lineSep c = .between := by
  have hnext : pl.next lineSep c = pl.outside lineSep c := by
    rcases Place.edge_or_text hst with hedge | rfl
    · exact hedge.next lineSep c
    · rfl
  rw [hnext, Place.outside, if_neg hquotes.1, if_neg hquotes.2.1, if_neg hquotes.2.2, if_pos hc]

theorem quotes_of_isspace {c : UInt8} (h : isspace c = true) : c ≠ 39 ∧ c ≠ 34 ∧ c ≠ 92 := by
  refine ⟨?_, ?_, ?_⟩ <;> rintro rfl <;> exact absurd h (by decide)

theorem foldl_next_loose {s : Bytes} (hs : ∀ c ∈ s, isspace c = true ∨ Separates lineSep ∧ c = lineSep) :
    s.foldl (Place.next lineSep) .between = .between := by
  induction s with
  | nil => rfl
  | cons c cs ih =>
    have hc : Place.between.next lineSep c = .between := by
      rcases hs c (List.mem_cons_self ..) with hspace | ⟨hsep, rfl⟩
      · exact next_of_stop rfl (quotes_of_isspace hspace) (Or.inr ⟨by simp, hspace⟩)
      · exact next_of_stop rfl ⟨hsep.single, hsep.double, hsep.slash⟩ (Or.inl hsep.mem)
    rw [List.foldl_cons, hc]
    exact ih fun d hd => hs d (List.mem_cons_of_mem _ hd)

theorem Loose.place_eq (h : Loose lineSep z) (hu : place lineSep u = .between) :
    place lineSep (u ++ z) = .between := by
  rw [place_append, hu]
  rcases h with rfl | ⟨hsep, z', rfl, hz'⟩
  · rfl
  · apply foldl_next_loose
    intro c hc
    rcases List.mem_cons.mp hc with rfl | hc
    · exact Or.inr ⟨hsep, rfl⟩
    · exact (hz' c hc).imp_right fun h => ⟨hsep, h⟩

theorem Loose.blanks (h : Loose lineSep z) (hz : z ≠ []) (hr : ∀ c ∈ r, isspace c = true) :
    Loose lineSep (z ++ r) := by
  obtain ⟨hsep, z', rfl, hz'⟩ := h.resolve_left hz
  refine Or.inr ⟨hsep, z' ++ r, rfl, fun c hc => ?_⟩
  rcases List.mem_append.mp hc with hc | hc
  · exact hz' c hc
  · exact Or.inl (hr c hc)

theorem Loose.separator (h : Loose lineSep z) (hsep : Separates lineSep) :
    Loose lineSep (z ++ [lineSep]) := by
  rcases h with rfl | ⟨-, z', rfl, hz'⟩
  · exact Or.inr ⟨hsep, [], rfl, by simp⟩
  · refine Or.inr ⟨hsep, z' ++ [lineSep], rfl, fun c hc => ?_⟩
    rcases List.mem_append.mp hc with hc | hc
    · exact hz' c hc
    · exact Or.inr (List.mem_singleton.mp hc)

end Separators

/-- An argument with its position. -/
abbrev Entry := Bytes × (ℤ × ℤ)

/-- The arguments of several lines. -/
def entries (ls : List ArgLine) : List Entry := ls.flatMap fun l => l.args.zip l.pos

/-- The text between two positions. -/
def slice (s : Bytes) (q : ℤ × ℤ) : Bytes := (s.take q.2.toNat).drop q.1.toNat

/-- The text at the position of an argument is read as the argument and nothing else. -/
def Alone (lineSep : UInt8) (s : Bytes) (e : Entry) : Prop :=
  (parse lineSep (slice s e.2)).args = .only lineSep e.1 ∧
    (parse lineSep (slice s e.2)).missing = none

/-- Where an entry comes from: a word, and the loose separators before it. -/
inductive Recorded (lineSep : UInt8) (S : Bytes) : Entry → Bytes → Prop
  | mk {a u z w t : Bytes} {pl : Place} : S = u ++ (z ++ (w ++ t)) → place lineSep u = .between →
      Loose lineSep z → ArgPart lineSep w (some a) pl → pl.state = .unquoted →
      Recorded lineSep S (a, ((u.length : ℤ), ((u ++ (z ++ w)).length : ℤ))) z

section Recorded

variable {lineSep : UInt8} {p : ArgParser} {S z : Bytes} {e : Entry}

theorem lines_finish (p : ArgParser) (check : Bool) : (p.finish check).lines = p.lines := by
  unfold ArgParser.finish
  split <;> rfl

theorem lines_mark (p : ArgParser) : p.mark.lines = p.lines := by
  unfold ArgParser.mark
  split <;> rfl

theorem lines_newLine (p : ArgParser) (check : Bool) : p.lines <+: (p.newLine check).lines := by
  unfold ArgParser.newLine
  cases check with
  | true => exact List.prefix_rfl
  | false =>
    have hfinish := lines_finish { p with rest := p.rest.drop 1, off := p.off + 1 } false
    simp only [Bool.false_eq_true, if_false]
    rw [hfinish]
    exact List.prefix_append _ _

theorem lines_unquotedStep (lineSep : UInt8) (check : Bool) (p : ArgParser) :
    p.lines <+: (unquotedStep lineSep check p).lines := by
  unfold unquotedStep
  generalize hq : (p.mark.addUntil check (unquoteTok lineSep)).setEnd = q
  have hlines : q.lines = p.lines := by
    rw [← hq]
    exact lines_mark p
  rw [← hlines]
  simp only
  split
  · exact List.prefix_rfl
  · split_ifs
    · exact List.prefix_rfl
    · exact List.prefix_rfl
    · exact List.prefix_rfl
    · exact lines_newLine q check
    · exact List.prefix_rfl

theorem lines_step (lineSep : UInt8) (check : Bool) (p : ArgParser) :
    p.lines <+: (step lineSep check p).lines := by
  have hmark := lines_mark p
  have hslash : ∀ after, (backslashStep check after p).lines = p.lines := by
    intro after
    unfold backslashStep
    simp only
    split_ifs <;> exact hmark
  unfold step
  split
  · split_ifs
    · rw [lines_finish]
      exact List.prefix_rfl
    · exact lines_unquotedStep lineSep check p
  · exact (hslash _).symm ▸ List.prefix_rfl
  · exact (hslash _).symm ▸ List.prefix_rfl
  · have : (singleQuoteStep check p).lines = p.lines := by
      unfold singleQuoteStep
      simp only
      split_ifs <;> exact hmark
    exact this.symm ▸ List.prefix_rfl
  · have : (doubleQuoteStep check p).lines = p.lines := by
      unfold doubleQuoteStep
      simp only
      split_ifs <;> exact hmark
    exact this.symm ▸ List.prefix_rfl

theorem lines_run (lineSep : UInt8) (check : Bool) (p : ArgParser) :
    p.lines <+: (run lineSep check p).lines := by
  fun_induction run lineSep check p with
  | case1 => exact List.prefix_rfl
  | case2 p h ih => exact (lines_step lineSep check p).trans ih

/-- A line that starts with the separator is an empty line first. -/
theorem parse_separator_args (hsep : Separates lineSep) {x : Bytes} (hnul : 0 ∉ x) (a : Bytes) :
    (parse lineSep (lineSep :: x)).args ≠ .only lineSep a := by
  have hstart : start (lineSep :: x) = before (lineSep :: x) := by
    rw [start, cstr_eq_self (by simp [hnul, hsep.pos.symm])]
    simp [ArgParser.skipSpace, before, hsep.space]
  have hstep := step_unquoted (r := []) (p := before (lineSep :: x)) rfl rfl
    (List.cons_ne_nil _ _) (by rintro c ⟨⟩; exact hsep.space)
    (by simp : ∀ c ∈ [], c ∉ unquoteTok lineSep)
    (by rintro c ⟨⟩; exact hsep.mem)
  have hlines : (step lineSep false (before (lineSep :: x))).lines = [⟨[], []⟩] := by
    rw [hstep]
    simp [unquotedEnd, ArgParser.textRead, hsep.single, hsep.double, hsep.slash, hsep.pos,
      ArgParser.newLine, ArgParser.finish, before]
  obtain ⟨rest, hrest⟩ := lines_run lineSep false (step lineSep false (before (lineSep :: x)))
  rw [hlines] at hrest
  have hne : (before (lineSep :: x)).rest ≠ [] := List.cons_ne_nil _ _
  simp only [parse, ArgList.only, hsep.pos, if_false, lines_finish]
  rw [hstart, run_of_ne_nil hne, ← hrest]
  simp

theorem slice_between {u v w : Bytes} :
    slice (u ++ (v ++ w)) ((u.length : ℤ), ((u ++ v).length : ℤ)) = v := by
  rw [slice, Int.toNat_natCast, Int.toNat_natCast, ← List.append_assoc, List.take_left,
    List.drop_left]

/-- An argument is alone at its position exactly when no separator stands before it. -/
theorem Recorded.alone_iff (h : Recorded lineSep S e z) (hnul : 0 ∉ S) :
    Alone lineSep S e ↔ z = [] := by
  obtain ⟨rfl, -, hloose, hpart, hst⟩ := h
  rename_i a u w t pl
  simp only [List.mem_append, not_or] at hnul
  have hslice : slice (u ++ (z ++ (w ++ t))) ((u.length : ℤ), ((u ++ (z ++ w)).length : ℤ)) =
      z ++ w := by
    rw [← List.append_assoc z w t]
    exact slice_between
  unfold Alone
  rw [hslice]
  constructor
  · rintro ⟨hargs, -⟩
    rcases hloose with hz | ⟨hsep, z', rfl, -⟩
    · exact hz
    · refine absurd hargs (parse_separator_args hsep ?_ a)
      have := hnul.2.1
      rw [List.mem_cons, not_or] at this
      simp [this.2, hnul.2.2.1]
  · rintro rfl
    rw [List.nil_append, hpart.parse hst hnul.2.2.1]
    exact ⟨rfl, rfl⟩

end Recorded

/-- The finished arguments, read from the text before `u`. -/
structure Done (lineSep : UInt8) (S u : Bytes) (ls : List ArgLine) : Prop where
  paired : ∀ l ∈ ls, l.args.length = l.pos.length
  ordered : (entries ls).Pairwise fun e e' => e.2.2 ≤ e'.2.1
  behind : ∀ e ∈ entries ls, e.2.2 ≤ u.length
  recorded : ∀ e ∈ entries ls, ∃ z, Recorded lineSep S e z
  clean : (∀ e ∈ entries ls, Alone lineSep S e) → Clean lineSep u

namespace Done

variable {lineSep : UInt8} {S u u' : Bytes} {ls : List ArgLine} {l : ArgLine}

theorem entries_newLine (ls : List ArgLine) : entries (ls ++ [⟨[], []⟩]) = entries ls := by
  simp [entries]

theorem entries_push (ls : List ArgLine) (hl : l.args.length = l.pos.length) (b : Bytes) (q : ℤ × ℤ) :
    entries (ls ++ [⟨l.args ++ [b], l.pos ++ [q]⟩]) = entries (ls ++ [l]) ++ [(b, q)] := by
  simp [entries, List.zip_append hl]

theorem newLine (h : Done lineSep S u ls) : Done lineSep S u (ls ++ [⟨[], []⟩]) where
  paired l hl := by
    rcases List.mem_append.mp hl with hl | hl
    · exact h.paired l hl
    · rw [List.mem_singleton.mp hl]
      rfl
  ordered := by rw [entries_newLine]; exact h.ordered
  behind := by rw [entries_newLine]; exact h.behind
  recorded := by rw [entries_newLine]; exact h.recorded
  clean := by rw [entries_newLine]; exact h.clean

/-- More of the text was read, and no argument was finished. -/
theorem advance (h : Done lineSep S u ls) (hlen : u.length ≤ u'.length)
    (hclean : Clean lineSep u → Clean lineSep u') : Done lineSep S u' ls where
  paired := h.paired
  ordered := h.ordered
  behind e he := Int.le_trans (h.behind e he) (Int.ofNat_le.mpr hlen)
  recorded := h.recorded
  clean halone := hclean (h.clean halone)

theorem push (h : Done lineSep S u (ls ++ [l])) {b z : Bytes} {q : ℤ × ℤ} (hnul : 0 ∉ S)
    (hrec : Recorded lineSep S (b, q) z) (hstart : q.1 = u.length) (hend : q.2 = u'.length)
    (hlen : u.length ≤ u'.length) (hclean : z = [] → Clean lineSep u → Clean lineSep u') :
    Done lineSep S u' (ls ++ [⟨l.args ++ [b], l.pos ++ [q]⟩]) := by
  have hl : l.args.length = l.pos.length := h.paired l (by simp)
  have hentries := entries_push ls hl b q
  refine ⟨fun x hx => ?_, ?_, ?_, ?_, ?_⟩
  · rcases List.mem_append.mp hx with hx | hx
    · exact h.paired x (List.mem_append_left _ hx)
    · rw [List.mem_singleton.mp hx]
      simp [hl]
  · rw [hentries, List.pairwise_append]
    refine ⟨h.ordered, List.pairwise_singleton _ _, fun e he e' he' => ?_⟩
    rw [List.mem_singleton.mp he', hstart]
    exact h.behind e he
  · rw [hentries]
    intro e he
    rcases List.mem_append.mp he with he | he
    · exact Int.le_trans (h.behind e he) (Int.ofNat_le.mpr hlen)
    · rw [List.mem_singleton.mp he]
      exact Int.le_of_eq hend
  · rw [hentries]
    intro e he
    rcases List.mem_append.mp he with he | he
    · exact h.recorded e he
    · rw [List.mem_singleton.mp he]
      exact ⟨z, hrec⟩
  · rw [hentries]
    intro halone
    have hz : z = [] := (hrec.alone_iff hnul).mp (halone _ (by simp))
    exact hclean hz (h.clean fun e he => halone e (List.mem_append_left _ he))

end Done

/-- Plain text ends here. -/
def Stops (lineSep : UInt8) (t : Bytes) : Prop :=
  ∀ c, t.head? = some c → c ∈ unquoteTok lineSep ∧ c ≠ 39 ∧ c ≠ 34 ∧ c ≠ 92

theorem exists_stretch (tok s : Bytes) : ∃ r t, s = r ++ t ∧ (∀ c ∈ r, c ∉ tok) ∧
    (t = [] ∨ ∃ c t', t = c :: t' ∧ c ∈ tok) := by
  induction s with
  | nil => exact ⟨[], [], rfl, by simp, Or.inl rfl⟩
  | cons c cs ih =>
    by_cases hc : c ∈ tok
    · exact ⟨[], c :: cs, rfl, by simp, Or.inr ⟨c, cs, rfl, hc⟩⟩
    · obtain ⟨r, t, rfl, hr, ht⟩ := ih
      exact ⟨c :: r, t, rfl, List.forall_mem_cons.mpr ⟨hc, hr⟩, ht⟩

theorem exists_chunk_edge {lineSep : UInt8} {pl : Place} {s : Bytes} (hne : s ≠ []) (hedge : pl.Edge)
    (hstarts : Starts s) :
    (∃ r k pl' t, ArgChunk lineSep pl r k pl' ∧ s = r ++ t ∧ (pl' = .text → Stops lineSep t)) ∨
      Separates lineSep ∧ ∃ t, s = lineSep :: t := by
  obtain ⟨r, t, rfl, hplain, ht⟩ := exists_stretch (unquoteTok lineSep) s
  have hr : Starts r := by
    cases r with
    | nil => rintro c ⟨⟩
    | cons d ds => exact hstarts
  rcases ht with rfl | ⟨c, t', rfl, hc⟩
  · rw [List.append_nil] at hne
    exact Or.inl ⟨r, r, .text, [], .text hedge hplain hne hr, rfl, by rintro - c ⟨⟩⟩
  · by_cases hquote : c = 39 ∨ c = 34 ∨ c = 92
    · obtain ⟨st, hst⟩ : ∃ st, c = 39 ∧ st = ArgState.singleQuote ∨ c = 34 ∧ st = .doubleQuote ∨
          c = 92 ∧ st = .backslash := by
        rcases hquote with rfl | rfl | rfl
        · exact ⟨_, Or.inl ⟨rfl, rfl⟩⟩
        · exact ⟨_, Or.inr (Or.inl ⟨rfl, rfl⟩)⟩
        · exact ⟨_, Or.inr (Or.inr ⟨rfl, rfl⟩)⟩
      exact Or.inl ⟨_, _, _, t', .opening hedge hplain hr hst, by simp, by simp⟩
    · rw [not_or, not_or] at hquote
      by_cases hnil : r = []
      · subst hnil
        have hspace : isspace c = false := hstarts c rfl
        rcases mem_unquoteTok.mp hc with hb | hb | hb | hb | ⟨h0, rfl⟩
        · rw [isspace_of_blank hb] at hspace
          cases hspace
        · exact absurd hb hquote.1
        · exact absurd hb hquote.2.1
        · exact absurd hb hquote.2.2
        · exact Or.inr ⟨⟨hspace, hquote.1, hquote.2.1, hquote.2.2, h0⟩, t', rfl⟩
      · refine Or.inl ⟨r, r, .text, c :: t', .text hedge hplain hnil hr, rfl, ?_⟩
        rintro - d ⟨⟩
        exact ⟨hc, hquote⟩

theorem exists_chunk_quoted {lineSep : UInt8} {st : ArgState} {s : Bytes} (hne : s ≠ [])
    (hst : st ≠ .unquoted) :
    (∃ r k pl' t, ArgChunk lineSep (.quoted st) r k pl' ∧ s = r ++ t ∧ pl' ≠ .text) ∨
      st = .singleQuote ∧ 39 ∉ s ∨ st = .doubleQuote ∧ 34 ∉ s ∧ 92 ∉ s := by
  obtain ⟨d, ds, hcons⟩ := List.exists_cons_of_ne_nil hne
  cases st with
  | unquoted => exact absurd rfl hst
  | backslash => exact Or.inl ⟨_, _, _, ds, .escaped d, hcons, by simp⟩
  | doubleQuoteBackslash => exact Or.inl ⟨_, _, _, ds, .escapedDouble d, hcons, by simp⟩
  | singleQuote =>
    obtain ⟨r, t, rfl, hr, ht⟩ := exists_stretch [39] s
    have hr' : 39 ∉ r := fun h => hr 39 h (List.mem_singleton_self _)
    rcases ht with rfl | ⟨c, t', rfl, hc⟩
    · exact Or.inr (Or.inl ⟨rfl, by simpa using hr'⟩)
    · obtain rfl := List.mem_singleton.mp hc
      exact Or.inl ⟨_, _, _, t', .closeSingle hr', by simp, by simp⟩
  | doubleQuote =>
    obtain ⟨r, t, rfl, hr, ht⟩ := exists_stretch [34, 92] s
    have hquote : 34 ∉ r := fun h => hr 34 h (by simp)
    have hslash : 92 ∉ r := fun h => hr 92 h (by simp)
    rcases ht with rfl | ⟨c, t', rfl, hc⟩
    · exact Or.inr (Or.inr ⟨rfl, by simpa using hquote, by simpa using hslash⟩)
    · rcases List.mem_pair.mp hc with rfl | rfl
      · exact Or.inl ⟨_, _, _, t', .closeDouble hquote hslash, by simp, by simp⟩
      · exact Or.inl ⟨_, _, _, t', .slashDouble hquote hslash, by simp, by simp⟩

/-- The parser has read `u`, with the finished arguments in it, then the loose
separators `z`, and then the part `w` of the current argument. -/
structure Reading (lineSep : UInt8) (S u z w : Bytes) (pl : Place) (p : ArgParser) : Prop where
  hread : S = u ++ (z ++ (w ++ p.rest))
  hoff : p.off = (u ++ (z ++ w)).length
  hplace : place lineSep u = .between
  hloose : Loose lineSep z
  hpart : ArgPart lineSep w p.buf pl
  hstate : p.state = pl.state
  htext : pl = .text → Stops lineSep p.rest
  hstart : p.startIdx = if z ++ w = [] then -1 else (u.length : ℤ)
  hend : w ≠ [] → pl.state = .unquoted → p.endIdx = p.off
  hdone : Done lineSep S u (p.lines ++ [p.line])
  hflat : lineSep = 0 → p.lines = []

namespace Reading

variable {lineSep : UInt8} {S u z w r k t x : Bytes} {pl pl' : Place} {p : ArgParser}

theorem chunk (h : Reading lineSep S u z w pl p) (hchunk : ArgChunk lineSep pl r k pl')
    (hrest : p.rest = r ++ t) (ht : pl' = .text → Stops lineSep t) {e : ℤ}
    (he : pl'.state = .unquoted → e = (p.off + r.length : ℕ)) :
    Reading lineSep S u z (w ++ r) pl' (p.reads r k t pl'.state e) where
  hread := by
    rw [h.hread, hrest, List.append_assoc w r]
    rfl
  hoff := by
    simp only [ArgParser.reads, h.hoff, List.length_append]
    omega
  hplace := h.hplace
  hloose := h.hloose
  hpart := h.hpart.snoc hchunk
  hstate := rfl
  htext := ht
  hstart := by
    have hne : z ++ (w ++ r) ≠ [] := by simp [hchunk.ne_nil]
    simp only [ArgParser.reads, h.hstart, if_neg hne]
    by_cases hzw : z ++ w = []
    · obtain ⟨rfl, rfl⟩ := List.append_eq_nil_iff.mp hzw
      simp [h.hoff]
    · rw [if_neg hzw, if_neg (by omega)]
  hend _ hst := he hst
  hdone := h.hdone
  hflat := h.hflat

theorem place_eq (h : Reading lineSep S u z w pl p) : place lineSep (u ++ (z ++ w)) = pl := by
  rw [← List.append_assoc, place_append, h.hloose.place_eq h.hplace, h.hpart.place_eq]

theorem finish_move (p : ArgParser) (t : Bytes) (n : ℕ) :
    ({ p with rest := t, off := n } : ArgParser).finish false =
      { p.finish false with rest := t, off := n } := by
  rcases p with ⟨_, _, _, _ | _, _, _, _, _⟩ <;> rfl

theorem finish (h : Reading lineSep S u z w pl p) (hnul : 0 ∉ S) (hw : w ≠ [])
    (hst : pl.state = .unquoted) : ∃ line,
      (p.finish false = { p with buf := none, startIdx := -1, line := line }) ∧
        Done lineSep S (u ++ (z ++ w)) (p.lines ++ [line]) := by
  obtain ⟨b, hb⟩ := Option.ne_none_iff_exists'.mp (mt h.hpart.buf_eq_none_iff.mp hw)
  have hpart : ArgPart lineSep w (some b) pl := hb ▸ h.hpart
  have hpos : ((p.startIdx, p.endIdx) : ℤ × ℤ) = ((u.length : ℤ), ((u ++ (z ++ w)).length : ℤ)) := by
    rw [h.hstart, if_neg (by simp [hw]), h.hend hw hst, h.hoff]
  have hrec : Recorded lineSep S (b, (p.startIdx, p.endIdx)) z := by
    rw [hpos]
    exact .mk h.hread h.hplace h.hloose hpart hst
  obtain ⟨hstart, hend⟩ := Prod.mk.inj hpos
  refine ⟨⟨p.line.args ++ [b], p.line.pos ++ [(p.startIdx, p.endIdx)]⟩, ?_, ?_⟩
  · simp [ArgParser.finish, hb]
  · refine h.hdone.push hnul hrec hstart hend (by simp) ?_
    rintro rfl hu
    exact hpart.clean hu h.hplace

/-- The argument ends before the text `x`, which is read too. -/
theorem word (h : Reading lineSep S u z w pl p) (hnul : 0 ∉ S) (hw : w ≠ [])
    (hst : pl.state = .unquoted) (hrest : p.rest = x ++ t)
    (hbetween : x.foldl (Place.next lineSep) pl = .between)
    (hclean : Clean lineSep (u ++ (z ++ w)) → Clean lineSep (u ++ (z ++ w) ++ x)) :
    Reading lineSep S (u ++ (z ++ w) ++ x) [] [] .between
      (({ p with rest := t, off := p.off + x.length } : ArgParser).finish false) := by
  obtain ⟨line, hfinish, hdone⟩ := h.finish hnul hw hst
  rw [finish_move, hfinish]
  refine ⟨?_, ?_, ?_, Or.inl rfl, .nil, h.hstate.trans hst, by simp, rfl, by simp,
    hdone.advance (by simp) hclean, h.hflat⟩
  · simp [h.hread, hrest]
  · simp [h.hoff]
    omega
  · rw [place_append, h.place_eq, hbetween]

theorem newLine (h : Reading lineSep S u [] [] .between p) (hne : lineSep ≠ 0) :
    Reading lineSep S u [] [] .between { p with lines := p.lines ++ [p.line], line := ⟨[], []⟩ } :=
  { h with
    hdone := h.hdone.newLine
    hflat := fun h0 => absurd h0 hne }

theorem blanks (h : Reading lineSep S u z [] pl p) (hrest : p.rest = x ++ t)
    (hx : ∀ c ∈ x, isspace c = true) : ∃ u' z', Reading lineSep S u' z' [] .between
      { p with rest := t, off := p.off + x.length } := by
  have hpl : pl = .between := h.hpart.eq_nil_iff.mp rfl
  subst hpl
  by_cases hz : z = []
  · subst hz
    refine ⟨u ++ x, [], ?_, ?_, ?_, Or.inl rfl, h.hpart, h.hstate, by simp, h.hstart, by simp, ?_,
      h.hflat⟩
    · simp [h.hread, hrest]
    · simp [h.hoff]
    · rw [place_append, h.hplace]
      exact foldl_next_loose fun c hc => Or.inl (hx c hc)
    · exact h.hdone.advance (by simp) fun hu => hu.blanks hx
  · refine ⟨u, z ++ x, ?_, ?_, h.hplace, h.hloose.blanks hz hx, h.hpart, h.hstate, by simp, ?_,
      by simp, h.hdone, h.hflat⟩
    · simp [h.hread, hrest]
    · simp [h.hoff]
      omega
    · have hstart := h.hstart
      simp only [List.append_nil, hz, if_false] at hstart
      simp [hstart, hz]

/-- A separator is read that ends no argument. -/
theorem separator (h : Reading lineSep S u z [] pl p) (hsep : Separates lineSep)
    (hrest : p.rest = lineSep :: t) :
    Reading lineSep S u (z ++ [lineSep]) [] .between ((p.textRead [] p.rest).newLine false) := by
  have hbuf : p.buf = none := h.hpart.buf_eq_none_iff.mpr rfl
  have hpl : pl = .between := h.hpart.eq_nil_iff.mp rfl
  subst hpl
  have hline : (p.textRead [] p.rest).newLine false =
      { p with
        rest := t
        off := p.off + 1
        startIdx := if p.startIdx < 0 then p.off else p.startIdx
        endIdx := p.off
        lines := p.lines ++ [p.line]
        line := ⟨[], []⟩ } := by
    simp [ArgParser.textRead, ArgParser.newLine, ArgParser.finish, hbuf, hrest]
  rw [hline]
  refine ⟨?_, ?_, h.hplace, h.hloose.separator hsep, hbuf ▸ .nil, h.hstate, by simp, ?_, by simp,
    h.hdone.newLine, fun h0 => absurd h0 hsep.pos⟩
  · simp [h.hread, hrest]
  · simp [h.hoff]
    omega
  · simp only [h.hstart, List.append_nil, List.append_eq_nil_iff, List.cons_ne_nil, and_false, if_false]
    by_cases hz : z = []
    · simp [hz, h.hoff]
    · rw [if_neg hz, if_neg (by omega)]

/-- The separator ends an argument, and its line. -/
theorem wordLine (h : Reading lineSep S u z w pl p) (hnul : 0 ∉ S) (hw : w ≠ [])
    (hst : pl.state = .unquoted) (hrest : p.rest = lineSep :: t)
    (hstop : lineSep ∈ unquoteTok lineSep ∧ lineSep ≠ 39 ∧ lineSep ≠ 34 ∧ lineSep ≠ 92) :
    Reading lineSep S (u ++ (z ++ w) ++ [lineSep]) [] [] .between (p.newLine false) := by
  have hplace : place lineSep (u ++ (z ++ w)) ≠ .between := by
    rw [h.place_eq]
    exact mt h.hpart.eq_nil_iff.mpr hw
  have hbetween : [lineSep].foldl (Place.next lineSep) pl = .between :=
    next_of_stop hst hstop.2 (Or.inl hstop.1)
  have hword := h.word hnul hw hst (x := [lineSep]) hrest hbetween fun hu => hu.attached hplace
  have hline := hword.newLine (ne_zero_of_mem hstop.1)
  rw [ArgParser.newLine]
  simp only [Bool.false_eq_true, if_false, hrest]
  exact hline

/-- Blanks between arguments are skipped, and end the argument before them. -/
theorem step_blank (h : Reading lineSep S u z w pl p) (hnul : 0 ∉ S) (hst : pl.state = .unquoted)
    {c : UInt8} {cs : Bytes} (hrest : p.rest = c :: cs) (hspace : isspace c = true) :
    ∃ u' z', Reading lineSep S u' z' [] .between (step lineSep false p) := by
  have hsplit := (List.takeWhile_append_dropWhile (p := isspace) (l := p.rest)).symm
  have hall : ∀ d ∈ p.rest.takeWhile isspace, isspace d = true := fun d => List.mem_takeWhile_imp
  have hstep : step lineSep false p = p.skipSpace.finish false := by
    simp [step, h.hstate, hst, hrest, hspace]
  rw [hstep, ArgParser.skipSpace]
  by_cases hw : w = []
  · subst hw
    have hbuf : p.buf = none := h.hpart.buf_eq_none_iff.mpr rfl
    obtain ⟨u', z', hblanks⟩ := h.blanks hsplit hall
    refine ⟨u', z', ?_⟩
    simp only [hbuf] at hblanks
    simp only [ArgParser.finish, hbuf]
    exact hblanks
  · refine ⟨_, [], h.word hnul hw hst hsplit ?_ fun hu => hu.blanks hall⟩
    have htake : p.rest.takeWhile isspace = c :: cs.takeWhile isspace := by
      rw [hrest, List.takeWhile_cons_of_pos hspace]
    have hnext : pl.next lineSep c = .between := by
      apply next_of_stop hst (quotes_of_isspace hspace)
      by_cases htext : pl = .text
      · exact Or.inl (h.htext htext c (by rw [hrest]; rfl)).1
      · exact Or.inr ⟨htext, hspace⟩
    rw [htake, List.foldl_cons, hnext]
    rw [htake] at hall
    exact foldl_next_loose fun d hd => Or.inl (hall d (List.mem_cons_of_mem _ hd))

/-- A separator where no plain text comes before it. -/
theorem step_separator (h : Reading lineSep S u z w pl p) (hnul : 0 ∉ S)
    (hst : pl.state = .unquoted) (hsep : Separates lineSep) (hrest : p.rest = lineSep :: t) :
    ∃ u' z', Reading lineSep S u' z' [] .between (step lineSep false p) := by
  have hstep : step lineSep false p = (p.textRead [] p.rest).newLine false := by
    rw [step_unquoted (r := []) (t := p.rest) (h.hstate.trans hst) rfl (by simp [hrest])
      (by rw [hrest]; rintro c ⟨⟩; exact hsep.space) (by simp)
      (by rw [hrest]; rintro c ⟨⟩; exact hsep.mem)]
    simp [unquotedEnd, ArgParser.textRead, hrest, hsep.single, hsep.double, hsep.slash, hsep.pos]
  rw [hstep]
  by_cases hw : w = []
  · subst hw
    exact ⟨_, _, h.separator hsep hrest⟩
  · have hsame : p.textRead [] p.rest = p := by
      have hstart : ¬p.startIdx < 0 := by
        rw [h.hstart, if_neg (by simp [hw])]
        omega
      simp [ArgParser.textRead, hstart, ← h.hend hw hst]
    rw [hsame]
    exact ⟨_, _, h.wordLine hnul hw hst hrest ⟨hsep.mem, hsep.single, hsep.double, hsep.slash⟩⟩

theorem buf_ne_none (h : Reading lineSep S u z w pl p) : pl ≠ .between → p.buf ≠ none := fun hpl =>
  mt h.hpart.buf_eq_none_iff.mp (mt h.hpart.eq_nil_iff.mp hpl)

/-- A chunk is read, and a separator that follows its plain text. -/
theorem step_chunk (h : Reading lineSep S u z w pl p) (hnul : 0 ∉ S)
    (hchunk : ArgChunk lineSep pl r k pl') (hrest : p.rest = r ++ t)
    (ht : pl' = .text → Stops lineSep t) :
    ∃ u' z' w' pl'', Reading lineSep S u' z' w' pl'' (step lineSep false p) := by
  by_cases hnl : pl' = .text ∧ ∃ t', t = lineSep :: t'
  · obtain ⟨rfl, t', rfl⟩ := hnl
    have hstop := ht rfl lineSep rfl
    have hne : lineSep ≠ 0 := ne_zero_of_mem hstop.1
    cases hchunk with
    | text hedge hplain hr hstarts =>
      have hp : p.state = .unquoted := h.hstate.trans hedge.state
      have hread : p.textRead r (lineSep :: t') =
          p.reads r r (lineSep :: t') (Place.text).state (p.off + r.length : ℕ) := by
        simp [ArgParser.textRead, ArgParser.reads, hr, hp, Place.state]
      have hstep : step lineSep false p = (p.textRead r (lineSep :: t')).newLine false := by
        rw [step_unquoted hp hrest (by simp) (hstarts.append hr _) hplain
          (by rintro c ⟨⟩; exact hstop.1)]
        simp [unquotedEnd, ArgParser.textRead, hstop, hne]
      have hq := h.chunk (.text hedge hplain hr hstarts) hrest ht (e := (p.off + r.length : ℕ))
        fun _ => rfl
      rw [hstep, hread]
      exact ⟨_, _, _, _, hq.wordLine hnul (by simp [hr]) rfl rfl hstop⟩
  · obtain ⟨e, hstep, he⟩ := Uline.step_chunk hchunk h.hstate h.buf_ne_none hrest (by
      intro hpl c hc
      obtain ⟨hmem, hquotes⟩ := ht hpl c hc
      obtain ⟨t', rfl⟩ := List.head?_eq_some_iff.mp hc
      have hsep : c ≠ lineSep := by
        rintro rfl
        exact hnl ⟨hpl, t', rfl⟩
      refine ⟨hmem, ?_, hsep⟩
      rcases mem_unquoteTok.mp hmem with hb | hb | hb | hb | hb
      · exact isspace_of_blank hb
      · exact absurd hb hquotes.1
      · exact absurd hb hquotes.2.1
      · exact absurd hb hquotes.2.2
      · exact absurd hb.2 hsep)
    rw [hstep]
    exact ⟨_, _, _, _, h.chunk hchunk hrest ht he⟩

/-- Quotes that are not closed take the rest of the line. -/
theorem step_unclosed {st : ArgState} (hp : p.state = st)
    (h : st = .singleQuote ∧ 39 ∉ p.rest ∨ st = .doubleQuote ∧ 34 ∉ p.rest ∧ 92 ∉ p.rest) :
    (step lineSep false p).rest = [] ∧ (step lineSep false p).state = st := by
  have hread : ∀ tok : Bytes, (∀ c ∈ p.rest, c ∉ tok) → (p.mark.addUntil false tok).rest = [] := by
    intro tok htok
    rw [mark_addUntil_eq (t := []) (List.append_nil _).symm htok (by rintro c ⟨⟩)]
  have hstate : ∀ tok : Bytes, (p.mark.addUntil false tok).state = st := fun tok => by simp [hp]
  rcases h with ⟨rfl, hmem⟩ | ⟨rfl, hquote, hslash⟩
  · have hnil := hread [39] (by rintro c hc hs; exact hmem (List.mem_singleton.mp hs ▸ hc))
    have hkeep := hstate [39]
    simp only [Uline.step, hp, singleQuoteStep]
    generalize p.mark.addUntil false [39] = q at hnil hkeep
    simp [hnil, hkeep]
  · have hnil := hread [34, 92] (by
      intro c hc hs
      rcases List.mem_pair.mp hs with rfl | rfl
      · exact hquote hc
      · exact hslash hc)
    have hkeep := hstate [34, 92]
    simp only [Uline.step, hp, doubleQuoteStep]
    generalize p.mark.addUntil false [34, 92] = q at hnil hkeep
    simp [hnil, hkeep]

/-- What one iteration preserves, unless it ends in quotes that are not closed. -/
theorem step (h : Reading lineSep S u z w pl p) (hnul : 0 ∉ S) (hne : p.rest ≠ []) :
    (∃ u' z' w' pl', Reading lineSep S u' z' w' pl' (step lineSep false p)) ∨
      (step lineSep false p).rest = [] ∧ (step lineSep false p).state ≠ .unquoted := by
  by_cases hst : pl.state = .unquoted
  · left
    obtain ⟨c, cs, hrest⟩ := List.exists_cons_of_ne_nil hne
    by_cases hspace : isspace c = true
    · obtain ⟨u', z', hblank⟩ := h.step_blank hnul hst hrest hspace
      exact ⟨_, _, _, _, hblank⟩
    · have hstarts : Starts p.rest := by
        rw [hrest]
        rintro d ⟨⟩
        simpa using hspace
      rcases Place.edge_or_text hst with hedge | rfl
      · rcases exists_chunk_edge hne hedge hstarts with ⟨r, k, pl', t, hchunk, hr, ht⟩ |
          ⟨hsep, t, hr⟩
        · exact h.step_chunk hnul hchunk hr ht
        · obtain ⟨u', z', hline⟩ := h.step_separator hnul hst hsep hr
          exact ⟨_, _, _, _, hline⟩
      · obtain ⟨hmem, hquotes⟩ := h.htext rfl c (by rw [hrest]; rfl)
        rcases mem_unquoteTok.mp hmem with hb | hb | hb | hb | ⟨h0, rfl⟩
        · exact absurd (isspace_of_blank hb) hspace
        · exact absurd hb hquotes.1
        · exact absurd hb hquotes.2.1
        · exact absurd hb hquotes.2.2
        · have hsep : Separates c :=
            ⟨by simpa using hspace, hquotes.1, hquotes.2.1, hquotes.2.2, h0⟩
          obtain ⟨u', z', hline⟩ := h.step_separator hnul hst hsep hrest
          exact ⟨_, _, _, _, hline⟩
  · cases pl with
    | between => exact absurd rfl hst
    | text => exact absurd rfl hst
    | quoted st =>
      rcases exists_chunk_quoted hne hst with ⟨r, k, pl', t, hchunk, hr, ht⟩ | hopen
      · exact Or.inl (h.step_chunk hnul hchunk hr fun h => absurd h ht)
      · obtain ⟨hrest, hstate⟩ := step_unclosed h.hstate hopen
        exact Or.inr ⟨hrest, hstate ▸ hst⟩

/-- What the loop preserves on a line whose quotes are all closed. -/
theorem run (h : Reading lineSep S u z w pl p) (hnul : 0 ∉ S)
    (hclosed : (run lineSep false p).state = .unquoted) :
    ∃ u' z' w' pl', Reading lineSep S u' z' w' pl' (run lineSep false p) ∧
      (Uline.run lineSep false p).rest = [] := by
  fun_induction Uline.run lineSep false p generalizing u z w pl with
  | case1 p hrest => exact ⟨u, z, w, pl, h, hrest⟩
  | case2 p hrest ih =>
    rcases h.step hnul hrest with ⟨u', z', w', pl', hstep⟩ | ⟨hnil, hst⟩
    · exact ih hstep hclosed
    · rw [run_of_nil hnil] at hclosed
      exact absurd hclosed hst

/-- The arguments of a line whose quotes are all closed: `z` is what stands
behind the last of them. -/
theorem done (h : Reading lineSep S u z w pl p) (hnul : 0 ∉ S) (hrest : p.rest = [])
    (hst : pl.state = .unquoted) : ∃ u' z', S = u' ++ z' ∧ Loose lineSep z' ∧
      Done lineSep S u' ((p.finish false).lines ++ [(p.finish false).line]) := by
  have hread := h.hread
  rw [hrest, List.append_nil] at hread
  by_cases hw : w = []
  · subst hw
    rw [List.append_nil] at hread
    refine ⟨u, z, hread, h.hloose, ?_⟩
    simp only [ArgParser.finish, h.hpart.buf_eq_none_iff.mpr]
    exact h.hdone
  · obtain ⟨line, hfinish, hdone⟩ := h.finish hnul hw hst
    refine ⟨u ++ (z ++ w), [], by rw [hread, List.append_nil], Or.inl rfl, ?_⟩
    rw [hfinish]
    exact hdone

end Reading

namespace ArgList

variable {α : Type}

/-- All elements, line after line. -/
def toList : ArgList α → List α
  | .flat l => l
  | .lines ls => ls.flatten

/-- How many elements each line has. -/
def shape : ArgList α → ArgList Unit
  | .flat l => .flat (l.map fun _ => ())
  | .lines ls => .lines (ls.map (·.map fun _ => ()))

end ArgList

/-- Each argument has a `[start, end)` pair, the pairs are increasing and
disjoint, and the text between them is read as the argument and nothing else. -/
structure Located (lineSep : UInt8) (str : Bytes) : Prop where
  paired : (parse lineSep str).pos.shape = (parse lineSep str).args.shape
  ordered : (parse lineSep str).pos.toList.Pairwise fun q q' => q.2 ≤ q'.1
  bounded : ∀ q ∈ (parse lineSep str).pos.toList, 0 ≤ q.1 ∧ q.1 < q.2 ∧ q.2 ≤ str.length
  alone : ∀ e ∈ (parse lineSep str).args.toList.zip (parse lineSep str).pos.toList,
    Alone lineSep str e

/-- Behind a separator that stands where no argument is open there are only
blanks and separators. -/
def SeparatorsAttached (lineSep : UInt8) (str : Bytes) : Prop :=
  Separates lineSep → ∀ s v, cstr str = s ++ lineSep :: v → place lineSep s = .between →
    ∀ c ∈ v, isspace c = true ∨ c = lineSep

section Located

variable {lineSep : UInt8} {str S u z : Bytes} {ls : List ArgLine}

theorem start_reading (lineSep : UInt8) (str : Bytes) :
    ∃ u z, Reading lineSep (cstr str) u z [] .between (start str) := by
  have hbefore : Reading lineSep (cstr str) [] [] [] .between (before (cstr str)) :=
    ⟨rfl, rfl, rfl, Or.inl rfl, .nil, rfl, by simp, rfl, by simp,
      ⟨by simp [before], by simp [entries, before], by simp [entries, before],
        by simp [entries, before], fun _ _ s v h => by simp at h⟩, fun _ => rfl⟩
  have hsplit := (List.takeWhile_append_dropWhile (p := isspace) (l := cstr str)).symm
  exact hbefore.blanks hsplit fun _ hc => List.mem_takeWhile_imp hc

theorem nul_notMem_cstr (str : Bytes) : 0 ∉ cstr str := fun h => by
  have := List.mem_takeWhile_imp h
  simp at this

theorem missing_eq_none {st : ArgState} : stateStr st = none ↔ st = .unquoted := by
  cases st <;> simp [stateStr]

theorem entries_eq_zip (h : ∀ l ∈ ls, l.args.length = l.pos.length) :
    entries ls = (ls.map (·.args)).flatten.zip (ls.map (·.pos)).flatten := by
  induction ls with
  | nil => rfl
  | cons l ls ih =>
    rw [List.map_cons, List.map_cons, List.flatten_cons, List.flatten_cons,
      List.zip_append (h l (List.mem_cons_self ..)), ← ih fun x hx => h x (List.mem_cons_of_mem _ hx)]
    rfl

theorem length_flatten_eq (h : ∀ l ∈ ls, l.args.length = l.pos.length) :
    (ls.map (·.pos)).flatten.length = (ls.map (·.args)).flatten.length := by
  rw [List.length_flatten, List.length_flatten, List.map_map, List.map_map]
  exact congrArg List.sum (List.map_congr_left fun l hl => (h l hl).symm)

theorem shape_eq (h : ∀ l ∈ ls, l.args.length = l.pos.length) :
    ls.map (fun l => l.pos.map fun _ => ()) = ls.map fun l => l.args.map fun _ => () := by
  apply List.map_congr_left
  intro l hl
  simp [List.map_const', h l hl]

/-- What parsing makes of a line whose quotes are all closed. -/
theorem parse_done (h : (parse lineSep str).missing = none) :
    ∃ u z ls, cstr str = u ++ z ∧ Loose lineSep z ∧ Done lineSep (cstr str) u ls ∧
      (parse lineSep str).pos.shape = (parse lineSep str).args.shape ∧
      (parse lineSep str).args.toList = (ls.map (·.args)).flatten ∧
      (parse lineSep str).pos.toList = (ls.map (·.pos)).flatten := by
  have hnul := nul_notMem_cstr str
  obtain ⟨u, z, hstart⟩ := start_reading lineSep str
  have hst : (run lineSep false (start str)).state = .unquoted := by
    have := missing_eq_none.mp h
    rwa [ArgParser.state_finish] at this
  obtain ⟨u', z', w', pl', hrun, hrest⟩ := hstart.run hnul hst
  obtain ⟨v, y, hsplit, hloose, hdone⟩ := hrun.done hnul hrest (hrun.hstate.symm.trans hst)
  have hflat : lineSep = 0 → ((run lineSep false (start str)).finish false).lines = [] := by
    rw [lines_finish]
    exact hrun.hflat
  refine ⟨v, y, _, hsplit, hloose, hdone, ?_⟩
  unfold parse
  generalize (run lineSep false (start str)).finish false = q at hdone hflat
  by_cases h0 : lineSep = 0
  · have hpaired := hdone.paired q.line (by simp)
    simp [h0, hflat h0, ArgList.shape, ArgList.toList, List.map_const', hpaired]
  · simp only [h0, if_false, ArgList.shape, ArgList.toList, List.map_map, and_true]
    exact congrArg _ (shape_eq hdone.paired)

theorem Recorded.bounds {e : Entry} (h : Recorded lineSep S e z) :
    0 ≤ e.2.1 ∧ e.2.1 < e.2.2 ∧ e.2.2 ≤ S.length := by
  obtain ⟨rfl, -, -, hpart, -⟩ := h
  rename_i a u w t pl
  have hw : 0 < w.length :=
    List.length_pos_of_ne_nil (mt hpart.buf_eq_none_iff.mpr (Option.some_ne_none a))
  refine ⟨Int.natCast_nonneg _, Int.ofNat_lt.mpr ?_, Int.ofNat_le.mpr ?_⟩
  · simp only [List.length_append]
    omega
  · simp only [List.length_append]
    omega

/-- The loop ends at the first NUL, and so do the positions. -/
theorem slice_cstr {q : ℤ × ℤ} (h : q.2 ≤ (cstr str).length) : slice (cstr str) q = slice str q := by
  have hsplit : cstr str ++ str.dropWhile (· != 0) = str := List.takeWhile_append_dropWhile
  have hle : q.2.toNat ≤ (cstr str).length := by omega
  rw [slice, slice]
  conv_rhs => rw [← hsplit, List.take_append_of_le_length hle]

/-- The arguments are all alone at their positions exactly when no separator
that ends no argument has an argument after it. -/
theorem Done.alone_iff (h : Done lineSep S u ls) (hnul : 0 ∉ S) (hS : S = u ++ z)
    (hz : Loose lineSep z) : (∀ e ∈ entries ls, Alone lineSep S e) ↔
      (Separates lineSep → ∀ s v, S = s ++ lineSep :: v → place lineSep s = .between →
        ∀ c ∈ v, isspace c = true ∨ c = lineSep) := by
  constructor
  · intro halone hsep s v hs hplace c hc
    rw [hS] at hs
    rcases List.append_eq_append_iff.mp hs with ⟨s', rfl, hs'⟩ | ⟨v', rfl, hv'⟩
    · -- The separator stands behind the last argument.
      rcases hz with rfl | ⟨-, z', rfl, hz'⟩
      · simp at hs'
      · cases s' with
        | nil =>
          rw [List.nil_append, List.cons.injEq] at hs'
          exact hz' c (hs'.2 ▸ hc)
        | cons d ds =>
          rw [List.cons_append, List.cons.injEq] at hs'
          exact hz' c (by rw [hs'.2]; simp [hc])
    · cases v' with
      | nil =>
        rw [List.nil_append] at hv'
        rcases hz with rfl | ⟨-, z', rfl, hz'⟩
        · cases hv'
        · rw [List.cons.injEq] at hv'
          exact hz' c (hv'.2 ▸ hc)
      | cons d ds =>
        rw [List.cons_append, List.cons.injEq] at hv'
        obtain ⟨rfl, -⟩ := hv'
        exact absurd hplace (h.clean halone hsep s ds rfl)
  · intro hattached e he
    obtain ⟨y, hrec⟩ := h.recorded e he
    rw [hrec.alone_iff hnul]
    obtain ⟨hread, hplace, hloose, hpart, hst⟩ := hrec
    rename_i a u' w t pl
    rcases hloose with hy | ⟨hsep, z', rfl, -⟩
    · exact hy
    · have hw : w ≠ [] := mt hpart.buf_eq_none_iff.mpr (Option.some_ne_none a)
      obtain ⟨c, cs, rfl⟩ := List.exists_cons_of_ne_nil hw
      rcases hattached hsep u' (z' ++ (c :: cs ++ t)) hread hplace c (by simp) with hspace | hc
      · rw [hpart.starts c rfl] at hspace
        cases hspace
      · exact absurd hc (hpart.head_ne hsep rfl)

/-- On every line whose quotes are all closed, for every separator setting, the
positions are right exactly when no separator that stands where no argument is
open has an argument after it. -/
theorem located_iff (h : (parse lineSep str).missing = none) :
    Located lineSep str ↔ SeparatorsAttached lineSep str := by
  have hnul := nul_notMem_cstr str
  obtain ⟨u, z, ls, hu, hz, hdone, hshape, hargs, hpos⟩ := parse_done h
  have hzip : (parse lineSep str).args.toList.zip (parse lineSep str).pos.toList = entries ls := by
    rw [hargs, hpos, entries_eq_zip hdone.paired]
  have hsnd : (parse lineSep str).pos.toList = (entries ls).map (·.2) := by
    rw [← hzip, List.map_snd_zip (by rw [hargs, hpos, length_flatten_eq hdone.paired])]
  have hbounds : ∀ e ∈ entries ls, 0 ≤ e.2.1 ∧ e.2.1 < e.2.2 ∧ e.2.2 ≤ (cstr str).length := by
    intro e he
    obtain ⟨y, hrec⟩ := hdone.recorded e he
    exact hrec.bounds
  have hslice : ∀ e ∈ entries ls, (Alone lineSep str e ↔ Alone lineSep (cstr str) e) := by
    intro e he
    rw [Alone, Alone, slice_cstr (hbounds e he).2.2]
  have halone : (∀ e ∈ entries ls, Alone lineSep str e) ↔ SeparatorsAttached lineSep str := by
    rw [SeparatorsAttached, ← hdone.alone_iff hnul hu hz]
    exact forall₂_congr hslice
  constructor
  · intro hlocated
    exact halone.mp (hzip ▸ hlocated.alone)
  · intro hattached
    refine ⟨hshape, ?_, ?_, hzip ▸ halone.mpr hattached⟩
    · rw [hsnd, List.pairwise_map]
      exact hdone.ordered
    · rw [hsnd]
      intro q hq
      obtain ⟨e, he, rfl⟩ := List.mem_map.mp hq
      obtain ⟨h0, hlt, hle⟩ := hbounds e he
      exact ⟨h0, hlt, Int.le_trans hle (Int.ofNat_le.mpr (List.takeWhile_sublist _).length_le)⟩

end Located

/-- Two lines of one argument each: the separator between them ends the first. -/
theorem located_iff_attached :
    Located 59 (ascii "a; 'b'") ↔ SeparatorsAttached 59 (ascii "a; 'b'") :=
  located_iff (by decide +kernel)

/-- A line that starts with the separator: the argument of the second line seems
to start at the separator, and the text there is two lines. -/
theorem not_located : ¬∀ (lineSep : UInt8) (str : Bytes), (parse lineSep str).missing = none →
    Located lineSep str := by
  intro h
  have hargs : (parse 59 (ascii ";a")).args.toList = [ascii "a"] := by decide +kernel
  have hpos : (parse 59 (ascii ";a")).pos.toList = [((0 : ℤ), (2 : ℤ))] := by decide +kernel
  have halone := (h 59 (ascii ";a") (by decide +kernel)).alone (ascii "a", (0, 2))
    (by rw [hargs, hpos]; simp)
  have hself : slice (ascii ";a") (0, 2) = ascii ";a" := by decide
  have hlines : (parse 59 (ascii ";a")).args = .lines [[], [ascii "a"]] := by decide +kernel
  have := halone.1
  simp only [hself, hlines, ArgList.only] at this
  simp at this

end NeonWrt.Uline
