import NeonWrt.Luci.Po2lmo

/-!
# PO files

A catalogue as the gettext tools write it: a header, which is the message with the empty id,
and messages with an optional context, an id, and one translation or the plural forms from
index 0 on. Each of these fields is a quoted text, continued on further lines, with comments
and empty lines anywhere between.
-/

namespace NeonWrt.Luci.Po2lmo

open Lib

/-- A character of a quoted text. -/
inductive PoChar
  | plain (c : UInt8) (h : c ∉ [0, 10, 34, 92])
  | esc (c : UInt8) (h : c ∉ [0, 10])

/-- A character in the file. -/
def PoChar.raw : PoChar → Bytes
  | .plain c _ => [c]
  | .esc c _ => [92, c]

/-- What a character stands for. Escapes other than those of the quote and the backslash are kept. -/
def PoChar.value : PoChar → Bytes
  | .plain c _ => [c]
  | .esc c _ => if c = 34 ∨ c = 92 then [c] else [92, c]

theorem PoChar.zero_not_mem_value (c : PoChar) : 0 ∉ c.value := by
  cases c with
  | plain c h =>
    have hc : ¬ 0 = c := fun h0 => h (by simp [← h0])
    simpa [PoChar.value] using hc
  | esc c h =>
    have hc : ¬ 0 = c := fun h0 => h (by simp [← h0])
    simp only [PoChar.value]
    split_ifs
    · simpa using hc
    · simpa using hc

/-- A quoted text, and what follows it on its line. -/
structure Quoted where
  chars : List PoChar
  tail : Bytes
  htail : 0 ∉ tail

def Quoted.bytes (q : Quoted) : Bytes := 34 :: (q.chars.flatMap PoChar.raw ++ 34 :: q.tail)

def Quoted.value (q : Quoted) : Bytes := q.chars.flatMap PoChar.value

theorem Quoted.zero_not_mem_value (q : Quoted) : 0 ∉ q.value := by
  intro h
  obtain ⟨c, -, hc⟩ := List.mem_flatMap.mp h
  exact c.zero_not_mem_value hc

/-- The loop reads the characters one by one. -/
theorem extractLoop_chars (chars : List PoChar) (dest tail : Bytes) :
    extractLoop false dest (chars.flatMap PoChar.raw ++ 34 :: tail) =
      (dest ++ chars.flatMap PoChar.value, true) := by
  induction chars generalizing dest with
  | nil => simp [extractLoop]
  | cons c chars ih =>
    rw [List.flatMap_cons, List.flatMap_cons, List.append_assoc]
    cases c with
    | plain c h =>
      simp only [List.mem_cons, List.not_mem_nil, or_false, not_or] at h
      simp only [PoChar.raw, PoChar.value, List.cons_append, List.nil_append, extractLoop]
      rw [if_neg h.2.2.2, if_pos h.2.2.1, ih, List.append_assoc]
      rfl
    | esc c h =>
      simp only [PoChar.raw, PoChar.value, List.cons_append, List.nil_append, extractLoop, if_true]
      split_ifs with hc
      · rw [List.dropLast_concat, ih, List.append_assoc]
      · rw [ih]
        simp

theorem extractString_quoted {lead tmp : Bytes} (q : Quoted) (hlead : 34 ∉ lead)
    (hcomment : lead.head? ≠ some 35) (hlen : (lead ++ q.bytes).length < 4096) :
    ∃ tmp', extractString (lead ++ q.bytes) tmp 4096 = (tmp', some q.value) := by
  have hhead : ¬ (lead ++ q.bytes).head? = some 35 := by
    cases lead with
    | nil => simp [Quoted.bytes]
    | cons c lead => simpa using hcomment
  have hdrop : ((lead ++ q.bytes).take 4096).dropWhile (· ≠ 34) = q.bytes := by
    rw [List.take_of_length_le hlen.le, List.dropWhile_append_of_pos, Quoted.bytes,
      List.dropWhile_cons_of_neg (by simp)]
    intro c hc
    simpa using fun h : c = 34 => hlead (h ▸ hc)
  have hwritten := extractLoop_chars q.chars [] q.tail
  refine ⟨overwrite tmp 0 (q.value ++ [0]), ?_⟩
  rw [extractString, if_neg hhead, hdrop, Quoted.bytes]
  simp only [hwritten, List.nil_append, if_true]
  rw [Prod.mk.injEq, ← Quoted.value]
  refine ⟨rfl, ?_⟩
  rw [Option.some.injEq, overwrite, cstr, List.take_zero, List.nil_append, List.append_assoc,
    List.takeWhile_append_of_pos]
  · simp
  · intro c hc
    simpa using fun h : c = 0 => q.zero_not_mem_value (h ▸ hc)

/-- A line that begins with no keyword: more text, or a comment or another line without text. -/
inductive TextLine
  | more (lead : Bytes) (hlead : ∀ c ∈ lead, c = 32 ∨ c = 9) (q : Quoted)
  | noise (line : Bytes) (h0 : 0 ∉ line)
    (h : line.head? = some 35 ∨ 34 ∉ line ∧ ¬ ascii "msgstr[" <+: line)

def TextLine.bytes : TextLine → Bytes
  | .more lead _ q => lead ++ q.bytes
  | .noise line _ _ => line

def TextLine.value : TextLine → Bytes
  | .more _ _ q => q.value
  | .noise _ _ _ => []

/-- A field: the text behind its keyword, and further lines. -/
structure PoField where
  first : Quoted
  rest : List TextLine

def PoField.lines (keyword : Bytes) (f : PoField) : List Bytes :=
  (keyword ++ f.first.bytes) :: f.rest.map TextLine.bytes

def PoField.value (f : PoField) : Bytes := f.first.value ++ f.rest.flatMap TextLine.value

/-- The translations of a message. -/
inductive Forms
  | single (str : PoField)
  | plural (idPlural : PoField) (strs : List PoField)

/-- A message. -/
structure Message where
  ctxt : Option PoField
  id : PoField
  body : Forms

/-- The header: a message with the empty id. -/
structure Header where
  id : PoField
  hid : id.value = []
  str : PoField

/-- A catalogue, with lines before the first message. -/
structure Catalogue where
  top : List TextLine
  htop : ∀ l ∈ top, l.value = []
  header : Option Header
  messages : List Message

/-- The lines of plural forms from index `i` on. -/
def formLines : (i : ℕ) → List PoField → List Bytes
  | _, [] => []
  | i, str :: strs => str.lines (ascii "msgstr[" ++ (dec i ++ ascii "] ")) ++ formLines (i + 1) strs

def Forms.lines : Forms → List Bytes
  | .single str => str.lines (ascii "msgstr ")
  | .plural idPlural strs => idPlural.lines (ascii "msgid_plural ") ++ formLines 0 strs

def Message.lines (m : Message) : List Bytes :=
  (m.ctxt.elim [] (PoField.lines (ascii "msgctxt "))) ++
    (m.id.lines (ascii "msgid ") ++ m.body.lines)

def Header.lines (h : Header) : List Bytes :=
  h.id.lines (ascii "msgid ") ++ h.str.lines (ascii "msgstr ")

def Catalogue.lines (c : Catalogue) : List Bytes :=
  c.top.map TextLine.bytes ++
    ((c.header.elim [] Header.lines) ++ c.messages.flatMap Message.lines)

/-- The string of a value, which is `NULL` if it is empty. -/
def nonNull (v : Bytes) : Option Bytes := if v = [] then none else some v

@[simp] theorem nonNull_nil : nonNull [] = none := rfl

@[simp] theorem getD_nonNull (v : Bytes) : (nonNull v).getD [] = v := by
  unfold nonNull
  split_ifs with h
  · exact h.symm
  · rfl

theorem nonNull_of_ne {v : Bytes} (h : v ≠ []) : nonNull v = some v := if_neg h

namespace Msg

variable (msg : Msg) (s t : Option Bytes) (f : Field)

@[simp] theorem get_set : (msg.set s f).get f = s := by
  cases f with
  | val i => exact Function.update_self ..
  | _ => rfl

@[simp] theorem set_get : msg.set (msg.get f) f = msg := by
  cases f with
  | val i => simp [set, get]
  | _ => rfl

@[simp] theorem set_set : (msg.set s f).set t f = msg.set t f := by
  cases f with
  | val i => simp [set]
  | _ => rfl

@[simp] theorem cur_set : (msg.set s f).cur = msg.cur := by
  cases f <;> rfl

end Msg

section Reading

variable {w : ℕ} {msg msg' msg'' : Msg} {out out' out'' : Out} {a v : Bytes} {f : Field}
  {lines lines' : List Bytes}

/-- Some lines are read, from one message and output to another. -/
def Runs (w : ℕ) (lines : List Bytes) (msg : Msg) (out : Out) (msg' : Msg) (out' : Out) : Prop :=
  ∀ tmp, ∃ tmp', lines.foldlM (poLine w) ⟨msg, out, tmp⟩ = some ⟨msg', out', tmp'⟩

theorem Runs.nil : Runs w [] msg out msg out := fun tmp => ⟨tmp, rfl⟩

theorem Runs.append (h : Runs w lines msg out msg' out')
    (h' : Runs w lines' msg' out' msg'' out'') : Runs w (lines ++ lines') msg out msg'' out'' := by
  intro tmp
  obtain ⟨tmp', hrun⟩ := h tmp
  obtain ⟨tmp'', hrun'⟩ := h' tmp'
  refine ⟨tmp'', ?_⟩
  rw [List.foldlM_append, hrun]
  exact hrun'

theorem Runs.single {line : Bytes}
    (h : ∀ tmp, ∃ tmp', poLine w ⟨msg, out, tmp⟩ line = some ⟨msg', out', tmp'⟩) :
    Runs w [line] msg out msg' out' := by
  intro tmp
  obtain ⟨tmp', hrun⟩ := h tmp
  refine ⟨tmp', ?_⟩
  rw [List.foldlM_cons, hrun]
  rfl

/-- Text that was extracted is added to the field. -/
theorem readText_extracted {line tmp tmp' : Bytes} (hcur : msg.cur = some f)
    (hget : msg.get f = nonNull a) (hline : extractString line tmp 4096 = (tmp', some v)) :
    readText line ⟨msg, out, tmp⟩ = ⟨msg.set (nonNull (a ++ v)) f, out, tmp'⟩ := by
  cases v with
  | nil =>
    simp only [readText, hcur, hline, List.append_nil, ← hget, Msg.set_get]
  | cons c v =>
    simp only [readText, hcur, hline, hget, getD_nonNull]
    rw [nonNull_of_ne (by simp)]

theorem readText_none {line tmp : Bytes} (hline : extractString line tmp 4096 = (tmp, none)) :
    readText line ⟨msg, out, tmp⟩ = ⟨msg, out, tmp⟩ := by
  unfold readText
  cases hcur : msg.cur with
  | none => rfl
  | some f => simp only [hline]

theorem readKeyword_of_not_starts {line : Bytes} {st : State}
    (h : ∀ k ∈ ["msgctxt \"", "msgid \"", "msgid_plural \"", "msgstr \"", "msgstr["],
      starts k line = false) : readKeyword w false line st = some st := by
  simp only [List.mem_cons, List.not_mem_nil, or_false, forall_eq_or_imp, forall_eq] at h
  simp [readKeyword, h]

theorem not_starts_of_head {line : Bytes} (h : line.head? ≠ some 109) : ∀ k ∈ ["msgctxt \"",
    "msgid \"", "msgid_plural \"", "msgstr \"", "msgstr["], starts k line = false := by
  intro k hk
  have hascii : (ascii k).head? = some 109 := by
    simp only [List.mem_cons, List.not_mem_nil, or_false] at hk
    rcases hk with rfl | rfl | rfl | rfl | rfl <;> rfl
  by_contra hstarts
  obtain ⟨rest, rfl⟩ := List.isPrefixOf_iff_prefix.mp (eq_true_of_ne_false hstarts)
  rw [List.head?_append, hascii] at h
  exact h rfl

theorem TextLine.not_keyword (l : TextLine) : ∀ k ∈ ["msgctxt \"", "msgid \"", "msgid_plural \"",
    "msgstr \"", "msgstr["], starts k l.bytes = false := by
  cases l with
  | more lead hlead q =>
    apply not_starts_of_head
    cases lead with
    | nil => simp [TextLine.bytes, Quoted.bytes]
    | cons c lead =>
      rcases hlead c (by simp) with rfl | rfl <;> simp [TextLine.bytes]
  | noise line h0 h =>
    rcases h with hcomment | ⟨hquote, hstr⟩
    · exact not_starts_of_head (by simp [TextLine.bytes, hcomment])
    · intro k hk
      by_contra hstarts
      have hkeyword := List.isPrefixOf_iff_prefix.mp (eq_true_of_ne_false hstarts)
      simp only [List.mem_cons, List.not_mem_nil, or_false] at hk
      -- all but the last keyword have a quote
      rcases hk with rfl | rfl | rfl | rfl | rfl
      · exact hquote (hkeyword.subset (by decide))
      · exact hquote (hkeyword.subset (by decide))
      · exact hquote (hkeyword.subset (by decide))
      · exact hquote (hkeyword.subset (by decide))
      · exact hstr hkeyword

/-- A line without a keyword adds its text to the current field. -/
theorem TextLine.runs (l : TextLine) (hlen : l.bytes.length < 4096) (hcur : msg.cur = some f)
    (hget : msg.get f = nonNull a) :
    Runs w [l.bytes] msg out (msg.set (nonNull (a ++ l.value)) f) out := by
  apply Runs.single
  intro tmp
  have hkeyword : readKeyword w false l.bytes ⟨msg, out, tmp⟩ = some ⟨msg, out, tmp⟩ :=
    readKeyword_of_not_starts l.not_keyword
  rw [poLine, hkeyword, Option.map_some]
  cases l with
  | more lead hlead q =>
    have hquote : 34 ∉ lead := fun h => by rcases hlead 34 h with h | h <;> cases h
    have hcomment : lead.head? ≠ some 35 := fun h => by
      rcases hlead 35 (List.mem_of_mem_head? h) with h | h <;> cases h
    obtain ⟨tmp', hextract⟩ := @extractString_quoted lead tmp q hquote hcomment hlen
    exact ⟨tmp', congrArg some (readText_extracted hcur hget hextract)⟩
  | noise line h0 h =>
    refine ⟨tmp, congrArg some ?_⟩
    have hsame : msg.set (nonNull (a ++ [])) f = msg := by
      rw [List.append_nil, ← hget, Msg.set_get]
    rw [TextLine.value, hsame]
    apply readText_none
    rcases h with hcomment | ⟨hquote, -⟩
    · rw [extractString, TextLine.bytes, if_pos hcomment]
    · have hdrop : (line.take 4096).dropWhile (· ≠ 34) = [] := by
        rw [List.dropWhile_eq_nil_iff]
        intro c hc
        simpa using fun h : c = 34 => hquote (h ▸ List.mem_of_mem_take hc)
      rw [extractString, TextLine.bytes]
      split_ifs
      · rfl
      · rw [hdrop]

/-- The lines behind the first one of a field. -/
theorem runs_textLines (ls : List TextLine) (hlen : ∀ l ∈ ls, l.bytes.length < 4096)
    (hcur : msg.cur = some f) (hget : msg.get f = nonNull a) :
    Runs w (ls.map TextLine.bytes) msg out
      (msg.set (nonNull (a ++ ls.flatMap TextLine.value)) f) out := by
  induction ls generalizing msg a with
  | nil =>
    rw [List.flatMap_nil, List.append_nil, ← hget, Msg.set_get]
    exact Runs.nil
  | cons l ls ih =>
    have hfirst : Runs w [l.bytes] msg out (msg.set (nonNull (a ++ l.value)) f) out :=
      l.runs (hlen l (by simp)) hcur hget
    have hcur' : (msg.set (nonNull (a ++ l.value)) f).cur = some f := by rw [Msg.cur_set, hcur]
    have hrest := ih (fun l hl => hlen l (by simp [hl])) hcur' (Msg.get_set ..)
    rw [Msg.set_set, List.append_assoc, ← List.flatMap_cons] at hrest
    exact hfirst.append hrest

/-- A field is read as its value, whatever its keyword does first. -/
theorem PoField.runs (p : PoField) {keyword : Bytes} (hquote : 34 ∉ keyword)
    (hcomment : keyword.head? ≠ some 35) (hlen : ∀ l ∈ p.lines keyword, l.length < 4096)
    (hcur : msg'.cur = some f) (hget : msg'.get f = none)
    (hkeyword : ∀ tmp, readKeyword w false (keyword ++ p.first.bytes) ⟨msg, out, tmp⟩ =
      some ⟨msg', out', tmp⟩) :
    Runs w (p.lines keyword) msg out (msg'.set (nonNull p.value) f) out' := by
  have hfirst : Runs w [keyword ++ p.first.bytes] msg out
      (msg'.set (nonNull p.first.value) f) out' := by
    apply Runs.single
    intro tmp
    obtain ⟨tmp', hextract⟩ := @extractString_quoted keyword tmp p.first hquote hcomment
      (hlen _ (List.mem_cons_self ..))
    refine ⟨tmp', ?_⟩
    rw [poLine, hkeyword, Option.map_some,
      readText_extracted (a := []) hcur (by rw [hget]; rfl) hextract]
    rfl
  have hlen' : ∀ l ∈ p.rest, l.bytes.length < 4096 := by
    intro l hl
    apply hlen
    exact List.mem_cons_of_mem (keyword ++ p.first.bytes) (List.mem_map_of_mem hl)
  have hcur' : (msg'.set (nonNull p.first.value) f).cur = some f := by rw [Msg.cur_set, hcur]
  have hrest : Runs w (p.rest.map TextLine.bytes) (msg'.set (nonNull p.first.value) f) out'
      ((msg'.set (nonNull p.first.value) f).set (nonNull p.value) f) out' :=
    runs_textLines p.rest hlen' hcur' (Msg.get_set ..)
  rw [Msg.set_set] at hrest
  exact hfirst.append hrest

/-- The strings of some forms. -/
def formVal (forms : List Bytes) (i : ℕ) : Option Bytes := forms[i]?.bind nonNull

theorem update_formVal (forms : List Bytes) :
    Function.update (formVal forms) forms.length (nonNull v) = formVal (forms ++ [v]) := by
  funext i
  by_cases hi : i = forms.length
  · subst hi
    simp [formVal]
  · rw [Function.update_of_ne hi, formVal, formVal]
    rcases lt_or_gt_of_ne hi with hlt | hgt
    · rw [List.getElem?_append_left hlt]
    · rw [List.getElem?_eq_none (by omega), List.getElem?_eq_none (by simp; omega)]

/-- A message with some forms, the last of which is current. -/
def Msg.withForms (msg : Msg) (forms : List Bytes) : Msg :=
  { msg with
    pluralNum := forms.length - 1
    val := formVal forms
    cur := some (.val (forms.length - 1)) }

/-- The message when one more form is current. -/
theorem set_form (done : List Bytes) (hval : msg.val = formVal done) :
    ({ msg with
        pluralNum := done.length
        val := Function.update msg.val done.length none
        cur := some (.val done.length) } : Msg).set (nonNull v) (.val done.length) =
      msg.withForms (done ++ [v]) := by
  simp [Msg.set, Msg.withForms, Function.update_idem, hval, update_formVal]

/-- The context, which is none if it is empty. -/
def Message.context (m : Message) : Option Bytes := m.ctxt.bind fun p => nonNull p.value

def Message.idPlural (m : Message) : Option Bytes :=
  match m.body with
  | .single _ => none
  | .plural p _ => nonNull p.value

def Message.forms (m : Message) : List Bytes :=
  match m.body with
  | .single str => [str.value]
  | .plural _ strs => strs.map PoField.value

/-- The message as the program has it after its last line. -/
def Message.fields (m : Message) : Msg :=
  Msg.withForms
    { Msg.blank 0 none with
      ctxt := m.context
      id := nonNull m.id.value
      idPlural := m.idPlural }
    m.forms

/-- The next message clears this one, with what is written for it. -/
def Closes (msg : Msg) (out out' : Out) : Prop :=
  ∃ n, ∀ f, f = .ctxt ∨ f = .id → ∀ tmp,
    beginMsg f ⟨msg, out, tmp⟩ = some ⟨.blank n (some f), out', tmp⟩

/-- At the beginning there is nothing to clear. -/
theorem closes_blank (n : ℤ) (cur : Option Field) (out : Out) : Closes (.blank n cur) out out := by
  refine ⟨n, fun f hf tmp => ?_⟩
  rcases hf with rfl | rfl <;> rfl

theorem readKeyword_msgctxt (q : Quoted) (st : State) :
    readKeyword w false (ascii "msgctxt " ++ q.bytes) st = beginMsg .ctxt st := rfl

theorem readKeyword_msgid (q : Quoted) (st : State) :
    readKeyword w false (ascii "msgid " ++ q.bytes) st = beginMsg .id st := rfl

theorem readKeyword_msgid_plural (q : Quoted) (st : State) :
    readKeyword w false (ascii "msgid_plural " ++ q.bytes) st = some (beginField .idPlural st) := rfl

theorem readKeyword_msgstr (q : Quoted) (st : State) :
    readKeyword w false (ascii "msgstr " ++ q.bytes) st =
      some (beginField (.val 0) { st with msg := { st.msg with pluralNum := 0 } }) := rfl

theorem readKeyword_form (hw : 32 ≤ w) {i : ℕ} (hi : i < 10) (q : Quoted) (st : State) :
    readKeyword w false (ascii "msgstr[" ++ (dec i ++ ascii "] ") ++ q.bytes) st =
      some (beginField (.val i) { st with msg := { st.msg with pluralNum := i } }) := by
  rw [List.append_assoc]
  set rest := dec i ++ ascii "] " ++ q.bytes with hrest
  have hrun : Run 10 (dec i) (ascii "] " ++ q.bytes) :=
    ⟨dec_ne_nil i, fun c hc => digitVal_lt_ten (isdigit_of_mem_dec hc),
      fun c hc => by
        obtain rfl : 93 = c := Option.some.inj hc
        rfl⟩
  have hfit : ¬ 2 ^ w ≤ i := by
    have := Nat.pow_le_pow_right (show 0 < 2 by decide) hw
    omega
  have hnum : (strtoul w 10 rest).1 = i := by
    rw [hrest, List.append_assoc, (hrun.strtoul (by decide)).1, numeral_dec, if_neg hfit]
  have hint : toInt32 i = i := by
    rw [toInt32, BitVec.toInt_ofNat']
    exact Int.bmod_eq_of_le_mul_two (by omega) (by omega)
  have hstart : readKeyword w false (ascii "msgstr[" ++ rest) st =
      if 10 ≤ toInt32 (strtoul w 10 rest).1 ∨ toInt32 (strtoul w 10 rest).1 < 0 then none
      else
        some (beginField (.val (toInt32 (strtoul w 10 rest).1).toNat)
          { st with msg := { st.msg with pluralNum := toInt32 (strtoul w 10 rest).1 } }) := rfl
  rw [hstart, hnum, hint, if_neg (by omega), Int.toNat_natCast]

theorem quote_not_mem_form (i : ℕ) : 34 ∉ ascii "msgstr[" ++ (dec i ++ ascii "] ") := by
  intro h
  rcases List.mem_append.mp h with h | h
  · exact absurd h (by decide)
  · rcases List.mem_append.mp h with h | h
    · exact absurd (isdigit_of_mem_dec h) (by decide)
    · exact absurd h (by decide)

/-- The forms from index `done.length` on are read one by one. -/
theorem runs_formLines (hw : 32 ≤ w) {done : List Bytes} {strs : List PoField}
    (hcount : done.length + strs.length ≤ 10)
    (hlen : ∀ l ∈ formLines done.length strs, l.length < 4096) (hstrs : strs ≠ [])
    (hval : msg.val = formVal done) :
    Runs w (formLines done.length strs) msg out
      (msg.withForms (done ++ strs.map PoField.value)) out := by
  induction strs generalizing msg done with
  | nil => exact absurd rfl hstrs
  | cons str strs ih =>
    rw [List.length_cons] at hcount
    have hfirst : Runs w (str.lines (ascii "msgstr[" ++ (dec done.length ++ ascii "] "))) msg out
        (msg.withForms (done ++ [str.value])) out := by
      rw [← set_form done hval]
      apply PoField.runs str (quote_not_mem_form _)
      · simp [ascii]
      · exact fun l hl => hlen l (List.mem_append_left _ hl)
      · rfl
      · exact Function.update_self ..
      · exact fun tmp => readKeyword_form hw (by omega) _ _
    cases strs with
    | nil =>
      rw [formLines, formLines, List.append_nil]
      exact hfirst
    | cons next strs =>
      have hlength : (done ++ [str.value]).length = done.length + 1 := by simp
      have hrest : Runs w (formLines (done.length + 1) (next :: strs))
          (msg.withForms (done ++ [str.value])) out
          ((msg.withForms (done ++ [str.value])).withForms
            (done ++ [str.value] ++ (next :: strs).map PoField.value)) out := by
        rw [← hlength]
        refine ih (by rw [hlength]; omega) (fun l hl => ?_) (by simp) rfl
        rw [hlength] at hl
        exact hlen l (List.mem_append_right _ hl)
      rw [List.append_assoc] at hrest
      exact hfirst.append hrest

/-- After a context and an id, only these are there. -/
def Message.opened (m : Message) (n : ℤ) : Msg :=
  { Msg.blank n (some .id) with ctxt := m.context, id := nonNull m.id.value }

theorem Message.runs_opened (m : Message) (hclose : Closes msg out out')
    (hlen : ∀ l ∈ m.lines, l.length < 4096) :
    ∃ n, Runs w (m.ctxt.elim [] (PoField.lines (ascii "msgctxt ")) ++ m.id.lines (ascii "msgid "))
      msg out (m.opened n) out' := by
  obtain ⟨n, hclose⟩ := hclose
  refine ⟨n, ?_⟩
  have hid : ∀ l ∈ m.id.lines (ascii "msgid "), l.length < 4096 :=
    fun l hl => hlen l (List.mem_append_right _ (List.mem_append_left _ hl))
  cases hctxt : m.ctxt with
  | none =>
    have hrun : Runs w (m.id.lines (ascii "msgid ")) msg out
        ((Msg.blank n (some .id)).set (nonNull m.id.value) .id) out' :=
      PoField.runs m.id (by decide) (by decide) hid rfl rfl
        fun tmp => (readKeyword_msgid _ _).trans (hclose .id (Or.inr rfl) tmp)
    have hopened : m.opened n = (Msg.blank n (some .id)).set (nonNull m.id.value) .id := by
      rw [Message.opened, Message.context, hctxt]
      rfl
    rw [hopened]
    exact hrun
  | some p =>
    have hp : ∀ l ∈ p.lines (ascii "msgctxt "), l.length < 4096 := by
      intro l hl
      apply hlen l
      rw [Message.lines, hctxt]
      exact List.mem_append_left _ hl
    have hfirst : Runs w (p.lines (ascii "msgctxt ")) msg out
        ((Msg.blank n (some .ctxt)).set (nonNull p.value) .ctxt) out' :=
      PoField.runs p (by decide) (by decide) hp rfl rfl
        fun tmp => (readKeyword_msgctxt _ _).trans (hclose .ctxt (Or.inl rfl) tmp)
    have hsecond : Runs w (m.id.lines (ascii "msgid "))
        ((Msg.blank n (some .ctxt)).set (nonNull p.value) .ctxt) out'
        ({ Msg.blank n (some .id) with ctxt := nonNull p.value }.set
          (nonNull m.id.value) .id) out' :=
      PoField.runs m.id (by decide) (by decide) hid rfl rfl
        fun tmp => (readKeyword_msgid _ _).trans rfl
    have hopened : m.opened n = { Msg.blank n (some .id) with ctxt := nonNull p.value }.set
        (nonNull m.id.value) .id := by
      rw [Message.opened, Message.context, hctxt]
      rfl
    rw [hopened]
    exact hfirst.append hsecond

/-- A message is read as it is, and the one before it is written. -/
theorem Message.runs (m : Message) (hw : 32 ≤ w) (hclose : Closes msg out out')
    (hforms : m.forms ≠ []) (hcount : m.forms.length ≤ 10)
    (hlen : ∀ l ∈ m.lines, l.length < 4096) : Runs w m.lines msg out m.fields out' := by
  obtain ⟨n, hopened⟩ := m.runs_opened hclose hlen
  have hbody : ∀ l ∈ m.body.lines, l.length < 4096 :=
    fun l hl => hlen l (List.mem_append_right _ (List.mem_append_right _ hl))
  rw [Message.lines, ← List.append_assoc]
  refine hopened.append ?_
  cases hm : m.body with
  | single str =>
    rw [hm] at hbody
    have hfields : m.fields = { m.opened n with
        pluralNum := 0
        val := Function.update (m.opened n).val 0 none
        cur := some (.val 0) }.set (nonNull str.value) (.val 0) := by
      have hset := @set_form (m.opened n) str.value [] rfl
      rw [Message.fields, Message.idPlural, Message.forms, hm]
      exact hset.symm
    rw [hfields]
    refine PoField.runs str (by decide) (by decide) hbody rfl ?_ fun tmp => readKeyword_msgstr _ _
    simp [Msg.get]
  | plural p strs =>
    rw [hm] at hbody
    have hstrs : m.forms = strs.map PoField.value := by rw [Message.forms, hm]
    have hp : Runs w (p.lines (ascii "msgid_plural ")) (m.opened n) out'
        ({ m.opened n with cur := some .idPlural }.set (nonNull p.value) .idPlural) out' :=
      PoField.runs p (by decide) (by decide) (fun l hl => hbody l (List.mem_append_left _ hl)) rfl
        rfl fun tmp => (readKeyword_msgid_plural _ _).trans rfl
    have hrest := @runs_formLines w
      ({ m.opened n with cur := some .idPlural }.set (nonNull p.value) .idPlural) out' hw [] strs
      (by rw [hstrs, List.length_map] at hcount; simpa using hcount)
      (fun l hl => hbody l (List.mem_append_right _ hl))
      (fun h => hforms (by rw [hstrs, h]; rfl)) rfl
    have hfields : m.fields =
        ({ m.opened n with cur := some .idPlural }.set (nonNull p.value) .idPlural).withForms
          ([] ++ strs.map PoField.value) := by
      rw [Message.fields, Message.idPlural, hstrs, hm]
      rfl
    rw [hfields]
    exact hp.append hrest

theorem Header.runs (h : Header) (hclose : Closes msg out out')
    (hlen : ∀ l ∈ h.lines, l.length < 4096) :
    Runs w h.lines msg out
      (Msg.withForms (.blank 0 none) [h.str.value]) out' := by
  obtain ⟨n, hclose⟩ := hclose
  have hid : Runs w (h.id.lines (ascii "msgid ")) msg out
      ((Msg.blank n (some .id)).set (nonNull h.id.value) .id) out' :=
    PoField.runs h.id (by decide) (by decide) (fun l hl => hlen l (List.mem_append_left _ hl)) rfl
      rfl fun tmp => (readKeyword_msgid _ _).trans (hclose .id (Or.inr rfl) tmp)
  have hblank : (Msg.blank n (some .id)).set (nonNull h.id.value) .id = .blank n (some .id) := by
    rw [h.hid]
    rfl
  rw [hblank] at hid
  have hset := @set_form (.blank n (some .id)) h.str.value [] rfl
  have hstr : Runs w (h.str.lines (ascii "msgstr ")) (.blank n (some .id)) out'
      (Msg.withForms (.blank 0 none) [h.str.value]) out' := by
    have hfields : Msg.withForms (.blank 0 none) [h.str.value] =
        { Msg.blank n (some .id) with
          pluralNum := 0
          val := Function.update (Msg.blank n (some .id)).val 0 none
          cur := some (.val 0) }.set (nonNull h.str.value) (.val 0) := hset.symm
    rw [hfields]
    refine PoField.runs h.str (by decide) (by decide)
      (fun l hl => hlen l (List.mem_append_right _ hl)) rfl ?_ fun tmp => readKeyword_msgstr _ _
    simp [Msg.get]
  exact hid.append hstr

end Reading

end NeonWrt.Luci.Po2lmo
