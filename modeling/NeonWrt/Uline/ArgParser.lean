import NeonWrt.Lib.CString

/-!
# The argument parser of the line editor module

`uc_uline_parse_args` walks over a command line with five quoting states and
collects the arguments with their positions; `uc_uline_argp_escape` writes a
string as one argument of such a line.
-/

namespace NeonWrt.Uline

open NeonWrt.Lib

/-- The quoting states of the loop. -/
inductive ArgState
  | unquoted
  | backslash
  | singleQuote
  | doubleQuote
  | doubleQuoteBackslash
  deriving DecidableEq

/-- `state_str`: what is missing at the end of the input. -/
def stateStr : ArgState → Option Bytes
  | .unquoted => none
  | .backslash => some (ascii "\\")
  | .singleQuote => some (ascii "'")
  | .doubleQuote => some (ascii "\"")
  | .doubleQuoteBackslash => some (ascii "\\\"")

/-- The arguments of one line, with the position of each. -/
structure ArgLine where
  args : List Bytes
  pos : List (ℤ × ℤ)
  deriving DecidableEq

/-- The variables of `uc_uline_parse_args`: `str` is `rest`, which starts `off`
bytes into the string; `list` and `pos_list` are `line`, and `lines` are the
lines before it. -/
structure ArgParser where
  rest : Bytes
  off : ℕ
  state : ArgState
  buf : Option Bytes
  startIdx : ℤ
  endIdx : ℤ
  lines : List ArgLine
  line : ArgLine
  deriving DecidableEq

namespace ArgParser

variable (p : ArgParser)

/-- `skip_space` -/
def skipSpace : ArgParser :=
  { p with
    rest := p.rest.dropWhile isspace
    off := p.off + (p.rest.takeWhile isspace).length }

/-- `if (start_idx < 0) start_idx = str - start;` -/
def mark : ArgParser := if p.startIdx < 0 then { p with startIdx := p.off } else p

/-- `end_idx = str - start;` -/
def setEnd : ArgParser := { p with endIdx := p.off }

/-- The next `n` bytes are read, and added to the argument unless the line is only checked. -/
def add (check : Bool) (n : ℕ) : ArgParser :=
  { p with
    rest := p.rest.drop n
    off := p.off + n
    buf := if check || p.rest.take n = [] then p.buf else some (p.buf.getD [] ++ p.rest.take n) }

/-- `next = str + strcspn(str, tok); add_str(&buf, str, next); str = next;` -/
def addUntil (check : Bool) (tok : Bytes) : ArgParser :=
  p.add check (p.rest.takeWhile (· ∉ tok)).length

/-- A quoting character is read; the argument exists even when it stays empty. -/
def enter (state : ArgState) : ArgParser :=
  { p with rest := p.rest.drop 1, off := p.off + 1, state := state, buf := some (p.buf.getD []) }

/-- A quoting character is read within an argument. -/
def leave (state : ArgState) : ArgParser :=
  { p with rest := p.rest.drop 1, off := p.off + 1, state := state }

/-- The argument read so far is finished, if there is one. -/
def finish (check : Bool) : ArgParser :=
  match p.buf with
  | none => p
  | some b =>
    { p with
      buf := none
      startIdx := -1
      line := if check then p.line else
        { args := p.line.args ++ [b], pos := p.line.pos ++ [(p.startIdx, p.endIdx)] } }

/-- The line separator starts a new line, unless the line is only checked. -/
def newLine (check : Bool) : ArgParser :=
  let p := { p with rest := p.rest.drop 1, off := p.off + 1 }
  if check then p else
    let p := p.finish check
    { p with lines := p.lines ++ [p.line], line := ⟨[], []⟩ }

end ArgParser

/-- `unquote_tok`: the characters that end a stretch of plain text; the
separator is the terminator of the array when there is none. -/
def unquoteTok (lineSep : UInt8) : Bytes :=
  ascii " \t\r\n'\"\\" ++ if lineSep = 0 then [] else [lineSep]

/-- The case `UNQUOTED` after a blank was ruled out. -/
def unquotedStep (lineSep : UInt8) (check : Bool) (p : ArgParser) : ArgParser :=
  let p := (p.mark.addUntil check (unquoteTok lineSep)).setEnd
  match p.rest with
  | [] => p
  | c :: _ =>
    if c = 39 then p.enter .singleQuote
    else if c = 34 then p.enter .doubleQuote
    else if c = 92 then p.enter .backslash
    else if lineSep ≠ 0 ∧ c = lineSep then p.newLine check
    else p

/-- The cases `BACKSLASH` and `DOUBLE_QUOTE_BACKSLASH`: the next character is
taken as it is, and a line break is dropped. -/
def backslashStep (check : Bool) (after : ArgState) (p : ArgParser) : ArgParser :=
  let p := p.mark
  let p := if p.rest.head? = some 10 then { p with rest := p.rest.drop 1, off := p.off + 1 }
    else p.add check 1
  { p with state := after }.setEnd

/-- The case `SINGLE_QUOTE`. -/
def singleQuoteStep (check : Bool) (p : ArgParser) : ArgParser :=
  let p := p.mark.addUntil check [39]
  (if p.rest.head? = some 39 then p.leave .unquoted else p).setEnd

/-- The case `DOUBLE_QUOTE`. -/
def doubleQuoteStep (check : Bool) (p : ArgParser) : ArgParser :=
  let p := p.mark.addUntil check [34, 92]
  (if p.rest.head? = some 34 then p.leave .unquoted
    else if p.rest.head? = some 92 then p.leave .doubleQuoteBackslash
    else p).setEnd

/-- One iteration of the loop. -/
def step (lineSep : UInt8) (check : Bool) (p : ArgParser) : ArgParser :=
  match p.state with
  | .unquoted =>
    if p.rest.head?.any isspace then p.skipSpace.finish check
    else unquotedStep lineSep check p
  | .backslash => backslashStep check .unquoted p
  | .doubleQuoteBackslash => backslashStep check .doubleQuote p
  | .singleQuote => singleQuoteStep check p
  | .doubleQuote => doubleQuoteStep check p

theorem mem_unquoteTok {c lineSep : UInt8} : c ∈ unquoteTok lineSep ↔
    (c = 32 ∨ c = 9 ∨ c = 13 ∨ c = 10) ∨ c = 39 ∨ c = 34 ∨ c = 92 ∨
      lineSep ≠ 0 ∧ c = lineSep := by
  have hplain : ascii " \t\r\n'\"\\" = [32, 9, 13, 10, 39, 34, 92] := by decide
  by_cases h : lineSep = 0
  · simp [unquoteTok, hplain, h, or_assoc]
  · simp [unquoteTok, hplain, h, or_assoc]

theorem isspace_of_blank {c : UInt8} (h : c = 32 ∨ c = 9 ∨ c = 13 ∨ c = 10) :
    isspace c = true := by
  rcases h with rfl | rfl | rfl | rfl <;> decide

namespace ArgParser

variable (p : ArgParser)

/-- Everything the current line holds so far, the unfinished argument included. -/
def out : Bytes := p.line.args.flatten ++ p.buf.getD []

@[simp] theorem out_mark : p.mark.out = p.out := by
  unfold mark
  split <;> rfl

@[simp] theorem rest_mark : p.mark.rest = p.rest := by
  unfold mark
  split <;> rfl

@[simp] theorem state_mark : p.mark.state = p.state := by
  unfold mark
  split <;> rfl

@[simp] theorem buf_mark : p.mark.buf = p.buf := by
  unfold mark
  split <;> rfl

@[simp] theorem line_mark : p.mark.line = p.line := by
  unfold mark
  split <;> rfl

@[simp] theorem out_setEnd : p.setEnd.out = p.out := rfl

@[simp] theorem rest_setEnd : p.setEnd.rest = p.rest := rfl

@[simp] theorem state_setEnd : p.setEnd.state = p.state := rfl

@[simp] theorem rest_skipSpace : p.skipSpace.rest = p.rest.dropWhile isspace := rfl

@[simp] theorem out_skipSpace : p.skipSpace.out = p.out := rfl

@[simp] theorem state_skipSpace : p.skipSpace.state = p.state := rfl

@[simp] theorem rest_add (check : Bool) (n : ℕ) : (p.add check n).rest = p.rest.drop n := rfl

@[simp] theorem state_add (check : Bool) (n : ℕ) : (p.add check n).state = p.state := rfl

@[simp] theorem out_add (n : ℕ) : (p.add false n).out = p.out ++ p.rest.take n := by
  by_cases h : p.rest.take n = []
  · simp [out, add, h]
  · simp [out, add, h]

@[simp] theorem state_addUntil (check : Bool) (tok : Bytes) :
    (p.addUntil check tok).state = p.state := rfl

@[simp] theorem rest_addUntil (check : Bool) (tok : Bytes) :
    (p.addUntil check tok).rest = p.rest.dropWhile (· ∉ tok) := by
  have h : (p.rest.takeWhile (· ∉ tok) ++ p.rest.dropWhile (· ∉ tok)).drop
      (p.rest.takeWhile (· ∉ tok)).length = p.rest.dropWhile (· ∉ tok) := List.drop_left
  rwa [List.takeWhile_append_dropWhile] at h

@[simp] theorem out_addUntil (tok : Bytes) :
    (p.addUntil false tok).out = p.out ++ p.rest.takeWhile (· ∉ tok) := by
  have h : (p.rest.takeWhile (· ∉ tok) ++ p.rest.dropWhile (· ∉ tok)).take
      (p.rest.takeWhile (· ∉ tok)).length = p.rest.takeWhile (· ∉ tok) := List.take_left
  rw [List.takeWhile_append_dropWhile] at h
  rw [addUntil, out_add, h]

@[simp] theorem out_enter (state : ArgState) : (p.enter state).out = p.out := rfl

@[simp] theorem rest_enter (state : ArgState) : (p.enter state).rest = p.rest.drop 1 := rfl

@[simp] theorem state_enter (state : ArgState) : (p.enter state).state = state := rfl

@[simp] theorem out_leave (state : ArgState) : (p.leave state).out = p.out := rfl

@[simp] theorem rest_leave (state : ArgState) : (p.leave state).rest = p.rest.drop 1 := rfl

@[simp] theorem state_leave (state : ArgState) : (p.leave state).state = state := rfl

@[simp] theorem rest_finish (check : Bool) : (p.finish check).rest = p.rest := by
  unfold finish
  split <;> rfl

@[simp] theorem state_finish (check : Bool) : (p.finish check).state = p.state := by
  unfold finish
  split <;> rfl

@[simp] theorem out_finish : (p.finish false).out = p.out := by
  unfold finish
  split
  · rfl
  next b hb => simp [out, hb]

@[simp] theorem rest_newLine (check : Bool) : (p.newLine check).rest = p.rest.drop 1 := by
  unfold newLine
  cases check with
  | true => rfl
  | false => exact rest_finish _ _

end ArgParser

theorem length_dropWhile_lt {α : Type*} {f : α → Bool} {c : α} (cs : List α) (h : f c = true) :
    ((c :: cs).dropWhile f).length < (c :: cs).length := by
  rw [List.dropWhile_cons_of_pos h]
  exact Nat.lt_succ_of_le (List.dropWhile_sublist f).length_le

theorem unquotedStep_lt {lineSep : UInt8} {check : Bool} {p : ArgParser} {c : UInt8} {cs : Bytes}
    (hrest : p.rest = c :: cs) (hspace : isspace c = false) :
    (unquotedStep lineSep check p).rest.length < p.rest.length := by
  have hmid : ((p.mark.addUntil check (unquoteTok lineSep)).setEnd).rest =
      (c :: cs).dropWhile (· ∉ unquoteTok lineSep) := by simp [hrest]
  have hle : ((c :: cs).dropWhile (· ∉ unquoteTok lineSep)).length ≤ (c :: cs).length :=
    (List.dropWhile_sublist _).length_le
  rw [hrest]
  unfold unquotedStep
  generalize hq : (p.mark.addUntil check (unquoteTok lineSep)).setEnd = q at hmid
  rw [← hmid] at hle
  simp only
  cases hqr : q.rest with
  | nil => simp [hqr]
  | cons d ds =>
    rw [hqr, List.length_cons] at hle
    have hdrop : (q.rest.drop 1).length < (c :: cs).length := by
      rw [hqr, List.drop_one, List.tail_cons]
      omega
    simp only
    split_ifs with h1 h2 h3 h4
    · simpa using hdrop
    · simpa using hdrop
    · simpa using hdrop
    · simpa using hdrop
    · -- The stretch ends at a blank, so it is not empty: the case began past the blanks.
      by_cases hc : c ∈ unquoteTok lineSep
      · exfalso
        have hd : d = c := by
          have := hmid.symm.trans hqr
          rw [List.dropWhile_cons_of_neg (by simpa using hc)] at this
          exact (List.cons.inj this).1.symm
        subst hd
        rcases mem_unquoteTok.mp hc with hb | hb | hb | hb | hb
        · exact absurd (isspace_of_blank hb) (by simp [hspace])
        · exact h1 hb
        · exact h2 hb
        · exact h3 hb
        · exact h4 hb
      · have := length_dropWhile_lt (f := (· ∉ unquoteTok lineSep)) cs (by simpa using hc)
        rwa [hmid]

@[simp] theorem rest_backslashStep (check : Bool) (after : ArgState) (p : ArgParser) :
    (backslashStep check after p).rest = p.rest.drop 1 := by
  unfold backslashStep
  simp only [ArgParser.rest_setEnd]
  split_ifs
  · simp
  · simp

/-- A quoted stretch shrinks the input by its text or by the character that ends it. -/
theorem quoted_lt (tok : Bytes) {c : UInt8} {cs r : Bytes}
    (hread : r = (c :: cs).dropWhile (· ∉ tok) ∧ c ∉ tok ∨
      r = ((c :: cs).dropWhile (· ∉ tok)).drop 1) : r.length < (c :: cs).length := by
  have hle : ((c :: cs).dropWhile (· ∉ tok)).length ≤ (c :: cs).length :=
    (List.dropWhile_sublist _).length_le
  rcases hread with ⟨rfl, hc⟩ | rfl
  · exact length_dropWhile_lt cs (by simpa using hc)
  · rw [List.length_drop]
    simp only [List.length_cons] at hle ⊢
    omega

theorem singleQuoteStep_lt {check : Bool} {p : ArgParser} {c : UInt8} {cs : Bytes}
    (hrest : p.rest = c :: cs) : (singleQuoteStep check p).rest.length < p.rest.length := by
  rw [hrest]
  unfold singleQuoteStep
  simp only [ArgParser.rest_setEnd, ArgParser.rest_addUntil, ArgParser.rest_mark, hrest]
  apply quoted_lt [39]
  split_ifs with h
  · exact Or.inr (by simp [hrest])
  · refine Or.inl ⟨by simp [hrest], fun hc => h ?_⟩
    rw [List.dropWhile_cons_of_neg (by simpa using hc)]
    simpa using hc

theorem doubleQuoteStep_lt {check : Bool} {p : ArgParser} {c : UInt8} {cs : Bytes}
    (hrest : p.rest = c :: cs) : (doubleQuoteStep check p).rest.length < p.rest.length := by
  rw [hrest]
  unfold doubleQuoteStep
  simp only [ArgParser.rest_setEnd, ArgParser.rest_addUntil, ArgParser.rest_mark, hrest]
  apply quoted_lt [34, 92]
  split_ifs with h1 h2
  · exact Or.inr (by simp [hrest])
  · exact Or.inr (by simp [hrest])
  · refine Or.inl ⟨by simp [hrest], fun hc => ?_⟩
    rw [List.dropWhile_cons_of_neg (by simp only [hc, not_true_eq_false, decide_false,
      Bool.false_eq_true, not_false_eq_true])] at h1 h2
    rcases List.mem_pair.mp hc with rfl | rfl
    · exact h1 rfl
    · exact h2 rfl

theorem step_lt (lineSep : UInt8) (check : Bool) {p : ArgParser} (h : p.rest ≠ []) :
    (step lineSep check p).rest.length < p.rest.length := by
  obtain ⟨c, cs, hrest⟩ := List.exists_cons_of_ne_nil h
  unfold step
  cases p.state with
  | unquoted =>
    simp only [hrest, List.head?_cons, Option.any_some]
    split_ifs with hspace
    · simpa [hrest] using length_dropWhile_lt cs hspace
    · simpa only [hrest] using unquotedStep_lt hrest (Bool.not_eq_true _ ▸ hspace)
  | backslash => simp [hrest]
  | doubleQuoteBackslash => simp [hrest]
  | singleQuote => exact singleQuoteStep_lt hrest
  | doubleQuote => exact doubleQuoteStep_lt hrest

/-- The loop of `uc_uline_parse_args`. -/
def run (lineSep : UInt8) (check : Bool) (p : ArgParser) : ArgParser :=
  if _h : p.rest = [] then p else run lineSep check (step lineSep check p)
termination_by p.rest.length
decreasing_by exact step_lt lineSep check _h

/-- `args` and `pos`: arrays of lines with a separator, flat arrays without. -/
inductive ArgList (α : Type)
  | flat (l : List α)
  | lines (l : List (List α))
  deriving DecidableEq

/-- What `argp.parse()` returns. -/
structure ParsedArgs where
  args : ArgList Bytes
  pos : ArgList (ℤ × ℤ)
  missing : Option Bytes
  deriving DecidableEq

/-- The variables before the loop; the loop ends at the first NUL of the string. -/
def start (str : Bytes) : ArgParser :=
  ArgParser.skipSpace ⟨cstr str, 0, .unquoted, none, -1, 0, [], ⟨[], []⟩⟩

/-- `argp.parse(str)` -/
def parse (lineSep : UInt8) (str : Bytes) : ParsedArgs :=
  let p := (run lineSep false (start str)).finish false
  let lines := p.lines ++ [p.line]
  { args := if lineSep = 0 then .flat p.line.args else .lines (lines.map (·.args))
    pos := if lineSep = 0 then .flat p.line.pos else .lines (lines.map (·.pos))
    missing := stateStr p.state }

/-- `argp.check(str)` -/
def check (lineSep : UInt8) (str : Bytes) : Option Bytes :=
  stateStr (run lineSep true (start str)).state

/-- The quote that `uc_uline_argp_escape` puts around the string, or another
character for none: the first character of the preference where that is a
quote, and a double quote where the string needs one. -/
def chooseRef (str : Bytes) (refArg : Option Bytes) : UInt8 :=
  let ref := (refArg.bind List.head?).getD 0
  if ref ≠ 34 ∧ ref ≠ 39 ∧ str.any (· ∈ ascii "\n\t '\"") then 34 else ref

/-- The escaped form of the chosen quote. -/
def escapedRef (ref : UInt8) : Bytes := if ref = 39 then ascii "'\\''" else ascii "\\\""

/-- The loop of `uc_uline_argp_escape`, from one quote of the string to the next. -/
def escapeBody (ref : UInt8) (str : Bytes) : Bytes :=
  match _h : str.dropWhile (· ≠ ref) with
  | [] => str
  | _ :: next => str.takeWhile (· ≠ ref) ++ escapedRef ref ++ escapeBody ref next
termination_by str.length
decreasing_by
  have := (List.dropWhile_sublist (· ≠ ref) (l := str)).length_le
  rw [_h, List.length_cons] at this
  omega

/-- `argp.escape(arg, ref)`; a preference that is no string is none. -/
def escape (arg : Bytes) (refArg : Option Bytes) : Bytes :=
  let str := cstr arg
  let ref := chooseRef str refArg
  if ref ≠ 34 ∧ ref ≠ 39 then str else ref :: escapeBody ref str ++ [ref]

end NeonWrt.Uline
