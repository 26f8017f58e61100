import NeonWrt.Lib.CString
import NeonWrt.Uline.Position

/-!
# Where a string leaves the cursor

`pos_add_string` of `uline.c` follows the cursor through a string that is written to the
terminal: line by line, and in a line from one escape sequence to the next. The text in between
moves the cursor by its symbols, which the conversion functions of the C library, or their
copies in `utf8.c`, tell apart.
-/

namespace NeonWrt.Uline

open NeonWrt.Lib

/-- `mbtowc`, its result and the symbol, and `wcwidth`. Depending on `USE_SYSTEM_WCHAR` they are
those of the C library. -/
structure Multibyte where
  mbtowc : Bytes → ℤ × ℕ
  wcwidth : ℕ → ℤ

/-- A symbol is no longer than what it is read from, and is read from its own bytes: with fewer
bytes behind it, or with more, it is the same one. -/
structure Multibyte.Lawful (m : Multibyte) : Prop where
  le_length : ∀ str, (m.mbtowc str).1 ≤ str.length
  shorten : ∀ str (n : ℕ), 0 < (m.mbtowc str).1 → (m.mbtowc str).1 ≤ n →
    m.mbtowc (str.take n) = m.mbtowc str
  extend : ∀ str (n : ℕ), 0 < (m.mbtowc (str.take n)).1 → m.mbtowc str = m.mbtowc (str.take n)

/-- What the position depends on besides the string: `s->utf8` and `s->cols`, and whether `char`
is a signed type. -/
structure Screen where
  utf8 : Bool
  charSigned : Bool
  multibyte : Multibyte
  cols : ℕ

/-- A round of `utf8_nsyms` at the beginning of `str`, in a string of length `len`: the bytes it
takes, and the symbol. -/
def symbolStep (m : Multibyte) (len : ℕ) (str : Bytes) : ℕ × ℕ :=
  let ret := (m.mbtowc str).1
  let sym := (m.mbtowc str).2
  if ret ≤ 0 then (1, 65)
  else if ret.toNat > len then (len, sym)
  else (ret.toNat, sym)

/-- What a symbol adds. -/
def symbolWidth (m : Multibyte) (sym : ℕ) : ℕ := if m.wcwidth sym < 0 then 0 else (m.wcwidth sym).toNat

/-- The loop of `utf8_nsyms`, with at most so many rounds. -/
def utf8NsymsLoop (m : Multibyte) (len : ℕ) : ℕ → Bytes → ℕ
  | 0, _ => 0
  | _ + 1, [] => 0
  | n + 1, c :: str =>
    let step := symbolStep m len (c :: str)
    symbolWidth m step.2 + utf8NsymsLoop m len n ((c :: str).drop step.1)

/-- `utf8_nsyms`; every round takes at least a byte. -/
def utf8Nsyms (m : Multibyte) (str : Bytes) : ℕ := utf8NsymsLoop m str.length str.length str

/-- `nsyms` -/
def Screen.nsyms (t : Screen) (str : Bytes) : ℕ :=
  if t.utf8 then utf8Nsyms t.multibyte str else str.length

/-- `*next <= 63` -/
def Screen.isParam (t : Screen) (c : UInt8) : Bool := c ≤ 63 || (t.charSigned && 128 ≤ c)

/-- `while (*next <= 63) next++; next++;`, if that ends in the string. -/
def Screen.skipParams (t : Screen) : Bytes → Option Bytes
  | [] => none
  | c :: rest => if t.isParam c then t.skipParams rest else some rest

/-- What follows an escape sequence, from the byte behind `KEY_ESC` on. Where the sequence goes on
behind the string, bytes are read that do not belong to it: `len` wraps, and the next `memchr`
has no end. -/
def Screen.skipEscape (t : Screen) : Bytes → Option Bytes
  | [] => none
  | c :: rest => if c = 91 ∨ c = 79 then t.skipParams rest else some rest

theorem Screen.length_skipParams (t : Screen) {str rest : Bytes} (h : t.skipParams str = some rest) :
    rest.length < str.length := by
  induction str with
  | nil => cases h
  | cons c str ih =>
    rw [skipParams] at h
    split_ifs at h
    · exact (ih h).trans (Nat.lt_succ_self _)
    · cases h
      exact Nat.lt_succ_self _

theorem Screen.length_skipEscape (t : Screen) {str rest : Bytes} (h : t.skipEscape str = some rest) :
    rest.length < str.length := by
  cases str with
  | nil => cases h
  | cons c str =>
    rw [skipEscape] at h
    split_ifs at h
    · exact (t.length_skipParams h).trans (Nat.lt_succ_self _)
    · cases h
      exact Nat.lt_succ_self _

theorem length_of_dropWhile {p : UInt8 → Bool} {str rest : Bytes} {c : UInt8}
    (h : str.dropWhile p = c :: rest) : rest.length < str.length := by
  have hle := (List.dropWhile_sublist p (l := str)).length_le
  rw [h] at hle
  exact hle

section Strings

variable (t : Screen) (ofs : Pos → ℕ → Option Pos) (newline : Pos → Pos)

/-- `__pos_add_string`, where `ofs` adds an offset. -/
def addSegment (pos : Pos) (str : Bytes) : Option Pos :=
  match _hesc : str.dropWhile (· ≠ 27) with
  | [] => ofs pos (t.nsyms str)
  | _ :: next =>
    match _hskip : t.skipEscape next with
    | none => none
    | some rest => (ofs pos (t.nsyms (str.takeWhile (· ≠ 27)))).bind fun pos => addSegment pos rest
termination_by str.length
decreasing_by exact (t.length_skipEscape _hskip).trans (length_of_dropWhile _hesc)

/-- `pos_add_string`, where `newline` goes to the next line. -/
def addString (pos : Pos) (str : Bytes) : Option Pos :=
  match _hline : str.dropWhile (· ≠ 10) with
  | [] => if str = [] then some pos else addSegment t ofs pos str
  | _ :: rest =>
    let line := str.takeWhile (· ≠ 10)
    (if line = [] then some pos else addSegment t ofs pos line).bind fun pos =>
      addString (newline pos) rest
termination_by str.length
decreasing_by exact length_of_dropWhile _hline

end Strings

/-- `pos_add_string` -/
def posAddString (t : Screen) : Pos → Bytes → Option Pos :=
  addString t (posAddOfs t.cols) posAddNewline

/-- An escape sequence: two bytes, or parameters and a last byte behind `ESC [` or `ESC O`. -/
inductive Sequence (t : Screen) : Bytes → Prop
  | short {c : UInt8} (hc : c ≠ 91 ∧ c ≠ 79 ∧ c ≠ 10) : Sequence t [27, c]
  | long {c final : UInt8} {params : Bytes} (hc : c = 91 ∨ c = 79)
      (hparams : ∀ p ∈ params, t.isParam p = true ∧ p ≠ 10) (hfinal : t.isParam final = false) :
      Sequence t (27 :: c :: (params ++ [final]))

/-- Every escape character of a string begins an escape sequence. -/
inductive Complete (t : Screen) : Bytes → Prop
  | nil : Complete t []
  | byte {c : UInt8} {str : Bytes} (hc : c ≠ 27) (h : Complete t str) : Complete t (c :: str)
  | sequence {seq str : Bytes} (hseq : Sequence t seq) (h : Complete t str) : Complete t (seq ++ str)

/-- A byte of text. -/
def isText (c : UInt8) : Bool := c ≠ 10 && c ≠ 27

/-- The length of the first symbol of a text. -/
def Screen.symbolLen (t : Screen) (text : Bytes) : ℕ :=
  if t.utf8 ∧ 0 < (t.multibyte.mbtowc text).1 then (t.multibyte.mbtowc text).1.toNat else 1

/-- The first line end, escape sequence or symbol of a string, and what follows it. -/
inductive Chunk (t : Screen) : Bytes → Bytes → Prop
  | newline {after : Bytes} : Chunk t [10] after
  | escape {seq after : Bytes} (hseq : Sequence t seq) : Chunk t seq after
  | symbol {s after : Bytes} (hne : s ≠ []) (htext : ∀ c ∈ s, isText c = true)
      (hlen : t.symbolLen (s ++ after.takeWhile isText) = s.length) : Chunk t s after

/-- A string as a list of these. -/
def Screen.Reads (t : Screen) : List Bytes → Prop
  | [] => True
  | s :: ss => Chunk t s ss.flatten ∧ t.Reads ss

/-- The position that is so many symbols further, without bounds. -/
def Pos.advance (cols : ℕ) (pos : Pos) (n : ℕ) : Pos :=
  ⟨(pos.x + n) % cols, pos.y + (pos.x + n) / cols⟩

/-- The beginning of the next line. -/
def Pos.nextLine (pos : Pos) : Pos := ⟨0, pos.y + 1⟩

/-- Where a line end, an escape sequence or a symbol takes the cursor. -/
def Screen.move (t : Screen) (pos : Pos) (s : Bytes) : Pos :=
  if s = [10] then pos.nextLine
  else if s.head? = some 27 then pos
  else pos.advance t.cols (t.nsyms s)

/-- What the redraw relies on: the string is followed to its end, its escape sequences move nothing
and its symbols and lines move the cursor one after the other, and it can be followed in two
parts. -/
def Tracks (t : Screen) (pos : Pos) (str : Bytes) : Prop :=
  (posAddString t pos str).isSome ∧
    ∀ ss : List Bytes, ss.flatten = str → t.Reads ss →
      posAddString t pos str = some (ss.foldl t.move pos) ∧
      ∀ us vs : List Bytes, us ++ vs = ss →
        (posAddString t pos us.flatten).bind (posAddString t · vs.flatten) =
          posAddString t pos str

section Symbols

variable {m : Multibyte} {t : Screen} {str s l : Bytes}

theorem symbolStep_eq (hm : m.Lawful) {len : ℕ} (hlen : str.length ≤ len) :
    symbolStep m len str = if (m.mbtowc str).1 ≤ 0 then (1, 65)
      else ((m.mbtowc str).1.toNat, (m.mbtowc str).2) := by
  have hle := hm.le_length str
  simp only [symbolStep]
  split_ifs with hret hlong
  · rfl
  · omega
  · rfl

theorem symbolStep_pos (hm : m.Lawful) {len : ℕ} (hlen : str.length ≤ len) :
    1 ≤ (symbolStep m len str).1 := by
  rw [symbolStep_eq hm hlen]
  split_ifs
  · exact le_rfl
  · simp only
    omega

/-- With enough rounds, their number and the length of the string around do not matter. -/
theorem utf8NsymsLoop_eq (hm : m.Lawful) {len n : ℕ} (hn : str.length ≤ n) (hlen : str.length ≤ len) :
    utf8NsymsLoop m len n str = utf8Nsyms m str := by
  induction n using Nat.strong_induction_on generalizing str len with
  | h n ih =>
    cases str with
    | nil => cases n <;> rfl
    | cons c str =>
      obtain ⟨k, rfl⟩ : ∃ k, n = k + 1 := ⟨n - 1, by simp only [List.length_cons] at hn; omega⟩
      have hpos := symbolStep_pos hm (le_refl (c :: str).length)
      have hdrop : ((c :: str).drop (symbolStep m (c :: str).length (c :: str)).1).length ≤
          str.length := by
        rw [List.length_drop, List.length_cons] at *
        omega
      simp only [List.length_cons] at hn
      rw [utf8Nsyms, List.length_cons, utf8NsymsLoop, utf8NsymsLoop,
        symbolStep_eq hm hlen, ← symbolStep_eq hm (le_refl (c :: str).length), List.length_cons]
      rw [List.length_cons] at hdrop hlen
      rw [ih k (by omega) (by omega) (by omega), ih str.length (by omega) hdrop (by omega)]

theorem utf8Nsyms_eq (hm : m.Lawful) (hne : str ≠ []) :
    utf8Nsyms m str = symbolWidth m (symbolStep m str.length str).2 +
      utf8Nsyms m (str.drop (symbolStep m str.length str).1) := by
  cases str with
  | nil => exact absurd rfl hne
  | cons c str =>
    have hpos := symbolStep_pos hm (le_refl (c :: str).length)
    have hdrop : ((c :: str).drop (symbolStep m (c :: str).length (c :: str)).1).length ≤
        str.length := by
      rw [List.length_drop, List.length_cons] at *
      omega
    rw [← utf8NsymsLoop_eq hm hdrop (hdrop.trans (Nat.le_succ _))]
    rfl

theorem Screen.nsyms_append (hm : t.multibyte.Lawful) (hne : s ≠ [])
    (hlen : t.symbolLen (s ++ l) = s.length) : t.nsyms (s ++ l) = t.nsyms s + t.nsyms l := by
  unfold Screen.nsyms
  split_ifs with hutf8
  · have htake : (s ++ l).take s.length = s := List.take_left
    have hstep : symbolStep t.multibyte (s ++ l).length (s ++ l) =
        symbolStep t.multibyte s.length s ∧
          (symbolStep t.multibyte s.length s).1 = s.length := by
      rw [symbolStep_eq hm le_rfl, symbolStep_eq hm le_rfl]
      simp only [Screen.symbolLen, hutf8, true_and] at hlen
      by_cases hret : (t.multibyte.mbtowc (s ++ l)).1 ≤ 0
      · -- the byte is no symbol by itself either
        rw [if_neg (by omega)] at hlen
        have hbyte : (t.multibyte.mbtowc s).1 ≤ 0 := by
          by_contra hpos
          have hext := hm.extend (s ++ l) s.length (by rw [htake]; omega)
          rw [htake] at hext
          rw [hext] at hret
          exact hpos hret
        rw [if_pos hret, if_pos hbyte]
        exact ⟨rfl, hlen⟩
      · rw [if_pos (by omega)] at hlen
        have hshort := hm.shorten (s ++ l) s.length (by omega) (by omega)
        rw [htake] at hshort
        rw [hshort, if_neg hret]
        exact ⟨rfl, hlen⟩
    have hl : l ++ [] = l := List.append_nil l
    rw [utf8Nsyms_eq hm (by simp [hne]), utf8Nsyms_eq hm hne, hstep.1, hstep.2, List.drop_left,
      List.drop_length]
    have hnil : utf8Nsyms t.multibyte [] = 0 := rfl
    omega
  · exact List.length_append

theorem Screen.nsyms_nil (t : Screen) : t.nsyms [] = 0 := by
  unfold Screen.nsyms
  split_ifs <;> rfl

end Symbols

section Advance

variable {cols : ℕ} {pos : Pos}

theorem Pos.advance_zero (h : pos.Inside cols) : pos.advance cols 0 = pos := by
  obtain ⟨hlo, hhi⟩ := h
  rw [Pos.advance, Nat.cast_zero, add_zero, Int.emod_eq_of_lt hlo hhi,
    Int.ediv_eq_zero_of_lt hlo hhi, add_zero]

theorem Pos.advance_advance (hcols : 1 ≤ cols) (a b : ℕ) :
    (pos.advance cols a).advance cols b = pos.advance cols (a + b) := by
  have hsum : pos.x + (a + b : ℕ) = (pos.x + a) % cols + b + cols * ((pos.x + a) / cols) := by
    have := Int.emod_add_mul_ediv (pos.x + a) cols
    push_cast
    omega
  simp only [Pos.advance, Pos.mk.injEq]
  rw [hsum]
  refine ⟨(Int.add_mul_emod_self_left _ _ _).symm, ?_⟩
  rw [Int.add_mul_ediv_left _ _ (by omega)]
  omega

theorem Pos.inside_advance (hcols : 1 ≤ cols) (n : ℕ) : (pos.advance cols n).Inside cols :=
  ⟨Int.emod_nonneg _ (by omega), Int.emod_lt_of_pos _ (by omega)⟩

theorem Pos.inside_nextLine (hcols : 1 ≤ cols) : pos.nextLine.Inside cols :=
  ⟨le_rfl, by simp only [Pos.nextLine]; omega⟩

end Advance

section Escapes

variable {t : Screen} {seq rest str : Bytes}

theorem Screen.skipParams_append {params : Bytes} {final : UInt8}
    (hparams : ∀ p ∈ params, t.isParam p = true) (hfinal : t.isParam final = false) :
    t.skipParams (params ++ final :: rest) = some rest := by
  induction params with
  | nil => simp [Screen.skipParams, hfinal]
  | cons p params ih =>
    rw [List.cons_append, Screen.skipParams, if_pos (hparams p List.mem_cons_self)]
    exact ih fun q hq => hparams q (List.mem_cons_of_mem _ hq)

/-- The parameters that were skipped, and the last byte. -/
theorem Screen.of_skipParams (h : t.skipParams str = some rest) :
    ∃ params final, str = params ++ final :: rest ∧ (∀ p ∈ params, t.isParam p = true) ∧
      t.isParam final = false := by
  induction str with
  | nil => cases h
  | cons c str ih =>
    rw [Screen.skipParams] at h
    split_ifs at h with hc
    · obtain ⟨params, final, rfl, hparams, hfinal⟩ := ih h
      refine ⟨c :: params, final, rfl, fun p hp => ?_, hfinal⟩
      rcases List.mem_cons.mp hp with rfl | hp
      · exact hc
      · exact hparams p hp
    · cases h
      exact ⟨[], c, rfl, nofun, by simpa using hc⟩

theorem Sequence.skipEscape (h : Sequence t seq) (rest : Bytes) :
    ∃ e, seq = 27 :: e ∧ t.skipEscape (e ++ rest) = some rest := by
  cases h with
  | @short c hc =>
    exact ⟨[c], rfl, if_neg (by simp [hc.1, hc.2.1])⟩
  | @long c final params hc hparams hfinal =>
    refine ⟨c :: (params ++ [final]), rfl, ?_⟩
    rw [List.cons_append, List.append_assoc, Screen.skipEscape, if_pos hc]
    exact Screen.skipParams_append (fun p hp => (hparams p hp).1) hfinal

/-- What is skipped in a line is a sequence. -/
theorem sequence_of_skipEscape (h : t.skipEscape str = some rest) (hline : ∀ c ∈ str, c ≠ 10) :
    ∃ e, str = e ++ rest ∧ Sequence t (27 :: e) := by
  cases str with
  | nil => cases h
  | cons c str =>
    rw [Screen.skipEscape] at h
    split_ifs at h with hc
    · obtain ⟨params, final, rfl, hparams, hfinal⟩ := Screen.of_skipParams h
      refine ⟨c :: (params ++ [final]), by simp, .long hc (fun p hp => ⟨hparams p hp, ?_⟩) hfinal⟩
      exact hline p (by simp [hp])
    · cases h
      rw [not_or] at hc
      exact ⟨[c], rfl, .short ⟨hc.1, hc.2, hline c List.mem_cons_self⟩⟩

theorem Sequence.ne_newline (h : Sequence t seq) : ∀ c ∈ seq, c ≠ 10 := by
  have hparam : t.isParam 10 = true := by simp [Screen.isParam]
  cases h with
  | short hc =>
    intro b hb
    rcases List.mem_pair.mp hb with rfl | rfl
    · decide
    · exact hc.2.2
  | long hc hparams hfinal =>
    intro b hb
    simp only [List.mem_cons, List.mem_append, List.not_mem_nil, or_false] at hb
    rcases hb with rfl | rfl | hb | rfl
    · decide
    · rcases hc with rfl | rfl <;> decide
    · exact (hparams b hb).2
    · rintro rfl
      rw [hparam] at hfinal
      cases hfinal

end Escapes

section Scan

variable {t : Screen} {ofs : Pos → ℕ → Option Pos} {newline : Pos → Pos} {pos : Pos}
  {text next rest str : Bytes}

theorem addSegment_text (h : ∀ c ∈ text, c ≠ 27) :
    addSegment t ofs pos text = ofs pos (t.nsyms text) := by
  have hdrop : text.dropWhile (· ≠ 27) = [] := List.dropWhile_eq_nil_iff.mpr (by simpa using h)
  rw [addSegment]
  split
  · rfl
  · next heq => rw [hdrop] at heq; cases heq

theorem addSegment_escape (h : ∀ c ∈ text, c ≠ 27) :
    addSegment t ofs pos (text ++ 27 :: next) = (t.skipEscape next).bind fun rest =>
      (ofs pos (t.nsyms text)).bind fun pos => addSegment t ofs pos rest := by
  have hdrop : (text ++ 27 :: next).dropWhile (· ≠ 27) = 27 :: next := by
    rw [List.dropWhile_append_of_pos (by simpa using h)]
    rfl
  have htake : (text ++ 27 :: next).takeWhile (· ≠ 27) = text := by
    rw [List.takeWhile_append_of_pos (by simpa using h)]
    exact List.append_nil text
  rw [addSegment]
  split
  · next heq => rw [hdrop] at heq; cases heq
  · next c next' heq =>
    rw [hdrop] at heq
    cases heq
    rw [htake]
    split
    · next hskip => rw [hskip]; rfl
    · next rest' hskip => rw [hskip]; rfl

theorem addString_line (h : ∀ c ∈ text, c ≠ 10) :
    addString t ofs newline pos text =
      if text = [] then some pos else addSegment t ofs pos text := by
  have hdrop : text.dropWhile (· ≠ 10) = [] := List.dropWhile_eq_nil_iff.mpr (by simpa using h)
  rw [addString]
  split
  · rfl
  · next heq => rw [hdrop] at heq; cases heq

theorem addString_newline (h : ∀ c ∈ text, c ≠ 10) :
    addString t ofs newline pos (text ++ 10 :: rest) =
      (if text = [] then some pos else addSegment t ofs pos text).bind fun pos =>
        addString t ofs newline (newline pos) rest := by
  have hdrop : (text ++ 10 :: rest).dropWhile (· ≠ 10) = 10 :: rest := by
    rw [List.dropWhile_append_of_pos (by simpa using h)]
    rfl
  have htake : (text ++ 10 :: rest).takeWhile (· ≠ 10) = text := by
    rw [List.takeWhile_append_of_pos (by simpa using h)]
    exact List.append_nil text
  rw [addString]
  split
  · next heq => rw [hdrop] at heq; cases heq
  · next c rest' heq =>
    rw [hdrop] at heq
    cases heq
    rw [htake]

/-- A string is one line, or it has a first one. -/
theorem first_or_all (b : UInt8) (str : Bytes) : (∀ c ∈ str, c ≠ b) ∨
    ∃ front rest, str = front ++ b :: rest ∧ ∀ c ∈ front, c ≠ b := by
  by_cases h : b ∈ str
  · obtain ⟨front, rest, heq, hfront⟩ := List.eq_append_cons_of_mem h
    exact Or.inr ⟨front, rest, heq, fun c hc hcb => hfront (hcb ▸ hc)⟩
  · exact Or.inl fun c hc hcb => h (hcb ▸ hc)

end Scan

section Ideal

variable {t : Screen} {pos : Pos} {seq s l str : Bytes}

/-- Adding an offset without bounds. -/
def idealOfs (cols : ℕ) (pos : Pos) (n : ℕ) : Option Pos := some (pos.advance cols n)

/-- Following a string without bounds. -/
def idealString (t : Screen) : Pos → Bytes → Option Pos :=
  addString t (idealOfs t.cols) Pos.nextLine

theorem idealSegment_nil (hpos : pos.Inside t.cols) :
    addSegment t (idealOfs t.cols) pos [] = some pos := by
  rw [addSegment_text (by simp), t.nsyms_nil, idealOfs, Pos.advance_zero hpos]

theorem idealSegment_sequence (hpos : pos.Inside t.cols) (hseq : Sequence t seq) :
    addSegment t (idealOfs t.cols) pos (seq ++ l) = addSegment t (idealOfs t.cols) pos l := by
  obtain ⟨e, rfl, hskip⟩ := hseq.skipEscape l
  have hescape := @addSegment_escape t (idealOfs t.cols) pos [] (e ++ l) (by simp)
  rw [List.nil_append] at hescape
  rw [List.cons_append, hescape, hskip, t.nsyms_nil, idealOfs, Pos.advance_zero hpos]
  rfl

/-- The first symbol of a line moves the cursor by itself. -/
theorem idealSegment_symbol (hm : t.multibyte.Lawful) (hcols : 1 ≤ t.cols) (hne : s ≠ [])
    (htext : ∀ c ∈ s, c ≠ 27) (hlen : t.symbolLen (s ++ l.takeWhile (· ≠ 27)) = s.length) :
    addSegment t (idealOfs t.cols) pos (s ++ l) =
      addSegment t (idealOfs t.cols) (pos.advance t.cols (t.nsyms s)) l := by
  rcases first_or_all 27 l with hl | ⟨front, next, rfl, hfront⟩
  · have hall : ∀ c ∈ s ++ l, c ≠ 27 := fun c hc =>
      (List.mem_append.mp hc).elim (htext c) (hl c)
    have htake : l.takeWhile (· ≠ 27) = l := List.takeWhile_eq_self_iff.mpr (by simpa using hl)
    rw [htake] at hlen
    rw [addSegment_text hall, addSegment_text hl, Screen.nsyms_append hm hne hlen, idealOfs,
      idealOfs, Pos.advance_advance hcols]
  · have hall : ∀ c ∈ s ++ front, c ≠ 27 := fun c hc =>
      (List.mem_append.mp hc).elim (htext c) (hfront c)
    have htake : (front ++ 27 :: next).takeWhile (· ≠ 27) = front := by
      rw [List.takeWhile_append_of_pos (by simpa using hfront)]
      exact List.append_nil front
    rw [htake] at hlen
    rw [← List.append_assoc, addSegment_escape hall, addSegment_escape hfront,
      Screen.nsyms_append hm hne hlen]
    simp only [idealOfs, Option.bind_some, Pos.advance_advance hcols]

/-- A change at the front of a line is one at the front of the string. -/
theorem idealString_congr {pos' : Pos} {front : Bytes} (hpos : pos.Inside t.cols)
    (hpos' : pos'.Inside t.cols) (hfront : ∀ c ∈ front, c ≠ 10)
    (h : ∀ line, (∀ c ∈ line, c ≠ 10) → line = str.takeWhile (· ≠ 10) →
      addSegment t (idealOfs t.cols) pos (front ++ line) =
        addSegment t (idealOfs t.cols) pos' line) :
    idealString t pos (front ++ str) = idealString t pos' str := by
  have hif : ∀ {p : Pos} (line : Bytes), p.Inside t.cols →
      (if line = [] then some p else addSegment t (idealOfs t.cols) p line) =
        addSegment t (idealOfs t.cols) p line := by
    intro p line hp
    split_ifs with hline
    · rw [hline, idealSegment_nil hp]
    · rfl
  rcases first_or_all 10 str with hl | ⟨line, rest, rfl, hline⟩
  · have hall : ∀ c ∈ front ++ str, c ≠ 10 := fun c hc =>
      (List.mem_append.mp hc).elim (hfront c) (hl c)
    have htake : str.takeWhile (· ≠ 10) = str := List.takeWhile_eq_self_iff.mpr (by simpa using hl)
    rw [idealString, addString_line hall, addString_line hl, hif _ hpos, hif _ hpos',
      h str hl htake.symm]
  · have hall : ∀ c ∈ front ++ line, c ≠ 10 := fun c hc =>
      (List.mem_append.mp hc).elim (hfront c) (hline c)
    have htake : (line ++ 10 :: rest).takeWhile (· ≠ 10) = line := by
      rw [List.takeWhile_append_of_pos (by simpa using hline)]
      exact List.append_nil line
    rw [idealString, ← List.append_assoc, addString_newline hall, addString_newline hline,
      hif _ hpos, hif _ hpos', h line hline htake.symm]

theorem move_inside (hcols : 1 ≤ t.cols) (hpos : pos.Inside t.cols) (s : Bytes) :
    (t.move pos s).Inside t.cols := by
  unfold Screen.move
  split_ifs
  · exact Pos.inside_nextLine hcols
  · exact hpos
  · exact Pos.inside_advance hcols _

/-- The first line end, sequence or symbol of a string moves the cursor, and the rest follows. -/
theorem idealString_chunk (hm : t.multibyte.Lawful) (hcols : 1 ≤ t.cols)
    (hpos : pos.Inside t.cols) (h : Chunk t s str) :
    idealString t pos (s ++ str) = idealString t (t.move pos s) str := by
  have hinside := move_inside hcols hpos s
  cases h with
  | newline => exact @addString_newline t (idealOfs t.cols) Pos.nextLine pos [] str (by simp)
  | escape hseq =>
    have hmove : t.move pos s = pos := by
      obtain ⟨e, rfl, -⟩ := hseq.skipEscape []
      simp [Screen.move]
    rw [hmove]
    exact idealString_congr hpos hpos hseq.ne_newline fun line _ _ =>
      idealSegment_sequence hpos hseq
  | symbol hne htext hlen =>
    have hbyte : ∀ c ∈ s, c ≠ 10 ∧ c ≠ 27 := fun c hc => by simpa [isText] using htext c hc
    have hmove : t.move pos s = pos.advance t.cols (t.nsyms s) := by
      obtain ⟨c, r, rfl⟩ := List.exists_cons_of_ne_nil hne
      obtain ⟨h10, h27⟩ := hbyte c List.mem_cons_self
      rw [Screen.move, if_neg (by simp [h10]), if_neg (by simp [h27])]
    rw [hmove] at hinside ⊢
    refine idealString_congr hpos hinside (fun c hc => (hbyte c hc).1) fun line _ hline => ?_
    refine idealSegment_symbol hm hcols hne (fun c hc => (hbyte c hc).2) ?_
    rw [hline, List.takeWhile_takeWhile]
    convert hlen using 5 with c
    simp [isText, and_comm]

theorem idealString_reads (hm : t.multibyte.Lawful) (hcols : 1 ≤ t.cols) {ss : List Bytes}
    (hpos : pos.Inside t.cols) (h : t.Reads ss) :
    idealString t pos ss.flatten = some (ss.foldl t.move pos) := by
  induction ss generalizing pos with
  | nil =>
    rw [List.flatten_nil, idealString, addString_line (by simp)]
    rfl
  | cons s ss ih =>
    rw [List.flatten_cons, idealString_chunk hm hcols hpos h.1, ih (move_inside hcols hpos s) h.2]
    rfl

end Ideal

section Bounded

variable {t : Screen} {pos p : Pos} {str : Bytes}

/-- A sum of two columns has at most one row in it. -/
theorem Pos.advance_eq {cols n : ℕ} (hcols : 1 ≤ cols) (hpos : pos.Inside cols) :
    pos.advance cols n = if pos.x + (n % cols : ℕ) < cols then
        ⟨pos.x + (n % cols : ℕ), pos.y + (n / cols : ℕ)⟩
      else ⟨pos.x + (n % cols : ℕ) - cols, pos.y + (n / cols : ℕ) + 1⟩ := by
  obtain ⟨hx, hx'⟩ := hpos
  have hrem : n % cols < cols := Nat.mod_lt _ (by omega)
  have hsum : pos.x + n = pos.x + (n % cols : ℕ) + cols * (n / cols : ℕ) := by
    have hdiv : ((n % cols + cols * (n / cols) : ℕ) : ℤ) = n := congrArg _ (Nat.mod_add_div n cols)
    rw [Nat.cast_add, Nat.cast_mul] at hdiv
    omega
  rw [Pos.advance, hsum, Int.add_mul_emod_self_left, Int.add_mul_ediv_left _ _ (by omega)]
  split_ifs with hlt
  · rw [Int.emod_eq_of_lt (by omega) hlt, Int.ediv_eq_zero_of_lt (by omega) hlt, zero_add]
  · have hwrap : pos.x + (n % cols : ℕ) = pos.x + (n % cols : ℕ) - cols + cols * 1 := by omega
    rw [hwrap, Int.add_mul_emod_self_left, Int.add_mul_ediv_left _ _ (by omega),
      Int.emod_eq_of_lt (by omega) (by omega), Int.ediv_eq_zero_of_lt (by omega) (by omega)]
    simp only [Pos.mk.injEq]
    omega

/-- Adding an offset is exact while the row is an `int16_t`. -/
theorem posAddOfs_eq {cols n : ℕ} (hcols : 1 ≤ cols) (hmax : cols ≤ 16384)
    (hpos : pos.Inside cols) (hrow : 0 ≤ pos.y) (hfits : (pos.advance cols n).y < 32768) :
    posAddOfs cols pos n = some (pos.advance cols n) := by
  have heq := Pos.advance_eq (n := n) hcols hpos
  obtain ⟨hx, hx'⟩ := hpos
  have hrem : n % cols < cols := Nat.mod_lt _ (by omega)
  have hdiff : (n : ℤ) - (n / cols : ℕ) * cols = (n % cols : ℕ) := by
    have hdiv : ((n % cols + cols * (n / cols) : ℕ) : ℤ) = n := congrArg _ (Nat.mod_add_div n cols)
    rw [Nat.cast_add, Nat.cast_mul, mul_comm] at hdiv
    omega
  rw [posAddOfs, posConvert, if_neg (by omega), heq]
  rw [heq] at hfits
  generalize n % cols = r at hfits hrem hdiff
  generalize n / cols = q at hfits hdiff
  have hrows : (q : ℤ) < 32768 := by
    split_ifs at hfits <;> simp only at hfits <;> omega
  have hq : int16 q = q := int16_of_bounds (by omega) hrows
  have hr : int16 r = r := int16_of_bounds (by omega) (by omega)
  have hc : int16 cols = cols := int16_of_bounds (by omega) (by omega)
  have hsum : int16 (pos.x + r) = pos.x + r := int16_of_bounds (by omega) (by omega)
  simp only [hq, hdiff, hr, Option.map_some, posAdd, hsum, hc]
  by_cases hlt : pos.x + r < cols
  · simp only [if_pos hlt] at hfits ⊢
    have hy : int16 (pos.y + q) = pos.y + q := int16_of_bounds (by omega) hfits
    simp only [if_neg (show ¬ pos.x + r ≥ cols by omega), if_neg (show ¬ pos.x + r < 0 by omega),
      hy, if_neg (show ¬ pos.y + q < 0 by omega)]
  · simp only [if_neg hlt] at hfits ⊢
    have hx'' : int16 (pos.x + r - cols) = pos.x + r - cols :=
      int16_of_bounds (by omega) (by omega)
    have hy : int16 (pos.y + q) = pos.y + q := int16_of_bounds (by omega) (by omega)
    have hy' : int16 (pos.y + q + 1) = pos.y + q + 1 := int16_of_bounds (by omega) hfits
    simp only [if_pos (show pos.x + r ≥ cols by omega), hx'', hy, hy',
      if_neg (show ¬ pos.x + r - cols < 0 by omega), if_neg (show ¬ pos.y + q + 1 < 0 by omega)]

/-- What holds of the cursor between the parts of a string. -/
structure Pos.Placed (cols : ℕ) (pos : Pos) : Prop where
  inside : pos.Inside cols
  row : 0 ≤ pos.y

theorem Pos.Placed.advance {cols : ℕ} (hcols : 1 ≤ cols) (h : pos.Placed cols) (n : ℕ) :
    (pos.advance cols n).Placed cols ∧ pos.y ≤ (pos.advance cols n).y := by
  have hquot : 0 ≤ (pos.x + n) / (cols : ℤ) :=
    Int.ediv_nonneg (by have := h.inside.1; omega) (by omega)
  have hrow := h.row
  refine ⟨⟨Pos.inside_advance hcols n, ?_⟩, ?_⟩ <;> simp only [Pos.advance] <;> omega

/-- In a line, the scan goes down only, and is exact while the row fits. -/
theorem addSegment_fits (hcols : 1 ≤ t.cols) (hmax : t.cols ≤ 16384) (hpos : pos.Placed t.cols)
    (h : addSegment t (idealOfs t.cols) pos str = some p) :
    p.Placed t.cols ∧ pos.y ≤ p.y ∧
      (p.y < 32768 → addSegment t (posAddOfs t.cols) pos str = some p) := by
  induction hn : str.length using Nat.strong_induction_on generalizing str pos with
  | h n ih =>
    rcases first_or_all 27 str with hall | ⟨front, next, rfl, hfront⟩
    · rw [addSegment_text hall, idealOfs, Option.some.injEq] at h
      rw [addSegment_text hall]
      obtain ⟨hplaced, hle⟩ := hpos.advance hcols (t.nsyms str)
      rw [h] at hplaced hle
      refine ⟨hplaced, hle, fun hfits => ?_⟩
      rw [posAddOfs_eq hcols hmax hpos.inside hpos.row (by rwa [h]), h]
    · rw [addSegment_escape hfront] at h ⊢
      obtain ⟨rest, hskip, h⟩ := Option.bind_eq_some_iff.mp h
      rw [idealOfs, Option.bind_some] at h
      have hlen : rest.length < n := by
        have := t.length_skipEscape hskip
        rw [← hn, List.length_append, List.length_cons]
        omega
      obtain ⟨hplaced, hle⟩ := hpos.advance hcols (t.nsyms front)
      obtain ⟨hend, hle', heq⟩ := ih rest.length hlen hplaced h rfl
      refine ⟨hend, hle.trans hle', fun hfits => ?_⟩
      rw [hskip, Option.bind_some, posAddOfs_eq hcols hmax hpos.inside hpos.row
        (hle'.trans_lt hfits), Option.bind_some]
      exact heq hfits

theorem posAddString_of_ideal (hcols : 1 ≤ t.cols) (hmax : t.cols ≤ 16384)
    (hpos : pos.Placed t.cols) (h : idealString t pos str = some p) :
    p.Placed t.cols ∧ pos.y ≤ p.y ∧ (p.y < 32768 → posAddString t pos str = some p) := by
  have hpart : ∀ {pos p : Pos} (line : Bytes), pos.Placed t.cols →
      (if line = [] then some pos else addSegment t (idealOfs t.cols) pos line) = some p →
      p.Placed t.cols ∧ pos.y ≤ p.y ∧ (p.y < 32768 →
        (if line = [] then some pos else addSegment t (posAddOfs t.cols) pos line) = some p) := by
    intro pos p line hpos hline
    split_ifs at hline ⊢
    · cases hline
      exact ⟨hpos, le_rfl, fun _ => rfl⟩
    · exact addSegment_fits hcols hmax hpos hline
  induction hn : str.length using Nat.strong_induction_on generalizing str pos with
  | h n ih =>
    rw [posAddString]
    rw [idealString] at h
    rcases first_or_all 10 str with hall | ⟨line, rest, rfl, hline⟩
    · rw [addString_line hall] at h ⊢
      exact hpart str hpos h
    · rw [addString_newline hline] at h ⊢
      obtain ⟨mid, hmid, h⟩ := Option.bind_eq_some_iff.mp h
      obtain ⟨hplaced, hle, heq⟩ := hpart line hpos hmid
      have hnext : mid.nextLine.Placed t.cols := ⟨Pos.inside_nextLine hcols, by
        have := hplaced.row
        simp only [Pos.nextLine]
        omega⟩
      have hlen : rest.length < n := by
        rw [← hn, List.length_append, List.length_cons]
        omega
      obtain ⟨hend, hle', heq'⟩ := ih rest.length hlen hnext h rfl
      have hrow := hplaced.row
      simp only [Pos.nextLine] at hle'
      refine ⟨hend, by omega, fun hfits => ?_⟩
      have hnewline : posAddNewline mid = mid.nextLine := by
        rw [posAddNewline, Pos.nextLine, int16_of_bounds (by omega) (by omega)]
      rw [heq (by omega), Option.bind_some, hnewline]
      exact heq' hfits

end Bounded

section Completeness

variable {t : Screen} {pos : Pos} {ofs : Pos → ℕ → Option Pos} {newline : Pos → Pos}
  {front rest seq str : Bytes}

theorem Complete.text_append (hfront : ∀ c ∈ front, c ≠ 27) (h : Complete t rest) :
    Complete t (front ++ rest) := by
  induction front with
  | nil => exact h
  | cons c front ih =>
    exact .byte (hfront c List.mem_cons_self) (ih fun b hb => hfront b (List.mem_cons_of_mem _ hb))

/-- Text in front of a complete string can be taken off. -/
theorem Complete.of_text_append (hfront : ∀ c ∈ front, c ≠ 27) (h : Complete t (front ++ rest)) :
    Complete t rest := by
  induction front with
  | nil => exact h
  | cons c front ih =>
    refine ih (fun b hb => hfront b (List.mem_cons_of_mem _ hb)) ?_
    generalize hstr : c :: front ++ rest = str at h
    cases h with
    | nil => cases hstr
    | byte hc h =>
      cases hstr
      exact h
    | sequence hseq h =>
      obtain ⟨e, rfl, -⟩ := hseq.skipEscape []
      exact absurd (List.cons.inj hstr).1 (hfront c List.mem_cons_self)

/-- A complete string that begins with an escape character begins with a sequence. -/
theorem Complete.sequence_of_cons (h : Complete t (27 :: rest)) :
    ∃ e after, rest = e ++ after ∧ Sequence t (27 :: e) ∧ Complete t after := by
  generalize hstr : 27 :: rest = str at h
  cases h with
  | nil => cases hstr
  | byte hc h =>
    cases hstr
    exact absurd rfl hc
  | @sequence seq after hseq h =>
    obtain ⟨e, rfl, -⟩ := hseq.skipEscape []
    cases hstr
    exact ⟨e, after, rfl, hseq, h⟩

/-- A line that is followed to its end is complete. -/
theorem complete_of_addSegment (h : (addSegment t ofs pos str).isSome)
    (hline : ∀ c ∈ str, c ≠ 10) (hrest : Complete t rest) : Complete t (str ++ rest) := by
  induction hn : str.length using Nat.strong_induction_on generalizing str pos with
  | h n ih =>
    rcases first_or_all 27 str with hall | ⟨front, next, rfl, hfront⟩
    · exact hrest.text_append hall
    · rw [addSegment_escape hfront] at h
      obtain ⟨p, hp⟩ := Option.isSome_iff_exists.mp h
      obtain ⟨after, hskip, hmid⟩ := Option.bind_eq_some_iff.mp hp
      obtain ⟨mid, -, hend⟩ := Option.bind_eq_some_iff.mp hmid
      obtain ⟨e, rfl, hseq⟩ := sequence_of_skipEscape hskip fun c hc =>
        hline c (by simp [hc])
      have hlen : after.length < n := by
        rw [← hn]
        simp only [List.length_append, List.length_cons]
        omega
      have hafter := ih after.length hlen (Option.isSome_iff_exists.mpr ⟨p, hend⟩)
        (fun c hc => hline c (by simp [hc])) rfl
      rw [List.append_assoc]
      refine Complete.text_append hfront ?_
      have hsplit : 27 :: (e ++ after) ++ rest = (27 :: e) ++ (after ++ rest) := by simp
      rw [hsplit]
      exact .sequence hseq hafter

/-- A string that is followed to its end is complete. -/
theorem complete_of_addString (h : (addString t ofs newline pos str).isSome) : Complete t str := by
  have hpart : ∀ {pos : Pos} {line after : Bytes},
      (if line = [] then some pos else addSegment t ofs pos line).isSome →
      (∀ c ∈ line, c ≠ 10) → Complete t after → Complete t (line ++ after) := by
    intro pos line after hline hbytes hafter
    split_ifs at hline with hnil
    · rwa [hnil]
    · exact complete_of_addSegment hline hbytes hafter
  induction hn : str.length using Nat.strong_induction_on generalizing str pos with
  | h n ih =>
    rcases first_or_all 10 str with hall | ⟨line, rest, rfl, hline⟩
    · rw [addString_line hall] at h
      have hstr := hpart h hall .nil
      rwa [List.append_nil] at hstr
    · rw [addString_newline hline] at h
      obtain ⟨p, hp⟩ := Option.isSome_iff_exists.mp h
      obtain ⟨mid, hmid, hend⟩ := Option.bind_eq_some_iff.mp hp
      have hlen : rest.length < n := by
        rw [← hn, List.length_append, List.length_cons]
        omega
      exact hpart (Option.isSome_iff_exists.mpr ⟨mid, hmid⟩) hline
        (.byte (by decide) (ih rest.length hlen (Option.isSome_iff_exists.mpr ⟨p, hend⟩) rfl))

/-- The first symbol of a text is a part of it. -/
theorem symbolLen_bounds (hm : t.multibyte.Lawful) {text : Bytes} (hne : text ≠ []) :
    1 ≤ t.symbolLen text ∧ t.symbolLen text ≤ text.length := by
  have hle := hm.le_length text
  have hpos := List.length_pos_iff.mpr hne
  unfold Screen.symbolLen
  split_ifs with hret <;> omega

theorem takeWhile_drop {p : UInt8 → Bool} {k : ℕ} (h : k ≤ (str.takeWhile p).length) :
    (str.drop k).takeWhile p = (str.takeWhile p).drop k := by
  induction k generalizing str with
  | zero => rfl
  | succ k ih =>
    cases str with
    | nil => rfl
    | cons c str =>
      cases hc : p c with
      | false =>
        rw [List.takeWhile_cons_of_neg (by simp [hc])] at h
        cases h
      | true =>
        rw [List.takeWhile_cons_of_pos hc] at h ⊢
        exact ih (Nat.le_of_succ_le_succ h)

theorem ne_of_isText {c : UInt8} (h : isText c = true) : c ≠ 10 ∧ c ≠ 27 := by
  simpa [isText] using h

/-- A string that begins with text begins with a symbol. -/
theorem exists_symbol (hm : t.multibyte.Lawful) {c : UInt8} (hc : isText c = true) :
    ∃ s after, c :: str = s ++ after ∧ s ≠ [] ∧ (∀ b ∈ s, isText b = true) ∧
      t.symbolLen (s ++ after.takeWhile isText) = s.length := by
  have htext : (c :: str).takeWhile isText ≠ [] := by
    rw [List.takeWhile_cons_of_pos hc]
    exact List.cons_ne_nil _ _
  obtain ⟨hlo, hhi⟩ := symbolLen_bounds hm htext
  generalize hk : t.symbolLen ((c :: str).takeWhile isText) = k at hlo hhi
  have hs : (c :: str).take k = ((c :: str).takeWhile isText).take k := by
    conv_lhs => rw [← List.takeWhile_append_dropWhile (p := isText) (l := c :: str)]
    exact List.take_append_of_le_length hhi
  have hslen : ((c :: str).take k).length = k := by
    rw [hs, List.length_take]
    omega
  refine ⟨(c :: str).take k, (c :: str).drop k, (List.take_append_drop _ _).symm,
    List.ne_nil_of_length_pos (by omega), fun b hb => ?_, ?_⟩
  · exact List.mem_takeWhile_imp (List.mem_of_mem_take (hs ▸ hb))
  · rw [takeWhile_drop hhi, hs, List.take_append_drop, hk, ← hs, hslen]

/-- A complete string is made of line ends, sequences and symbols. -/
theorem exists_reads (hm : t.multibyte.Lawful) (h : Complete t str) :
    ∃ ss : List Bytes, ss.flatten = str ∧ t.Reads ss := by
  induction hn : str.length using Nat.strong_induction_on generalizing str with
  | h n ih =>
    cases str with
    | nil => exact ⟨[], rfl, trivial⟩
    | cons c str =>
      by_cases h27 : c = 27
      · obtain rfl := h27
        obtain ⟨e, after, rfl, hseq, hafter⟩ := h.sequence_of_cons
        have hlen : after.length < n := by
          rw [← hn]
          simp only [List.length_cons, List.length_append]
          omega
        obtain ⟨ss, rfl, hss⟩ := ih after.length hlen hafter rfl
        exact ⟨(27 :: e) :: ss, rfl, .escape hseq, hss⟩
      by_cases h10 : c = 10
      · obtain rfl := h10
        have hafter : Complete t str := @Complete.of_text_append t [10] str (by simp) h
        obtain ⟨ss, rfl, hss⟩ := ih str.length (by rw [← hn]; exact Nat.lt_succ_self _) hafter rfl
        exact ⟨[10] :: ss, rfl, .newline, hss⟩
      · have hc : isText c = true := by simp [isText, h10, h27]
        obtain ⟨s, after, heq, hne, hs, hlen⟩ := @exists_symbol t str hm c hc
        rw [heq] at h hn
        have hafter := Complete.of_text_append (fun b hb => (ne_of_isText (hs b hb)).2) h
        obtain ⟨ss, rfl, hss⟩ := ih after.length (by
          have := List.length_pos_iff.mpr hne
          rw [← hn, List.length_append]
          omega) hafter rfl
        exact ⟨s :: ss, heq.symm, .symbol hne hs hlen, hss⟩

/-- A symbol stays one when what follows it is cut off. -/
theorem symbolLen_of_append (hm : t.multibyte.Lawful) {s l u : Bytes}
    (h : t.symbolLen (s ++ (l ++ u)) = s.length) : t.symbolLen (s ++ l) = s.length := by
  have htake : (s ++ (l ++ u)).take (s ++ l).length = s ++ l := by
    rw [← List.append_assoc, List.take_left]
  unfold Screen.symbolLen at h ⊢
  cases hutf8 : t.utf8 with
  | false => simpa [hutf8] using h
  | true =>
    simp only [hutf8, true_and] at h ⊢
    by_cases hret : 0 < (t.multibyte.mbtowc (s ++ (l ++ u))).1
    · rw [if_pos hret] at h
      have hshort := hm.shorten (s ++ (l ++ u)) (s ++ l).length hret (by
        rw [List.length_append]
        omega)
      rw [htake] at hshort
      rw [hshort, if_pos hret, h]
    · rw [if_neg hret] at h
      rw [if_neg, h]
      intro hpos
      have hext := hm.extend (s ++ (l ++ u)) (s ++ l).length (by rwa [htake])
      rw [htake] at hext
      rw [hext] at hret
      exact hret hpos

/-- The first part of such a string is read the same. -/
theorem Chunk.of_append (hm : t.multibyte.Lawful) {s after : Bytes} (h : Chunk t s (after ++ rest)) :
    Chunk t s after := by
  cases h with
  | newline => exact .newline
  | escape hseq => exact .escape hseq
  | symbol hne htext hlen =>
    refine .symbol hne htext ?_
    rw [List.takeWhile_append] at hlen
    split_ifs at hlen with hall
    · have htake : after.takeWhile isText = after :=
        (List.takeWhile_prefix isText).eq_of_length hall
      rw [htake]
      exact symbolLen_of_append hm hlen
    · exact hlen

theorem Screen.Reads.of_append (hm : t.multibyte.Lawful) {us vs : List Bytes} (h : t.Reads (us ++ vs)) :
    t.Reads us ∧ t.Reads vs := by
  induction us with
  | nil => exact ⟨trivial, h⟩
  | cons s us ih =>
    obtain ⟨hchunk, hrest⟩ : Chunk t s (us ++ vs).flatten ∧ t.Reads (us ++ vs) := h
    rw [List.flatten_append] at hchunk
    exact ⟨⟨hchunk.of_append hm, (ih hrest).1⟩, (ih hrest).2⟩

end Completeness

section Tracking

variable {t : Screen} {pos : Pos} {str : Bytes}

/-- The symbols and lines of a string move the cursor one after the other. -/
theorem posAddString_eq (hm : t.multibyte.Lawful) (hcols : 1 ≤ t.cols) (hmax : t.cols ≤ 16384)
    (hpos : pos.Placed t.cols) {ss : List Bytes} (h : t.Reads ss)
    (hfits : (ss.foldl t.move pos).y < 32768) :
    posAddString t pos ss.flatten = some (ss.foldl t.move pos) :=
  (posAddString_of_ideal hcols hmax hpos (idealString_reads hm hcols hpos.inside h)).2.2 hfits

/-- Where the rows fit, `pos_add_string` reads only the string, skips its escape sequences and can
be applied to its parts, exactly if every escape sequence is complete in its line. -/
theorem tracks_iff (hm : t.multibyte.Lawful) (hcols : 1 ≤ t.cols) (hmax : t.cols ≤ 16384)
    (hpos : pos.Placed t.cols)
    (hfits : ∀ ss : List Bytes, ss.flatten = str → t.Reads ss →
      (ss.foldl t.move pos).y < 32768) :
    Tracks t pos str ↔ Complete t str := by
  constructor
  · intro h
    exact complete_of_addString h.1
  · intro h
    have hall : ∀ ss : List Bytes, ss.flatten = str → t.Reads ss →
        posAddString t pos str = some (ss.foldl t.move pos) := by
      rintro ss rfl hss
      exact posAddString_eq hm hcols hmax hpos hss (hfits ss rfl hss)
    obtain ⟨ss, hflat, hss⟩ := exists_reads hm h
    refine ⟨by rw [hall ss hflat hss]; rfl, fun ss hflat hss => ⟨hall ss hflat hss, ?_⟩⟩
    rintro us vs rfl
    obtain ⟨hus, hvs⟩ := hss.of_append hm
    have hend := hfits (us ++ vs) hflat hss
    rw [List.foldl_append] at hend
    obtain ⟨hmid, -, hfirst⟩ := posAddString_of_ideal hcols hmax hpos
      (idealString_reads hm hcols hpos.inside hus)
    obtain ⟨-, hle, hsecond⟩ := posAddString_of_ideal hcols hmax hmid
      (idealString_reads hm hcols hmid.inside hvs)
    rw [hfirst (hle.trans_lt hend), Option.bind_some, hsecond hend, hall _ hflat hss,
      List.foldl_append]

/-- The conversion of ASCII; other bytes are taken one by one. -/
def asciiMultibyte : Multibyte where
  mbtowc
    | [] => (-1, 0)
    | c :: _ => if 128 ≤ c then (-1, 0) else if c = 0 then (0, 0) else (1, c.toNat)
  wcwidth sym := if sym = 0 then 0 else if sym < 32 ∨ sym = 127 then -1 else 1

theorem lawful_asciiMultibyte : asciiMultibyte.Lawful where
  le_length str := by
    cases str with
    | nil => decide
    | cons c str =>
      simp only [asciiMultibyte, List.length_cons]
      split_ifs <;> simp only <;> omega
  shorten str n hpos hle := by
    cases str with
    | nil => rw [List.take_nil]
    | cons c str =>
      cases n with
      | zero => omega
      | succ n => rfl
  extend str n hpos := by
    cases str with
    | nil => rw [List.take_nil]
    | cons c str =>
      cases n with
      | zero => exact absurd hpos (show ¬ (0 : ℤ) < -1 by decide)
      | succ n => rfl

/-- A terminal of 80 columns in UTF-8 mode. -/
def asciiScreen : Screen := ⟨true, true, asciiMultibyte, 80⟩

theorem tracks_iff_ok : Tracks asciiScreen ⟨0, 0⟩ [111, 107] := by
  have hpos : Pos.Placed 80 ⟨0, 0⟩ := ⟨⟨le_rfl, by decide⟩, le_rfl⟩
  refine (tracks_iff lawful_asciiMultibyte (by decide) (by decide) hpos ?_).mpr
    (.byte (by decide) (.byte (by decide) .nil))
  intro ss hflat hss
  have hideal := idealString_reads lawful_asciiMultibyte (by decide) hpos.inside hss
  rw [hflat, idealString, addString_line (by simp), if_neg (by decide),
    addSegment_text (by simp)] at hideal
  rw [← Option.some.inj hideal]
  decide

/-- A lone escape character at the end: the byte behind the string is read. -/
theorem not_tracks : ¬ Tracks asciiScreen ⟨0, 0⟩ [27] := by
  intro h
  obtain ⟨e, after, heq, hseq, -⟩ := (complete_of_addString h.1).sequence_of_cons
  obtain ⟨rfl, rfl⟩ := List.append_eq_nil_iff.mp heq.symm
  cases hseq

end Tracking

end NeonWrt.Uline
