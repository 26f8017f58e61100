import NeonWrt.Lib.Run
import NeonWrt.Uline.Input

/-!
# Line buffers and their bounds

Every edit keeps the cursor within the line and the line within its buffer, with
three exceptions. A deletion moves the tail of the line together with as many
bytes behind it as are deleted, which can be more than the buffer has. A line
that is reset must have a buffer. And a line that is replaced gets no
terminator, nor room for one: it ends in a zero only if one is there already.
-/

namespace NeonWrt.Uline

open NeonWrt.Lib

/-- The cursor is within the line, and the line with its terminator within the
buffer, if there is one. -/
structure Linebuf.Ok (l : Linebuf) : Prop where
  pos_le : l.pos ≤ l.len
  updatePos_le : l.updatePos ≤ l.len
  empty : l.buf = none → l.len = 0
  terminated : ∀ b, l.buf = some b → l.len < b.length ∧ b[l.len]? = some 0

/-- A pointer to whole chunks that start with a text and its terminator, or to
nothing. -/
inductive Held : Ptr → Bytes → Prop
  | none : Held none []
  | block {text rest : Bytes} :
    (text ++ 0 :: rest).length % linebufChunk = 0 → Held (some (text ++ 0 :: rest)) text

/-- A line holds a text, with the cursor and the update position in it. -/
structure Linebuf.Holds (l : Linebuf) (text : Bytes) : Prop where
  held : Held l.buf text
  len : l.len = text.length
  pos_le : l.pos ≤ text.length
  updatePos_le : l.updatePos ≤ text.length

theorem Linebuf.Holds.ok {l : Linebuf} {text : Bytes} (h : l.Holds text) : l.Ok where
  pos_le := h.len ▸ h.pos_le
  updatePos_le := h.len ▸ h.updatePos_le
  empty hbuf := by
    have hheld := h.held
    rw [hbuf] at hheld
    cases hheld
    exact h.len
  terminated b hbuf := by
    have hheld := h.held
    rw [hbuf] at hheld
    rw [h.len]
    cases hheld
    simp

theorem Linebuf.holds_zero : Linebuf.zero.Holds [] := ⟨.none, rfl, le_rfl, le_rfl⟩

theorem Linebuf.Holds.block {l : Linebuf} {text : Bytes} (h : l.Holds text) (hbuf : l.buf ≠ none) :
    ∃ rest, l.buf = some (text ++ 0 :: rest) ∧
      (text ++ 0 :: rest).length % linebufChunk = 0 := by
  obtain ⟨hheld, -, -, -⟩ := h
  generalize l.buf = p at hheld hbuf
  cases hheld with
  | none => exact (hbuf rfl).elim
  | block hmod => exact ⟨_, rfl, hmod⟩

theorem Linebuf.Holds.buf_ne_none {l : Linebuf} {text : Bytes} (h : l.Holds text)
    (hne : text ≠ []) : l.buf ≠ none := by
  intro hbuf
  have hheld := h.held
  rw [hbuf] at hheld
  cases hheld
  exact hne rfl

section Extend

variable (fresh : ℕ → UInt8) {l : Linebuf} {n : ℕ}

theorem linebufExtend_keeps {b : Bytes} (hb : l.buf = some b) (h : n < b.length - l.len) :
    linebufExtend fresh l n = l := by
  simp only [linebufExtend, Linebuf.bufsize, hb, Option.isSome_some, Option.getD_some, true_and]
  exact if_pos h

/-- A buffer that grows has whole chunks still, and room for what is to come. -/
theorem linebufExtend_grows (h : ∀ b, l.buf = some b → b.length - l.len ≤ n)
    (hmod : l.bufsize % linebufChunk = 0) (hlen : l.len ≤ l.bufsize) :
    ∃ m, linebufExtend fresh l n = { l with buf := some (realloc fresh l.buf m) } ∧
      l.bufsize ≤ m ∧ m % linebufChunk = 0 ∧ l.len + n ≤ m := by
  have hcond : ¬ (l.buf.isSome ∧ n < l.bufsize - l.len) := by
    rintro ⟨hsome, hlt⟩
    obtain ⟨b, hb⟩ := Option.isSome_iff_exists.mp hsome
    have := h b hb
    simp only [Linebuf.bufsize, hb, Option.getD_some] at hlt
    omega
  refine ⟨_, by simp only [linebufExtend, if_neg hcond]; rfl, by omega, ?_, ?_⟩
  all_goals
    simp only [linebufChunk] at *
    omega

end Extend

section Buffer

variable (fresh : ℕ → UInt8) {l : Linebuf} {text : Bytes}

theorem Linebuf.Holds.bufsize_mod (h : l.Holds text) : l.bufsize % linebufChunk = 0 := by
  obtain ⟨hheld, -, -, -⟩ := h
  rw [Linebuf.bufsize]
  generalize l.buf = p at hheld
  cases hheld with
  | none => rfl
  | block hlen => exact hlen

/-- The line before an insertion: its buffer starts with the text, and has room. -/
theorem linebufExtend_holds (h : l.Holds text) {n : ℕ} (hn : 0 < n) :
    ∃ rest, linebufExtend fresh l n = { l with buf := some (text ++ rest) } ∧
      n ≤ rest.length ∧ (text ++ rest).length % linebufChunk = 0 := by
  have hmod := h.bufsize_mod
  have hheld := h.held
  rcases l with ⟨buf, len, pos, updatePos, prompt⟩
  obtain rfl : len = text.length := h.len
  cases hheld with
  | none =>
    obtain ⟨m, heq, -, hm, hroom⟩ := linebufExtend_grows fresh (n := n)
      (l := ⟨none, 0, pos, updatePos, prompt⟩) (fun b hb => by cases hb) hmod le_rfl
    refine ⟨realloc fresh none m, heq, ?_, ?_⟩
    · rw [length_realloc]
      simpa using hroom
    · rwa [List.nil_append, length_realloc]
  | @block _ rest hlen =>
    rcases Nat.lt_or_ge n ((text ++ 0 :: rest).length - text.length) with hlt | hge
    · refine ⟨0 :: rest, linebufExtend_keeps fresh rfl hlt, ?_, hlen⟩
      simp only [List.length_append, List.length_cons] at hlt ⊢
      omega
    · obtain ⟨m, heq, hle, hm, hroom⟩ := linebufExtend_grows fresh (n := n)
        (l := ⟨some (text ++ 0 :: rest), text.length, pos, updatePos, prompt⟩)
        (fun b hb => by cases hb; exact hge) hmod (by simp [Linebuf.bufsize])
      have hall := realloc_eq_append fresh (b := text ++ 0 :: rest) hle
      refine ⟨0 :: rest ++ (List.range (m - (text ++ 0 :: rest).length)).map fun i =>
        fresh ((text ++ 0 :: rest).length + i), ?_, ?_, ?_⟩
      · rw [heq, hall, List.append_assoc]
      · have hlen' := congrArg List.length hall
        rw [length_realloc] at hlen'
        simp only [List.length_append, List.length_cons] at hlen' hroom ⊢
        omega
      · rw [← List.append_assoc, ← hall, length_realloc]
        exact hm

/-- An insertion puts the byte at the cursor, and the cursor behind it. -/
theorem linebufInsert_holds (h : l.Holds text) (c : UInt8) :
    ∃ m, linebufInsert fresh l [c] = some m ∧
      m.Holds (text.take l.pos ++ c :: text.drop l.pos) ∧ m.pos = l.pos + 1 := by
  obtain ⟨rest, heq, hroom, hmod⟩ := linebufExtend_holds fresh h (n := 2) (by decide)
  have hpos := h.pos_le
  have htext : text = text.take l.pos ++ text.drop l.pos := (List.take_append_drop _ _).symm
  have htake : (text.take l.pos).length = l.pos := List.length_take_of_le hpos
  generalize text.take l.pos = a at htext htake
  generalize text.drop l.pos = d at htext
  subst htext
  -- `x` is where the byte goes, `y` where the tail goes, and `z` where the terminator goes
  obtain ⟨x, y, z, tail', hrest, hy⟩ : ∃ x y z tail', d ++ rest = x :: y ++ z :: tail' ∧
      y.length = d.length := by
    obtain ⟨r, r', rest', rfl⟩ : ∃ r r' rest', rest = r :: r' :: rest' := by
      rcases rest with _ | ⟨r, _ | ⟨r', rest'⟩⟩
      · simp at hroom
      · simp at hroom
      · exact ⟨r, r', rest', rfl⟩
    rcases d with _ | ⟨x, d⟩
    · exact ⟨r, [], r', rest', rfl, rfl⟩
    · exact ⟨x, d ++ [r], r', rest', by simp, by simp⟩
  have hlen : l.len = a.length + d.length := by
    rw [h.len, List.length_append]
  have hmove : ∃ w, (if 0 < l.len - l.pos then
      memmove (some (a ++ d ++ rest)) (l.pos + 1) l.pos (l.len - l.pos)
      else store (some (a ++ d ++ rest)) (l.pos + 1) [0]) =
      some (some (a ++ ([x] ++ (d ++ w :: tail')))) := by
    by_cases hd : d = []
    · subst hd
      obtain rfl : y = [] := List.length_eq_zero_iff.mp hy
      rw [if_neg (by rw [hlen]; simp [htake]), List.append_nil,
        show rest = x :: z :: tail' from hrest]
      have := store_append (a := a ++ [x]) (x := [z]) (d := [0]) (b := tail') (o := l.pos + 1)
        (by simp [htake]) rfl
      exact ⟨0, by simpa using this⟩
    · have hpos' : 0 < d.length := List.length_pos_iff.mpr hd
      rw [if_pos (by omega), memmove, List.append_assoc, fetch_append htake.symm (by omega),
        Option.bind_some, hrest]
      have := store_append (a := a ++ [x]) (x := y) (d := d) (b := z :: tail') (o := l.pos + 1)
        (by simp [htake]) hy
      exact ⟨z, by simpa using this⟩
  obtain ⟨w, hmove⟩ := hmove
  have hbyte := store_append (x := [x]) (d := [c]) (b := d ++ w :: tail') htake.symm rfl
  have hend := store_append (a := a ++ [c] ++ d) (x := [w]) (d := [0]) (b := tail')
    (o := l.len + 1) (by simp [hlen]; omega) rfl
  refine ⟨⟨some (a ++ ([c] ++ (d ++ 0 :: tail'))), l.len + 1, l.pos + 1, min l.updatePos l.pos,
    l.prompt⟩, ?_, ⟨?_, ?_, ?_, ?_⟩, rfl⟩
  · simp only [linebufInsert, List.length_cons, List.length_nil, Nat.zero_add, heq]
    rw [hmove]
    simp only [Option.bind_eq_bind, Option.bind_some, hbyte]
    simp only [List.append_assoc, List.cons_append, List.nil_append] at hend ⊢
    rw [hend]
    rfl
  · have hlen' : (a ++ d ++ rest).length = (a ++ c :: d ++ 0 :: tail').length := by
      rw [List.append_assoc, hrest]
      simp only [List.length_append, List.length_cons, hy]
      omega
    rw [hlen'] at hmod
    simpa using Held.block hmod
  · simp [hlen]
    omega
  · simp [htake]
  · simp only [List.length_append, List.length_cons, htake]
    omega

/-- A deletion takes bytes behind the cursor, and reads as many behind the line. -/
theorem linebufDelete_holds (h : l.Holds text) {n : ℕ} (hn : l.pos + n ≤ text.length)
    (hroom : l.len + n < l.bufsize) :
    ∃ m, linebufDelete l n = some m ∧
      m.Holds (text.take l.pos ++ text.drop (l.pos + n)) ∧ m.pos = l.pos := by
  have hne : l.buf ≠ none := fun hbuf => by simp [Linebuf.bufsize, hbuf] at hroom
  have htake : (text.take l.pos).length = l.pos := List.length_take_of_le h.pos_le
  have htext : text = text.take l.pos ++ ((text.drop l.pos).take n ++ text.drop (l.pos + n)) := by
    rw [← List.drop_drop, List.take_append_drop, List.take_append_drop]
  have hdel : ((text.drop l.pos).take n).length = n := by
    rw [List.length_take, List.length_drop]
    omega
  have hlen := h.len
  obtain ⟨rest, hp, hmod⟩ := h.block hne
  rw [Linebuf.bufsize, hp] at hroom
  generalize text.take l.pos = a at htext htake ⊢
  generalize (text.drop l.pos).take n = d at htext hdel
  generalize text.drop (l.pos + n) = e at htext ⊢
  subst htext
  simp only [Option.getD_some, List.length_append, List.length_cons] at hlen hroom
  -- the `n` bytes behind the terminator that are moved along
  obtain ⟨r, rest', rfl, hr⟩ : ∃ r rest', rest = r ++ rest' ∧ r.length = n :=
    ⟨rest.take n, rest.drop n, (List.take_append_drop _ _).symm, by
      rw [List.length_take]
      omega⟩
  have hfetch := fetch_append (a := a ++ d) (x := e ++ 0 :: r) (b := rest') (o := l.pos + n)
    (n := l.len - l.pos + 1) (by simp [htake, hdel]) (by simp; omega)
  have hstore := store_append (a := a) (x := d ++ (e ++ [0])) (d := e ++ 0 :: r)
    (b := r ++ rest') htake.symm (by simp; omega)
  refine ⟨⟨some (a ++ (e ++ 0 :: (r ++ (r ++ rest')))), l.len - n, l.pos,
    min l.updatePos l.pos, l.prompt⟩, ?_, ⟨?_, ?_, ?_, ?_⟩, rfl⟩
  · have hmin : min n (l.len - l.pos) = n := by
      rw [Nat.min_eq_left]
      omega
    simp only [linebufDelete, hmin, hp, memmove]
    simp only [List.append_assoc, List.cons_append, List.nil_append] at hfetch hstore ⊢
    rw [hfetch]
    simp only [Option.bind_eq_bind, Option.bind_some, hstore]
    rfl
  · have hlen' : ((a ++ (d ++ e)) ++ 0 :: (r ++ rest')).length =
        ((a ++ e) ++ 0 :: (r ++ (r ++ rest'))).length := by
      simp only [List.length_append, List.length_cons]
      omega
    rw [hlen'] at hmod
    simpa using Held.block hmod
  · simp only [List.length_append]
    omega
  · simp [htake]
  · simp only [List.length_append, htake]
    omega

theorem linebufReset_holds (h : l.Holds text) (hbuf : l.buf ≠ none) :
    ∃ m, linebufReset l = some m ∧ m.Holds [] ∧ m.pos = 0 := by
  obtain ⟨rest, hp, hmod⟩ := h.block hbuf
  obtain ⟨x, rest', hx⟩ : ∃ x rest', text ++ 0 :: rest = x :: rest' := by
    rcases text with _ | ⟨x, t⟩
    · exact ⟨0, rest, rfl⟩
    · exact ⟨x, t ++ 0 :: rest, rfl⟩
  have hstore := store_append (a := []) (x := [x]) (d := [0]) (b := rest') (o := 0) rfl rfl
  rw [hx] at hmod
  refine ⟨⟨some (0 :: rest'), 0, 0, 0, l.prompt⟩, ?_, ⟨?_, rfl, le_rfl, le_rfl⟩, rfl⟩
  · simp only [List.nil_append, List.cons_append] at hstore
    simp only [linebufReset, hp, hx, hstore, Option.bind_eq_bind, Option.bind_some]
    rfl
  · exact .block (show ([] ++ 0 :: rest').length % linebufChunk = 0 by simpa using hmod)

end Buffer

theorem lt_of_isspace {c : UInt8} (h : isspace c = true) : c < 128 := by
  simp only [isspace, Bool.or_eq_true, beq_iff_eq, Bool.and_eq_true, decide_eq_true_eq] at h
  rcases h with rfl | ⟨-, h⟩
  · decide
  · rw [UInt8.le_iff_toNat_le] at h
    exact UInt8.lt_iff_toNat_lt.mpr (lt_of_le_of_lt h (by decide))

section Motions

variable {l : Linebuf} {text : Bytes} (utf8 : Bool)

theorem Linebuf.Holds.setPos (h : l.Holds text) {q : ℕ} (hq : q ≤ text.length) :
    Linebuf.Holds { l with pos := q } text :=
  ⟨h.held, h.len, hq, h.updatePos_le⟩

/-- A line with something before or behind the cursor has a buffer. -/
theorem Linebuf.Holds.block_of_pos (h : l.Holds text) (hpos : l.pos ≠ 0 ∨ l.pos < text.length) :
    ∃ rest, l.buf = some (text ++ 0 :: rest) := by
  have hne : text ≠ [] := by
    rintro rfl
    have := h.pos_le
    simp only [List.length_nil] at this hpos
    omega
  obtain ⟨rest, hbuf, -⟩ := h.block (h.buf_ne_none hne)
  exact ⟨rest, hbuf⟩

theorem moveLeft_spec (h : l.Holds text) : ∃ q moved,
    moveLeft utf8 l = some ({ l with pos := q }, moved) ∧ q ≤ l.pos ∧ (moved = true → q < l.pos) ∧
    (moved = false → q = 0) ∧ (utf8 = true → Attached text → AtSymbol text q) := by
  by_cases hzero : l.pos = 0
  · refine ⟨0, false, ?_, by omega, nofun, fun _ => rfl,
      fun _ hatt => hatt.atSymbol_zero⟩
    rw [moveLeft, if_pos hzero, ← hzero]
  · obtain ⟨p, hp⟩ : ∃ p, l.pos = p + 1 := ⟨l.pos - 1, by omega⟩
    have hlt : p < text.length := by
      have := h.pos_le
      omega
    obtain ⟨rest, hbuf⟩ := h.block_of_pos (.inl hzero)
    rw [moveLeft, if_neg hzero, hbuf, hp]
    cases utf8 with
    | false => exact ⟨p, true, by simp, by omega, fun _ => by omega, nofun,
        nofun⟩
    | true =>
      obtain ⟨q, hq, heq, hstop⟩ := skipLeft_spec text (0 :: rest) isUtf8Cont hlt
      refine ⟨q, true, by simp [utf8MoveLeft, heq], by omega, fun _ => by omega,
        nofun, fun _ hatt => ?_⟩
      rcases hstop with rfl | hstop
      · exact hatt.atSymbol_zero
      · exact ⟨hatt, hstop⟩

theorem moveWordLeft_spec (h : l.Holds text) : ∃ q moved,
    moveWordLeft utf8 l = some ({ l with pos := q }, moved) ∧ q ≤ l.pos ∧
    (moved = false → q = 0) ∧ (utf8 = true → Attached text → AtSymbol text q) := by
  obtain ⟨q, moved, heq, hle, hlt, hzero, hsym⟩ := moveLeft_spec utf8 h
  cases moved with
  | false => exact ⟨q, false, by simp [moveWordLeft, heq], hle, hzero, hsym⟩
  | true =>
    have hq := hlt rfl
    have hpos := h.pos_le
    obtain ⟨rest, hbuf⟩ := h.block_of_pos (.inl (by omega))
    obtain ⟨r, hr, hskip, -⟩ :=
      skipLeft_spec text (0 :: rest) isspace (i := q) (by omega)
    obtain ⟨w, hw, hskip', hstop⟩ := skipLeft_spec text (0 :: rest)
      (fun c => !isspace c) (i := r) (by omega)
    have hload := load_eq_of_lt (a := text) (b := 0 :: rest) (i := w) (by omega)
    have hget : text[w]? = some text[w] := List.getElem?_eq_getElem (by omega)
    refine ⟨if isspace text[w] then w + 1 else w, true, ?_, ?_, nofun,
      fun hu hatt => ?_⟩
    · simp [moveWordLeft, heq, hbuf, hskip, hskip', hload]
    · split <;> omega
    · cases hspace : isspace text[w] with
      | true => exact hatt.atSymbol_succ hget (lt_of_isspace hspace)
      | false =>
        -- the word is skipped up to a blank or to the start of the line
        rcases hstop with rfl | hstop
        · exact hatt.atSymbol_zero
        · exact absurd (hstop _ hget) (by simp [hspace])

theorem moveRight_spec (h : l.Holds text) : ∃ q moved,
    moveRight utf8 l = some ({ l with pos := q }, moved) ∧ q ≤ text.length ∧
    (utf8 = true → AtSymbol text l.pos → AtSymbol text q) := by
  have hlen := h.len
  by_cases hend : l.len ≤ l.pos
  · exact ⟨l.pos, false, by rw [moveRight, if_pos hend], h.pos_le, fun _ hsym => hsym⟩
  · rw [moveRight, if_neg hend]
    cases utf8 with
    | false => exact ⟨l.pos + 1, true, rfl, by omega, nofun⟩
    | true =>
      obtain ⟨rest, hbuf⟩ := h.block_of_pos (.inr (by omega))
      obtain ⟨q, -, hq, heq, hstop⟩ := skipWithin_spec text (0 :: rest) isUtf8Cont
        (i := l.pos + 1) (n := l.len - (l.pos + 1)) (by omega)
      refine ⟨q, true, ?_, hq, fun _ hsym => ⟨hsym.attached, hstop⟩⟩
      simp [utf8MoveRight, show l.pos ≠ l.len by omega, hbuf, heq]

theorem moveWordRight_spec (h : l.Holds text) : ∃ q moved,
    moveWordRight l = some ({ l with pos := q }, moved) ∧ q ≤ text.length ∧
    (Attached text → AtSymbol text q) := by
  have hlen := h.len
  have hpos := h.pos_le
  by_cases hend : l.pos = l.len
  · refine ⟨l.pos, false, by rw [moveWordRight, if_pos hend], hpos, fun hatt => ?_⟩
    rw [hend, hlen]
    exact hatt.atSymbol_length
  · obtain ⟨rest, hbuf⟩ := h.block_of_pos (.inr (by omega))
    obtain ⟨r, hr, hrlen, hskip, hstop, -⟩ := skipRight_spec text rest
      (fun c => !isspace c) (c := 0) (i := l.pos) (n := l.len - l.pos) (by omega)
    obtain ⟨w, hw, hwlen, hskip', hstop', hprev⟩ := skipRight_spec text rest isspace
      (c := 0) (i := r) (n := l.len - r) (by omega)
    refine ⟨w, true, by simp [moveWordRight, hend, hbuf, hskip, hskip'], hwlen, fun hatt => ?_⟩
    rcases Nat.lt_or_ge r w with hlt | hge
    · obtain ⟨d, hd, hspace⟩ := hprev hlt
      have := hatt.atSymbol_succ hd (lt_of_isspace hspace)
      rwa [Nat.sub_add_cancel (by omega)] at this
    · -- no blank follows the word, so the line ends there
      obtain rfl : w = r := by omega
      rcases Nat.lt_or_ge w text.length with hlt | hlast
      · have hget : text[w]? = some text[w] := List.getElem?_eq_getElem hlt
        exact absurd (hstop _ hget) (by simp [hstop' _ hget])
      · rw [show w = text.length by omega]
        exact hatt.atSymbol_length

end Motions

section Deletions

variable {l : Linebuf} {text : Bytes} (utf8 : Bool)

/-- The buffer has room for what a deletion reads. -/
def DeleteSafe (l : Linebuf) : Prop :=
  l.pos ≠ l.len → ∀ n, symbolLen utf8 l = some n → l.len + n < l.bufsize

theorem symbolLen_spec (h : l.Holds text) (hpos : l.pos ≠ l.len) : ∃ n,
    symbolLen utf8 l = some n ∧ l.pos + n ≤ text.length ∧
    (utf8 = true → Attached text → AtSymbol text (l.pos + n)) := by
  have hlen := h.len
  have hle := h.pos_le
  cases utf8 with
  | false => exact ⟨1, rfl, by omega, nofun⟩
  | true =>
    obtain ⟨rest, hbuf⟩ := h.block_of_pos (.inr (by omega))
    obtain ⟨q, hq, hqlen, heq, hstop⟩ := skipWithin_spec text (0 :: rest) isUtf8Cont
      (i := l.pos + 1) (n := l.len - (l.pos + 1)) (by omega)
    refine ⟨q - l.pos, ?_, by omega, fun _ hatt => ?_⟩
    · simp [symbolLen, utf8MoveRight, hpos, hbuf, heq]
    · rw [Nat.add_sub_cancel' (by omega)]
      exact ⟨hatt, hstop⟩

theorem deleteSymbol_spec (h : l.Holds text) (hsafe : DeleteSafe utf8 l) : ∃ m changed text',
    deleteSymbol utf8 l = some (m, changed) ∧ m.Holds text' ∧
    (utf8 = true → AtSymbol text l.pos → AtSymbol text' m.pos) := by
  by_cases hpos : l.pos = l.len
  · exact ⟨l, false, text, by rw [deleteSymbol, if_pos hpos], h, fun _ hsym => hsym⟩
  · obtain ⟨n, heq, hn, hsym⟩ := symbolLen_spec utf8 h hpos
    obtain ⟨m, hdel, hm, hmpos⟩ := linebufDelete_holds h hn (hsafe hpos n heq)
    refine ⟨m, true, _, by simp [deleteSymbol, hpos, heq, hdel], hm, fun hu hat => ?_⟩
    rw [hmpos]
    exact (hsym hu hat.attached).delete h.pos_le

theorem backspace_spec (h : l.Holds text)
    (hsafe : ∀ m, moveLeft utf8 l = some (m, true) → DeleteSafe utf8 m) : ∃ m changed text',
    backspace utf8 l = some (m, changed) ∧ m.Holds text' ∧
    (utf8 = true → AtSymbol text l.pos → AtSymbol text' m.pos) := by
  obtain ⟨q, moved, heq, hle, -, -, hsym⟩ := moveLeft_spec utf8 h
  have hq := h.setPos (hle.trans h.pos_le)
  cases moved with
  | false =>
    exact ⟨_, false, text, by simp [backspace, heq], hq, fun hu hat => hsym hu hat.attached⟩
  | true =>
    obtain ⟨m, changed, text', hdel, hm, hsym'⟩ := deleteSymbol_spec utf8 hq (hsafe _ heq)
    exact ⟨m, true, text', by simp [backspace, heq, hdel], hm,
      fun hu hat => hsym' hu (hsym hu hat.attached)⟩

/-- The buffer has room for what the deletion of a word reads. -/
def BackwordSafe (l : Linebuf) : Prop :=
  ∀ m, moveWordLeft utf8 l = some (m, true) → m.len + (l.pos - m.pos) < m.bufsize

theorem processBackword_spec (h : l.Holds text) (hsafe : BackwordSafe utf8 l) :
    ∃ m changed text', processBackword utf8 l = some (m, changed) ∧ m.Holds text' ∧
    (utf8 = true → AtSymbol text l.pos → AtSymbol text' m.pos) := by
  obtain ⟨q, moved, heq, hle, -, hsym⟩ := moveWordLeft_spec utf8 h
  have hpos := h.pos_le
  have hq := h.setPos (hle.trans hpos)
  cases moved with
  | false =>
    exact ⟨_, false, text, by simp [processBackword, heq], hq, fun hu hat => hsym hu hat.attached⟩
  | true =>
    obtain ⟨m, hdel, hm, hmpos⟩ := linebufDelete_holds hq (n := l.pos - q)
      (show q + (l.pos - q) ≤ text.length by omega) (hsafe _ heq)
    refine ⟨m, true, _, by simp [processBackword, heq, hdel], hm, fun hu hat => ?_⟩
    rw [hmpos]
    refine AtSymbol.delete ?_ (hle.trans hpos)
    rwa [show q + (l.pos - q) = l.pos by omega]

end Deletions

section Edits

variable {l : Linebuf} {text : Bytes} (fresh : ℕ → UInt8) {utf8 : Bool}

/-- When an edit stays within the buffer. -/
def Edit.Safe (utf8 : Bool) (l : Linebuf) : Edit → Prop
  | .delete => DeleteSafe utf8 l
  | .backspace => ∀ m, Uline.moveLeft utf8 l = some (m, true) → DeleteSafe utf8 m
  | .backword => BackwordSafe utf8 l
  | .reset => l.buf ≠ none
  | _ => True

/-- When an edit keeps symbols whole: a continuation byte is put behind a byte of
its symbol. -/
def Edit.Whole (l : Linebuf) : Edit → Prop
  | .insert c => isUtf8Cont c = true → ∃ j d, l.pos = j + 1 ∧ load l.buf j = some d ∧ 128 ≤ d
  | _ => True

theorem Edit.run_holds (h : l.Holds text) (e : Edit) (hsafe : e.Safe utf8 l) :
    ∃ m changed text', e.run fresh utf8 l = some (m, changed) ∧ m.Holds text' ∧
    (utf8 = true → e.Whole l → AtSymbol text l.pos → AtSymbol text' m.pos) := by
  cases e with
  | insert c =>
    obtain ⟨m, heq, hm, hpos⟩ := linebufInsert_holds fresh h c
    refine ⟨m, true, _, by simp [Edit.run, heq], hm, fun _ hwhole hat => ?_⟩
    rw [hpos]
    refine hat.insert h.pos_le fun hcont => ?_
    obtain ⟨j, d, hj, hd, hge⟩ := hwhole hcont
    have hlt : j < text.length := by
      have := h.pos_le
      omega
    obtain ⟨rest, hbuf⟩ := h.block_of_pos (.inl (by omega))
    rw [hbuf, load_eq_of_lt hlt] at hd
    exact ⟨j, d, hj, by rw [List.getElem?_eq_getElem hlt, hd], hge⟩
  | moveLeft =>
    obtain ⟨q, moved, heq, hle, -, -, hsym⟩ := moveLeft_spec utf8 h
    exact ⟨_, moved, text, heq, h.setPos (hle.trans h.pos_le), fun hu _ hat => hsym hu hat.attached⟩
  | moveWordLeft =>
    obtain ⟨q, moved, heq, hle, -, hsym⟩ := moveWordLeft_spec utf8 h
    exact ⟨_, moved, text, heq, h.setPos (hle.trans h.pos_le), fun hu _ hat => hsym hu hat.attached⟩
  | moveRight =>
    obtain ⟨q, moved, heq, hle, hsym⟩ := moveRight_spec utf8 h
    exact ⟨_, moved, text, heq, h.setPos hle, fun hu _ hat => hsym hu hat⟩
  | moveWordRight =>
    obtain ⟨q, moved, heq, hle, hsym⟩ := moveWordRight_spec h
    exact ⟨_, moved, text, heq, h.setPos hle, fun _ _ hat => hsym hat.attached⟩
  | home =>
    exact ⟨_, true, text, rfl, h.setPos (Nat.zero_le _), fun _ _ hat => hat.attached.atSymbol_zero⟩
  | lineEnd =>
    refine ⟨_, true, text, rfl, h.setPos h.len.le, fun _ _ hat => ?_⟩
    rw [h.len]
    exact hat.attached.atSymbol_length
  | delete =>
    obtain ⟨m, changed, text', heq, hm, hsym⟩ := deleteSymbol_spec utf8 h hsafe
    exact ⟨m, changed, text', heq, hm, fun hu _ => hsym hu⟩
  | backspace =>
    obtain ⟨m, changed, text', heq, hm, hsym⟩ := backspace_spec utf8 h hsafe
    exact ⟨m, changed, text', heq, hm, fun hu _ => hsym hu⟩
  | backword =>
    obtain ⟨m, changed, text', heq, hm, hsym⟩ := processBackword_spec utf8 h hsafe
    exact ⟨m, changed, text', heq, hm, fun hu _ => hsym hu⟩
  | reset =>
    obtain ⟨m, heq, hm, hpos⟩ := linebufReset_holds h hsafe
    refine ⟨m, true, [], by simp [Edit.run, heq], hm, fun _ _ _ => ?_⟩
    rw [hpos]
    exact attached_nil.atSymbol_zero

end Edits

section Replacement

variable {l : Linebuf} {text str : Bytes} {fresh : ℕ → UInt8}

/-- A replaced line ends in a zero: one that is in the buffer already, behind
room for the line, or one among the bytes that the buffer grows by. -/
def Linebuf.Fits (l : Linebuf) (fresh : ℕ → UInt8) (n : ℕ) : Prop :=
  (∃ b, l.buf = some b ∧ b[n]? = some 0) ∨
  (l.bufsize ≤ n ∧ n % linebufChunk ≠ 0 ∧ fresh n = 0)

theorem commonPrefix_spec {b : Bytes} (str : Bytes) {i n : ℕ} (hb : i + n ≤ b.length) (hs : i + n ≤ str.length) :
    ∃ j ≤ i + n, commonPrefix (some b) str i n = some j := by
  induction n generalizing i with
  | zero => exact ⟨i, le_rfl, rfl⟩
  | succ n ih =>
    obtain ⟨j, hj, heq⟩ := ih (i := i + 1) (by omega) (by omega)
    have hc : load (some b) i = some b[i] := List.getElem?_eq_getElem (by omega)
    have hd : load (some str) i = some str[i] := List.getElem?_eq_getElem (by omega)
    by_cases hcd : b[i] = str[i]
    · exact ⟨j, by omega, by simp [commonPrefix, hc, hd, hcd, heq]⟩
    · exact ⟨i, by omega, by simp [commonPrefix, hc, hd, hcd]⟩

/-- The buffer before a line is replaced by one that fits. -/
theorem linebufExtend_fits (h : l.Holds text) {n : ℕ} (hfits : l.Fits fresh n) :
    ∃ x rest, linebufExtend fresh { l with len := 0 } n =
        { l with len := 0, buf := some (x ++ 0 :: rest) } ∧
      x.length = n ∧ (x ++ 0 :: rest).length % linebufChunk = 0 ∧
      text.length ≤ (x ++ 0 :: rest).length := by
  -- any block with a zero at `n` is of this form
  have hsplit : ∀ b : Bytes, b[n]? = some 0 →
      b = b.take n ++ 0 :: b.drop (n + 1) ∧ (b.take n).length = n := by
    intro b hb
    obtain ⟨hlt, hget⟩ := List.getElem?_eq_some_iff.mp hb
    refine ⟨?_, List.length_take_of_le hlt.le⟩
    rw [← hget, List.getElem_cons_drop, List.take_append_drop]
  have hsize : text.length ≤ l.bufsize := by
    have := h.held
    rw [Linebuf.bufsize]
    generalize l.buf = p at this
    cases this <;> simp
  rcases hfits with ⟨b, hb, hzero⟩ | ⟨hle, hmod, hfresh⟩
  · obtain ⟨hsplitb, hlen⟩ := hsplit b hzero
    have hkeep := linebufExtend_keeps fresh (l := { l with len := 0 }) (n := n) hb
      (by have := (List.getElem?_eq_some_iff.mp hzero).1; simpa using this)
    refine ⟨b.take n, b.drop (n + 1), ?_, hlen, ?_, ?_⟩
    · rw [hkeep, ← hsplitb, ← hb]
    · rw [← hsplitb]
      simpa [Linebuf.bufsize, hb] using h.bufsize_mod
    · rw [← hsplitb]
      simpa [Linebuf.bufsize, hb] using hsize
  · obtain ⟨m, heq, hlem, hmodm, hroom⟩ := linebufExtend_grows fresh
      (l := { l with len := 0 }) (n := n)
      (fun b hb => by simp only [Linebuf.bufsize, show l.buf = some b from hb] at hle; simpa using hle)
      h.bufsize_mod (Nat.zero_le _)
    have hlt : n < m := by
      simp only [linebufChunk, Nat.zero_add] at hmod hmodm hroom
      omega
    have hzero : (realloc fresh l.buf m)[n]? = some 0 := by
      rw [realloc_getElem? fresh hle hlt, hfresh]
    obtain ⟨hsplitb, hlen⟩ := hsplit _ hzero
    refine ⟨_, _, by rw [heq, ← hsplitb], hlen, ?_, ?_⟩
    · rwa [← hsplitb, length_realloc]
    · rw [← hsplitb, length_realloc]
      exact hsize.trans hlem

theorem ulineSetLine_holds (h : l.Holds text) (utf8 : Bool) (hfits : l.Fits fresh str.length) :
    ∃ m, ulineSetLine fresh utf8 l str = some m ∧ m.Holds str ∧ m.pos = min l.pos str.length := by
  obtain ⟨x, rest, heq, hx, hmod, hlen⟩ := linebufExtend_fits h hfits
  have hprev := h.len
  obtain ⟨i, hi, hprefix⟩ := commonPrefix_spec (b := x ++ 0 :: rest) str (i := 0)
    (n := min l.len str.length) (by omega) (by omega)
  obtain ⟨j, hj, hback⟩ : ∃ j ≤ i, (if utf8 then skipLeft (some (str ++ [0])) isUtf8Cont i
      else some i) = some j := by
    cases utf8 with
    | false => exact ⟨i, le_rfl, rfl⟩
    | true =>
      obtain ⟨j, hj, hskip, -⟩ := skipLeft_spec (str ++ [0]) [] isUtf8Cont
        (i := i) (by simp; omega)
      rw [List.append_nil] at hskip
      exact ⟨j, hj, hskip⟩
  have hstore := store_append (a := []) (x := x) (d := str) (b := 0 :: rest) (o := 0) rfl hx
  refine ⟨⟨some (str ++ 0 :: rest), str.length, min l.pos str.length, j, l.prompt⟩, ?_,
    ⟨?_, rfl, Nat.min_le_right _ _, ?_⟩, rfl⟩
  · simp only [ulineSetLine, heq, hprefix, Option.bind_eq_bind, Option.bind_some]
    rw [if_neg (show ¬ l.len < i by omega), hback]
    simp only [List.nil_append] at hstore
    simp only [Option.bind_some, hstore]
    rfl
  · refine .block ?_
    rwa [List.length_append, ← hx, ← List.length_append]
  · show j ≤ str.length
    omega

end Replacement

end NeonWrt.Uline
