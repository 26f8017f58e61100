import NeonWrt.Uline.Bounds

/-!
# The line editor stays within its buffers

Whatever is typed, and whatever the program calls and answers in between, each
line keeps its cursor in the line and the line in its buffer, as long as no
deletion reads beyond the buffer, no line without a buffer is reset, every
replaced line ends in a zero, and the callback for cursor keys does not send a
key to a second line that it has removed. In UTF-8 mode the cursor then stays at
the start of a symbol, unless a call puts it elsewhere or a continuation byte
comes apart from its symbol.
-/

namespace NeonWrt.Uline

open NeonWrt.Lib

/-- No symbol goes on at an index of the line. -/
def Linebuf.Starts (l : Linebuf) (i : ℕ) : Prop :=
  i < l.len → ∀ c, load l.buf i = some c → isUtf8Cont c = false

namespace UlineState

variable (s : UlineState)

/-- Both lines have a property. -/
def All (P : Linebuf → Prop) : Prop := P s.line ∧ ∀ l, s.line2 = some l → P l

/-- Both lines are within bounds. -/
def Ok : Prop := s.All Linebuf.Ok

/-- Both cursors are at symbols. -/
def OnBoundary : Prop := s.All fun l => l.Starts l.pos

end UlineState

/-- An action edits a line that is there, within its buffer. -/
def Action.Safe (s : UlineState) : Action → Prop
  | .edit e second _ => ∃ l, s.target second = some l ∧ e.Safe s.utf8 l
  | _ => True

/-- An action keeps symbols whole. -/
def Action.Whole (s : UlineState) : Action → Prop
  | .edit e second _ => ∀ l, s.target second = some l → e.Whole l
  | _ => True

/-- A call replaces lines by such that fit. -/
def Api.Safe (s : UlineState) : Api → Prop
  | .setLine str fresh => s.line.Fits fresh str.length
  | .setLine2 str fresh => ∀ l, s.line2 = some l → l.Fits fresh str.length
  | _ => True

/-- A call leaves the cursors at symbols: a line that is replaced keeps its cursor. -/
def Api.Whole (s : UlineState) : Api → Prop
  | .setLine str _ => AtSymbol str (min s.line.pos str.length)
  | .setCursor pos => s.line.Starts (min pos s.line.len)
  | .setLine2 str _ => ∀ l, s.line2 = some l → AtSymbol str (min l.pos str.length)
  | .setLine2Cursor pos => ∀ l, s.line2 = some l → l.Starts (min pos l.len)
  | _ => True

/-- When an event keeps the bounds, and with `symbols` also the symbols. -/
def UlineState.Careful (symbols : Bool) (s : UlineState) : Event → Prop
  | .api a => a.Safe s ∧ (symbols = true → s.utf8 = true → a.Whole s)
  | e => ∀ t act, s.action e = some (t, act) →
    act.Safe t ∧ (symbols = true → t.utf8 = true → act.Whole t)

/-- The condition on the events of a run. -/
def Careful (symbols : Bool) (s : Option UlineState) (e : Event) : Prop :=
  ∀ u, s = some u → u.Careful symbols e

/-- A run starts with an editor that has just been initialised. -/
def Initial (s : Option UlineState) : Prop := ∃ cb utf8, s = some (.init cb utf8)

/-- One event of a run. -/
def Step (s : Option UlineState) (e : Event) (t : Option UlineState) : Prop := exec s e = some t

/-- A line holds a text, and with `symbols` its cursor is at a symbol. -/
def Linebuf.Fine (symbols : Bool) (l : Linebuf) : Prop :=
  ∃ text, l.Holds text ∧ (symbols = true → AtSymbol text l.pos)

namespace Linebuf.Fine

variable {symbols : Bool} {l : Linebuf}

theorem zero : Linebuf.zero.Fine symbols :=
  ⟨[], holds_zero, fun _ => attached_nil.atSymbol_zero⟩

theorem setPrompt (h : l.Fine symbols) (str : Bytes) :
    Linebuf.Fine symbols { l with prompt := some str } := by
  obtain ⟨text, hl, hsym⟩ := h
  exact ⟨text, ⟨hl.held, hl.len, hl.pos_le, hl.updatePos_le⟩, hsym⟩

theorem displayed (h : l.Fine symbols) : Linebuf.Fine symbols { l with updatePos := l.len } := by
  obtain ⟨text, hl, hsym⟩ := h
  exact ⟨text, ⟨hl.held, hl.len, hl.pos_le, hl.len.le⟩, hsym⟩

theorem ok (h : l.Fine symbols) : l.Ok := by
  obtain ⟨text, hl, -⟩ := h
  exact hl.ok

end Linebuf.Fine

/-- The bytes of the line are those of its text. -/
theorem Linebuf.Holds.starts_iff {l : Linebuf} {text : Bytes} (h : l.Holds text) {i : ℕ} :
    l.Starts i ↔ StopsAt text isUtf8Cont i := by
  have hload : ∀ hi : i < text.length, load l.buf i = text[i]? := fun hi => by
    obtain ⟨rest, hbuf, -⟩ := h.block (h.buf_ne_none (List.ne_nil_of_length_pos (by omega)))
    rw [hbuf, load_eq_of_lt hi, List.getElem?_eq_getElem hi]
  constructor
  · intro hstart c hc
    obtain ⟨hi, -⟩ := List.getElem?_eq_some_iff.mp hc
    exact hstart (h.len ▸ hi) c ((hload hi).trans hc)
  · intro hstop hi c hc
    exact hstop c ((hload (h.len ▸ hi)).symm.trans hc)

namespace Linebuf.Fine

variable {symbols : Bool} {l : Linebuf}

theorem starts (h : l.Fine symbols) (hs : symbols = true) : l.Starts l.pos := by
  obtain ⟨text, hl, hsym⟩ := h
  exact hl.starts_iff.mpr (hsym hs).start

theorem setCursor (h : l.Fine symbols) {pos : ℕ}
    (hpos : symbols = true → l.Starts (min pos l.len)) : (ulineSetCursor l pos).Fine symbols := by
  obtain ⟨text, hl, hsym⟩ := h
  have hle : min pos l.len ≤ text.length := hl.len ▸ Nat.min_le_right _ _
  exact ⟨text, hl.setPos hle, fun hs => ⟨(hsym hs).attached, hl.starts_iff.mp (hpos hs)⟩⟩

theorem setLine (h : l.Fine symbols) (utf8 : Bool) {fresh : ℕ → UInt8} {str : Bytes}
    (hfits : l.Fits fresh str.length)
    (hpos : symbols = true → AtSymbol str (min l.pos str.length)) :
    ∃ m, ulineSetLine fresh utf8 l str = some m ∧ m.Fine symbols := by
  obtain ⟨text, hl, -⟩ := h
  obtain ⟨m, heq, hm, hmpos⟩ := ulineSetLine_holds hl utf8 hfits
  exact ⟨m, heq, str, hm, fun hs => hmpos ▸ hpos hs⟩

theorem run {b utf8 : Bool} (h : l.Fine (b && utf8)) (fresh : ℕ → UInt8) {e : Edit}
    (hsafe : e.Safe utf8 l) (hwhole : b = true → utf8 = true → e.Whole l) :
    ∃ m changed, e.run fresh utf8 l = some (m, changed) ∧ m.Fine (b && utf8) := by
  obtain ⟨text, hl, hsym⟩ := h
  obtain ⟨m, changed, text', heq, hm, hsym'⟩ := Edit.run_holds fresh hl e hsafe
  refine ⟨m, changed, heq, text', hm, fun hs => ?_⟩
  have hboth := Bool.and_eq_true_iff.mp hs
  exact hsym' hboth.2 (hwhole hboth.1 hboth.2) (hsym hs)

end Linebuf.Fine

/-- The invariant: both lines hold texts, and with `symbols` the cursors are at
symbols in UTF-8 mode. -/
def UlineState.Kept (symbols : Bool) (s : UlineState) : Prop :=
  s.All (Linebuf.Fine (symbols && s.utf8))

/-- Processing an input touches no line; it may free the second one. -/
structure Same (s t : UlineState) : Prop where
  utf8 : t.utf8 = s.utf8
  line : t.line = s.line
  line2 : t.line2 = s.line2 ∨ t.line2 = none

namespace Same

variable {s t u : UlineState}

theorem refl (s : UlineState) : Same s s := ⟨rfl, rfl, .inl rfl⟩

theorem trans (h : Same s t) (h' : Same t u) : Same s u where
  utf8 := h'.utf8.trans h.utf8
  line := h'.line.trans h.line
  line2 := by
    rcases h'.line2 with heq | hnone
    · rw [heq]
      exact h.line2
    · exact .inr hnone

theorem kept {symbols : Bool} (h : Same s t) (hs : s.Kept symbols) : t.Kept symbols := by
  obtain ⟨hline, hline2⟩ := hs
  refine ⟨by rw [h.utf8, h.line]; exact hline, fun l hl => ?_⟩
  rcases h.line2 with heq | hnone
  · rw [h.utf8]
    exact hline2 l (heq ▸ hl)
  · rw [hnone] at hl
    cases hl

variable (s)

theorem handleUtf8 (c : UInt8) : Same s (handleUtf8 s c).1 := by
  unfold Uline.handleUtf8
  split_ifs <;> exact ⟨rfl, rfl, .inl rfl⟩

theorem escAction (esc : Esc) (second : Bool) : Same s (escAction s esc second).1 := by
  unfold Uline.escAction
  split
  case h_5 => split <;> exact ⟨rfl, rfl, .inl rfl⟩
  all_goals exact refl s

theorem processEsc (esc : Esc) : Same s (processEsc s esc).1 := by
  unfold Uline.processEsc
  split
  · exact refl s
  · exact escAction s esc _

theorem resetAction : Same s (resetAction s).1 := by
  unfold Uline.resetAction
  split <;> exact refl s

theorem lineAction : Same s (lineAction s).1 := ⟨rfl, rfl, .inr rfl⟩

theorem processNewline (drop : Bool) : Same s (processNewline s drop).1 := by
  unfold Uline.processNewline
  split
  · exact resetAction s
  · split
    · exact refl s
    · exact lineAction s

theorem processCtrl (c : UInt8) : Same s (processCtrl s c).1 := by
  unfold Uline.processCtrl
  split
  case h_1 | h_2 => exact processNewline s false
  case h_4 => split <;> exact refl s
  case h_9 | h_10 => exact processEsc s _
  case h_12 => exact ⟨rfl, rfl, .inl rfl⟩
  all_goals exact refl s

theorem keyAction (c : UInt8) : Same s (keyAction s c).1 := by
  unfold Uline.keyAction
  split
  · exact processCtrl s c
  · exact handleUtf8 s c

theorem processChar (c : UInt8) : Same s (processChar s c).1 := by
  unfold Uline.processChar
  split
  · dsimp only
    split
    · exact ⟨rfl, rfl, .inl rfl⟩
    · exact trans (t := { s with escSeq := none }) ⟨rfl, rfl, .inl rfl⟩ (processEsc _ _)
  · split
    · exact refl s
    · exact keyAction s c

theorem resume (w : Waiting) (ret : Bool) : Same s (resume s w ret).1 := by
  cases w with
  | keyInput c =>
    cases ret with
    | true => exact refl s
    | false => exact keyAction s c
  | line2Cursor esc => exact escAction s esc ret
  | line2Update | event | eof => exact ⟨rfl, rfl, .inl rfl⟩
  | line2Newline =>
    cases ret with
    | true => exact refl s
    | false => exact lineAction s
  | line =>
    cases ret with
    | true => exact resetAction s
    | false => exact refl s
  | interrupt =>
    exact trans (t := { s with stop := true }) ⟨rfl, rfl, .inl rfl⟩ (processNewline _ true)

/-- The state in which the action of an event is done. -/
theorem action {s t : UlineState} {e : Event} {act : Action} (h : s.action e = some (t, act)) :
    Same s t := by
  cases e with
  | poll =>
    simp only [UlineState.action] at h
    split at h
    · cases h
      exact ⟨rfl, rfl, .inl rfl⟩
    · cases h
  | input c fresh =>
    simp only [UlineState.action] at h
    split at h
    · have := processChar s c
      rwa [Option.some.inj h] at this
    · cases h
  | ret result fresh =>
    obtain ⟨w, -, hw⟩ := Option.map_eq_some_iff.mp h
    have := resume { s with waiting := none } w result
    rw [hw] at this
    exact trans (t := { s with waiting := none }) ⟨rfl, rfl, .inl rfl⟩ this
  | api a => cases h

end Same

namespace UlineState.Kept

variable {symbols : Bool} {s : UlineState}

theorem initial (cb : Callbacks) (utf8 : Bool) : Kept symbols (.init cb utf8) :=
  ⟨.zero, nofun⟩

theorem displayUpdate (h : s.Kept symbols) : s.displayUpdate.Kept symbols := by
  refine ⟨h.1.displayed, fun l hl => ?_⟩
  obtain ⟨m, hm, rfl⟩ := Option.map_eq_some_iff.mp hl
  exact (h.2 m hm).displayed

theorem output (h : s.Kept symbols) : s.output.Kept symbols := by
  rw [UlineState.output]
  split
  · exact h
  · exact h.displayUpdate

theorem target (h : s.Kept symbols) {second : Bool} {l : Linebuf}
    (hl : s.target second = some l) : l.Fine (symbols && s.utf8) := by
  cases second with
  | false =>
    cases hl
    exact h.1
  | true => exact h.2 l hl

theorem setTarget (h : s.Kept symbols) (second : Bool) {l : Linebuf}
    (hl : l.Fine (symbols && s.utf8)) : (s.setTarget second l).Kept symbols := by
  cases second with
  | false => exact ⟨hl, h.2⟩
  | true =>
    refine ⟨h.1, fun m hm => ?_⟩
    cases hm
    exact hl

theorem follow (h : s.Kept symbols) (next : Follow) : (s.follow next).Kept symbols := by
  cases next with
  | «show» => exact h.output
  | update =>
    rw [UlineState.follow]
    split
    · exact h
    · exact h.output
  | quiet => exact h

theorem perform (h : s.Kept symbols) (fresh : ℕ → UInt8) {act : Action} (hsafe : act.Safe s)
    (hwhole : symbols = true → s.utf8 = true → act.Whole s) :
    ∃ t, s.perform fresh act = some t ∧ t.Kept symbols := by
  cases act with
  | edit e second next =>
    obtain ⟨l, hl, hedit⟩ := hsafe
    obtain ⟨m, changed, heq, hm⟩ := (h.target hl).run fresh hedit
      fun hs hu => hwhole hs hu l hl
    refine ⟨if changed then (s.setTarget second m).follow next else s.setTarget second m, ?_, ?_⟩
    · simp [UlineState.perform, hl, heq]
    · have hset := h.setTarget second hm
      split
      · exact hset.follow next
      · exact hset
  | call w => exact ⟨_, rfl, h⟩
  | «show» => exact ⟨_, rfl, h.output⟩
  | done => exact ⟨_, rfl, h⟩

theorem call (h : s.Kept symbols) {a : Api} (hsafe : a.Safe s)
    (hwhole : symbols = true → s.utf8 = true → a.Whole s) :
    ∃ t, s.call a = some t ∧ t.Kept symbols := by
  have hboth : (symbols && s.utf8) = true → a.Whole s := fun hs =>
    hwhole (Bool.and_eq_true_iff.mp hs).1 (Bool.and_eq_true_iff.mp hs).2
  cases a with
  | setPrompt str => exact ⟨_, rfl, h.1.setPrompt str, h.2⟩
  | setLine str fresh =>
    obtain ⟨m, heq, hm⟩ := h.1.setLine s.utf8 hsafe hboth
    refine ⟨{ s with line := m }, ?_, hm, h.2⟩
    simp only [UlineState.call, heq]
    rfl
  | setCursor pos => exact ⟨_, rfl, h.1.setCursor hboth, h.2⟩
  | setLine2Prompt str =>
    cases str with
    | none => exact ⟨_, rfl, h.1, nofun⟩
    | some str =>
      refine ⟨_, rfl, h.1, fun l hl => ?_⟩
      cases hl
      cases hline2 : s.line2 with
      | none => exact Linebuf.Fine.zero.setPrompt str
      | some l => exact (h.2 l hline2).setPrompt str
  | setLine2 str fresh =>
    cases hline2 : s.line2 with
    | none => exact ⟨s, by simp only [UlineState.call, hline2], h⟩
    | some l =>
      obtain ⟨m, heq, hm⟩ := (h.2 l hline2).setLine s.utf8 (hsafe l hline2)
        fun hs => hboth hs l hline2
      refine ⟨{ s with line2 := some m }, ?_, h.1, fun k hk => ?_⟩
      · simp only [UlineState.call, hline2, heq]
        rfl
      · cases hk
        exact hm
  | setLine2Cursor pos =>
    refine ⟨_, rfl, h.1, fun l hl => ?_⟩
    obtain ⟨m, hm, rfl⟩ := Option.map_eq_some_iff.mp hl
    exact (h.2 m hm).setCursor fun hs => hboth hs m hm
  | refreshPrompt => exact ⟨_, rfl, h.displayUpdate⟩

theorem step (h : s.Kept symbols) {e : Event} {t : Option UlineState}
    (hcare : s.Careful symbols e) (hst : Step (some s) e t) : ∃ u, t = some u ∧ u.Kept symbols := by
  cases e with
  | api a =>
    obtain ⟨u, heq, hu⟩ := h.call hcare.1 hcare.2
    exact ⟨u, (Option.some.inj hst).symm.trans heq, hu⟩
  | poll | input | ret =>
    obtain ⟨⟨u, act⟩, hact, heq⟩ := Option.map_eq_some_iff.mp hst
    obtain ⟨hsafe, hwhole⟩ := hcare u act hact
    obtain ⟨v, hv, hkept⟩ := ((Same.action hact).kept h).perform _ hsafe hwhole
    exact ⟨v, heq.symm.trans hv, hkept⟩

end UlineState.Kept

theorem kept_of_careful {symbols : Bool} {s : Option UlineState}
    (h : Reaches Initial Step (Careful symbols) s) : ∃ u, s = some u ∧ u.Kept symbols := by
  refine h.invariant (P := fun s => ∃ u, s = some u ∧ u.Kept symbols) ?_ ?_
  · rintro _ ⟨cb, utf8, rfl⟩
    exact ⟨_, rfl, .initial cb utf8⟩
  · rintro _ e t ⟨u, rfl, hu⟩ hcare hst
    exact hu.step (hcare u rfl) hst

/-- **The lines stay within their buffers**, and in UTF-8 mode their cursors at
symbols. -/
theorem line_buffers_ok {s : Option UlineState} (h : Reaches Initial Step (Careful false) s) :
    ∃ u, s = some u ∧ u.Ok ∧
      (u.utf8 = true → Reaches Initial Step (Careful true) s → u.OnBoundary) := by
  obtain ⟨u, rfl, hu⟩ := kept_of_careful h
  refine ⟨u, rfl, ⟨hu.1.ok, fun l hl => (hu.2 l hl).ok⟩, fun hutf8 h' => ?_⟩
  obtain ⟨v, hv, hkept⟩ := kept_of_careful h'
  cases hv
  have hs : (true && u.utf8) = true := by rw [hutf8]; rfl
  exact ⟨hkept.1.starts hs, fun l hl => (hkept.2 l hl).starts hs⟩

/-- An editor of a program without optional callbacks. -/
def plainEditor : UlineState := .init ⟨false, false, false, false⟩ true

theorem line_buffers_ok_insert : ∃ u : UlineState, u.Ok ∧ u.OnBoundary ∧ u.line.len = 1 ∧
    u.line.pos = 1 := by
  have hinit : Initial (some plainEditor) := ⟨_, _, rfl⟩
  have hcare : ∀ symbols, Careful symbols (some plainEditor) (.input 97 fun _ => 0) := by
    rintro symbols _ ⟨⟩ t act hact
    cases hact
    exact ⟨⟨_, rfl, trivial⟩, fun _ _ l _ => nofun⟩
  have hstep : Step (some plainEditor) (.input 97 fun _ => 0)
      ((exec (some plainEditor) (.input 97 fun _ => 0)).getD none) := rfl
  obtain ⟨u, hu, hok, hsym⟩ := line_buffers_ok ((Reaches.start hinit).next _ (hcare false) hstep)
  have hlen : ((exec (some plainEditor) (.input 97 fun _ => 0)).getD none).map
      (fun u => (u.line.len, u.line.pos, u.utf8)) = some (1, 1, true) := by
    decide +kernel
  rw [hu] at hlen
  cases hlen' : u.line with
  | mk buf len pos updatePos prompt =>
    simp only [Option.map_some, hlen', Option.some.injEq, Prod.mk.injEq] at hlen
    exact ⟨u, hok, hsym hlen.2.2 ((Reaches.start hinit).next _ (hcare true) hstep), by
      rw [hlen']; exact hlen.1, by rw [hlen']; exact hlen.2.1⟩

/-- The first key resets a line that never had a buffer. -/
theorem not_line_buffers_ok :
    ∃ s, Reaches Initial Step (fun _ _ => True) s ∧ ¬ ∃ u, s = some u ∧ u.Ok := by
  refine ⟨none, (Reaches.start ⟨_, _, rfl⟩).next (s := some plainEditor) (.input 21 fun _ => 0)
    trivial rfl, ?_⟩
  rintro ⟨u, hu, -⟩
  cases hu

end NeonWrt.Uline
