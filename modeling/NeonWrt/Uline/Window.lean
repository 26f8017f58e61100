import NeonWrt.Lib.Run
import NeonWrt.Uline.Input
import NeonWrt.Uline.Position

/-!
# The size of the window

The line editor asks for the size of the window with an `ioctl` when it starts and after a
`SIGWINCH`. Where that fails it asks the terminal, which answers with a report of the
cursor's position; such a report is taken for the size whenever it comes.
-/

namespace NeonWrt.Uline

open NeonWrt.Lib

/-- What `ioctl` fills in, `ws_row` and `ws_col`. -/
structure Winsize where
  row : UInt16
  col : UInt16

/-- An editor with `ioctl_winsize`. -/
structure Window where
  editor : Option UlineState
  ioctlWinsize : Bool

/-- The size that `update_window_size` gets, and `ioctl_winsize` afterwards. -/
def windowSize (ioctlWinsize : Bool) : Option Winsize → ℕ × ℕ × Bool
  | some ws =>
    if ioctlWinsize ∧ ws.col ≠ 0 ∧ ws.row ≠ 0 then (ws.row.toNat, ws.col.toNat, true)
    else (25, 80, false)
  | none => (25, 80, false)

/-- `update_window_size`, where the `ioctl` gives a size or fails. The calls that the callback
makes are events of their own. -/
def updateWindowSize (w : Window) (ws : Option Winsize) : Window :=
  let (rows, cols, ioctl) := windowSize w.ioctlWinsize ws
  { editor := w.editor.map fun s => { s with rows := rows, cols := cols }, ioctlWinsize := ioctl }

/-- What can happen to an editor; the window changes when a byte has been read. -/
inductive WindowEvent
  | editor (e : Event)
  | winch (ws : Option Winsize)

/-- One event. -/
def Window.exec (w : Window) : WindowEvent → Option Window
  | .editor e => (Uline.exec w.editor e).map fun s => { w with editor := s }
  | .winch ws =>
    w.editor.bind fun s =>
      if s.waiting.isNone ∧ !s.stop then some (updateWindowSize w ws) else none

/-- `uline_init` -/
def ulineInit (cb : Callbacks) (utf8 : Bool) (ws : Option Winsize) : Window :=
  updateWindowSize ⟨some (.init cb utf8), true⟩ ws

/-- An editor that was just initialised. -/
def Window.Initial (w : Window) : Prop := ∃ cb utf8 ws, w = ulineInit cb utf8 ws

/-- An editor that was just initialised in a window with at most so many columns. -/
def Window.SaneInitial (max : ℕ) (w : Window) : Prop :=
  ∃ cb utf8 ws, (∀ size : Winsize, ws = some size → size.col.toNat ≤ max) ∧ w = ulineInit cb utf8 ws

/-- One event of a run. -/
def Window.Step (w : Window) (e : WindowEvent) (t : Window) : Prop := w.exec e = some t

/-- A size with something in it, and at most so many columns. -/
def SizeOk (max rows cols : ℕ) : Prop := 1 ≤ rows ∧ 1 ≤ cols ∧ cols ≤ max

/-- The byte does not complete a report of another size, and the window does not get one. -/
def Sane (max : ℕ) (w : Window) : WindowEvent → Prop
  | .winch ws => ∀ size, ws = some size → w.ioctlWinsize = true → size.col.toNat ≤ max
  | .editor (.input c _) => ∀ s seq rows cols, w.editor = some s → s.escSeq = some seq →
      vt100EscDecode (seq ++ [c]) = .cursorPos rows cols → SizeOk max rows cols
  | .editor _ => True

/-- A report has such a size. -/
def EscOk (max : ℕ) (esc : Esc) : Prop := ∀ rows cols, esc = .cursorPos rows cols →
  SizeOk max rows cols

/-- An action hands over no report of another size. -/
def Action.Sized (max : ℕ) (act : Action) : Prop := ∀ esc, act = .call (.line2Cursor esc) →
  EscOk max esc

/-- The size of an editor, also the one in a report that is still being dealt with. -/
structure UlineState.Sized (max : ℕ) (s : UlineState) : Prop where
  size : SizeOk max s.rows s.cols
  waiting : ∀ esc, s.waiting = some (.line2Cursor esc) → EscOk max esc

section Sized

variable {max : ℕ} {s t : UlineState} {act : Action}

/-- What follows an edit keeps the size, and waits for no report. -/
theorem UlineState.Sized.follow (h : s.Sized max) (next : Follow) : (s.follow next).Sized max := by
  cases next with
  | «show» =>
    simp only [UlineState.follow, UlineState.output]
    split_ifs
    · exact h
    · exact ⟨h.size, h.waiting⟩
  | update =>
    simp only [UlineState.follow, UlineState.output]
    split_ifs
    · exact ⟨h.size, nofun⟩
    · exact h
    · exact ⟨h.size, h.waiting⟩
  | quiet => exact h

theorem UlineState.Sized.setTarget (h : s.Sized max) (second : Bool) (l : Linebuf) :
    (s.setTarget second l).Sized max := by
  cases second <;> exact ⟨h.size, h.waiting⟩

theorem UlineState.Sized.perform (h : s.Sized max) (hact : act.Sized max) {fresh : ℕ → UInt8}
    (hperform : s.perform fresh act = some t) : t.Sized max := by
  cases act with
  | edit e second next =>
    simp only [UlineState.perform, Option.bind_eq_bind, Option.bind_eq_some_iff] at hperform
    obtain ⟨l, -, ⟨m, changed⟩, -, heq⟩ := hperform
    cases Option.some.inj heq
    have hset := h.setTarget second m
    simp only
    split_ifs
    · exact hset.follow next
    · exact hset
  | call w =>
    cases Option.some.inj hperform
    refine ⟨h.size, fun esc hesc => hact esc ?_⟩
    rw [Option.some.inj hesc]
  | «show» =>
    cases Option.some.inj hperform
    exact h.follow .show
  | done =>
    cases Option.some.inj hperform
    exact h

/-- What an input leads to keeps the size. -/
def KeepsSize (max : ℕ) (r : UlineState × Action) : Prop := r.1.Sized max ∧ r.2.Sized max

theorem Action.sized_of_ne (h : ∀ esc, act ≠ .call (.line2Cursor esc)) : act.Sized max :=
  fun esc hesc => absurd hesc (h esc)

theorem keepsSize_escAction (h : s.Sized max) {esc : Esc} (hesc : EscOk max esc) (second : Bool) :
    KeepsSize max (escAction s esc second) := by
  cases esc with
  | cursorPos rows cols =>
    simp only [escAction]
    split_ifs
    · exact ⟨h, Action.sized_of_ne nofun⟩
    · exact ⟨⟨hesc rows cols rfl, h.waiting⟩, Action.sized_of_ne nofun⟩
  | _ => exact ⟨h, Action.sized_of_ne nofun⟩

theorem keepsSize_processEsc (h : s.Sized max) {esc : Esc} (hesc : EscOk max esc) :
    KeepsSize max (processEsc s esc) := by
  unfold processEsc
  split_ifs
  · refine ⟨h, fun e he => ?_⟩
    cases he
    exact hesc
  · exact keepsSize_escAction h hesc _

theorem keepsSize_resetAction (h : s.Sized max) : KeepsSize max (resetAction s) := by
  unfold resetAction
  split_ifs <;> exact ⟨h, Action.sized_of_ne nofun⟩

theorem keepsSize_lineAction (h : s.Sized max) : KeepsSize max (lineAction s) :=
  ⟨⟨h.size, h.waiting⟩, Action.sized_of_ne nofun⟩

theorem keepsSize_processNewline (h : s.Sized max) (drop : Bool) :
    KeepsSize max (processNewline s drop) := by
  unfold processNewline
  split_ifs
  · exact keepsSize_resetAction h
  · exact ⟨h, Action.sized_of_ne nofun⟩
  · exact keepsSize_lineAction h

theorem keepsSize_processCtrl (h : s.Sized max) (c : UInt8) : KeepsSize max (processCtrl s c) := by
  unfold processCtrl
  split
  · exact keepsSize_processNewline h false
  · exact keepsSize_processNewline h false
  · exact ⟨h, Action.sized_of_ne nofun⟩
  · split_ifs <;> exact ⟨h, Action.sized_of_ne nofun⟩
  · exact ⟨h, Action.sized_of_ne nofun⟩
  · exact ⟨h, Action.sized_of_ne nofun⟩
  · exact ⟨h, Action.sized_of_ne nofun⟩
  · exact ⟨h, Action.sized_of_ne nofun⟩
  · exact keepsSize_processEsc h nofun
  · exact keepsSize_processEsc h nofun
  · exact ⟨h, Action.sized_of_ne nofun⟩
  · exact ⟨⟨h.size, h.waiting⟩, Action.sized_of_ne nofun⟩
  · exact ⟨h, Action.sized_of_ne nofun⟩

theorem sized_handleUtf8 (h : s.Sized max) (c : UInt8) : (handleUtf8 s c).1.Sized max := by
  unfold handleUtf8
  split_ifs <;> exact ⟨h.size, h.waiting⟩

theorem keepsSize_keyAction (h : s.Sized max) (c : UInt8) : KeepsSize max (keyAction s c) := by
  unfold keyAction
  split_ifs
  · exact keepsSize_processCtrl h c
  · exact ⟨sized_handleUtf8 h c, Action.sized_of_ne nofun⟩

theorem keepsSize_processChar (h : s.Sized max) {c : UInt8}
    (hesc : ∀ seq, s.escSeq = some seq → EscOk max (vt100EscDecode (seq ++ [c]))) :
    KeepsSize max (processChar s c) := by
  unfold processChar
  split
  · next seq hseq =>
    simp only
    split_ifs
    · exact ⟨⟨h.size, h.waiting⟩, Action.sized_of_ne nofun⟩
    · have ht : UlineState.Sized max { s with escSeq := none } := ⟨h.size, h.waiting⟩
      exact keepsSize_processEsc ht (hesc seq hseq)
  · split_ifs
    · exact ⟨h, Action.sized_of_ne nofun⟩
    · exact keepsSize_keyAction h c

theorem keepsSize_resume (h : s.Sized max) {w : Waiting}
    (hw : ∀ esc, w = .line2Cursor esc → EscOk max esc) (ret : Bool) :
    KeepsSize max (resume s w ret) := by
  cases w with
  | keyInput c =>
    simp only [resume]
    split_ifs
    · exact ⟨h, Action.sized_of_ne nofun⟩
    · exact keepsSize_keyAction h c
  | line2Cursor esc => exact keepsSize_escAction h (hw esc rfl) ret
  | line2Newline =>
    simp only [resume]
    split_ifs
    · exact ⟨h, Action.sized_of_ne nofun⟩
    · exact keepsSize_lineAction h
  | line =>
    simp only [resume]
    split_ifs
    · exact keepsSize_resetAction h
    · exact ⟨h, Action.sized_of_ne nofun⟩
  | interrupt =>
    have ht : UlineState.Sized max { s with stop := true } := ⟨h.size, h.waiting⟩
    exact keepsSize_processNewline ht true
  | _ => exact ⟨⟨h.size, h.waiting⟩, Action.sized_of_ne nofun⟩

theorem UlineState.Sized.call (h : s.Sized max) {a : Api} (hcall : s.call a = some t) :
    t.Sized max := by
  cases a with
  | setLine str fresh =>
    simp only [UlineState.call, Option.bind_eq_bind, Option.bind_eq_some_iff] at hcall
    obtain ⟨l, -, heq⟩ := hcall
    cases Option.some.inj heq
    exact ⟨h.size, h.waiting⟩
  | setLine2Prompt str =>
    cases str <;> cases Option.some.inj hcall <;> exact ⟨h.size, h.waiting⟩
  | setLine2 str fresh =>
    simp only [UlineState.call] at hcall
    split at hcall
    · cases Option.some.inj hcall
      exact h
    · simp only [Option.bind_eq_bind, Option.bind_eq_some_iff] at hcall
      obtain ⟨l, -, heq⟩ := hcall
      cases Option.some.inj heq
      exact ⟨h.size, h.waiting⟩
  | _ =>
    cases Option.some.inj hcall
    exact ⟨h.size, h.waiting⟩

/-- An event keeps the size, if it completes no report of another one. -/
theorem UlineState.Sized.action (h : s.Sized max) {e : Event}
    (hsane : ∀ c fresh seq rows cols, e = .input c fresh → s.escSeq = some seq →
      vt100EscDecode (seq ++ [c]) = .cursorPos rows cols → SizeOk max rows cols)
    (haction : s.action e = some (t, act)) : KeepsSize max (t, act) := by
  cases e with
  | poll =>
    simp only [UlineState.action] at haction
    split_ifs at haction
    cases Option.some.inj haction
    exact ⟨⟨h.size, h.waiting⟩, Action.sized_of_ne nofun⟩
  | input c fresh =>
    simp only [UlineState.action] at haction
    split_ifs at haction
    rw [← Option.some.inj haction]
    exact keepsSize_processChar h fun seq hseq rows cols => hsane c fresh seq rows cols rfl hseq
  | ret result fresh =>
    simp only [UlineState.action, Option.map_eq_some_iff] at haction
    obtain ⟨w, hw, heq⟩ := haction
    have ht : UlineState.Sized max { s with waiting := none } := ⟨h.size, nofun⟩
    rw [← heq]
    exact keepsSize_resume ht (fun esc hesc => h.waiting esc (hesc ▸ hw)) result
  | api a => cases haction

end Sized

/-- The invariant: an editor that is still there has such a size. -/
def Window.Sized (max : ℕ) (w : Window) : Prop := ∀ s, w.editor = some s → s.Sized max

section Runs

variable {max : ℕ} {w t : Window}

theorem windowSize_ok (hmax : 80 ≤ max) {ioctl : Bool} {ws : Option Winsize}
    (h : ∀ size, ws = some size → ioctl = true → size.col.toNat ≤ max) :
    SizeOk max (windowSize ioctl ws).1 (windowSize ioctl ws).2.1 := by
  cases ws with
  | none => exact ⟨show 1 ≤ 25 by decide, show 1 ≤ 80 by decide, hmax⟩
  | some size =>
    simp only [windowSize]
    split_ifs with hsize
    · obtain ⟨hioctl, hcol, hrow⟩ := hsize
      have hpos : ∀ n : UInt16, n ≠ 0 → 1 ≤ n.toNat := fun n hn =>
        Nat.one_le_iff_ne_zero.mpr fun hzero => hn (UInt16.toNat_inj.mp hzero)
      exact ⟨hpos _ hrow, hpos _ hcol, h size rfl hioctl⟩
    · exact ⟨show 1 ≤ 25 by decide, show 1 ≤ 80 by decide, hmax⟩

theorem sized_updateWindowSize (hmax : 80 ≤ max) {ws : Option Winsize}
    (h : ∀ size, ws = some size → w.ioctlWinsize = true → size.col.toNat ≤ max)
    (hw : ∀ s, w.editor = some s → ∀ esc, s.waiting = some (.line2Cursor esc) → EscOk max esc) :
    (updateWindowSize w ws).Sized max := by
  intro s hs
  simp only [updateWindowSize, Option.map_eq_some_iff] at hs
  obtain ⟨u, hu, rfl⟩ := hs
  exact ⟨windowSize_ok hmax h, hw u hu⟩

theorem sized_exec (hmax : 80 ≤ max) (h : w.Sized max) {e : WindowEvent} (hsane : Sane max w e)
    (hstep : w.exec e = some t) : t.Sized max := by
  cases e with
  | editor e =>
    simp only [Window.exec, Option.map_eq_some_iff] at hstep
    obtain ⟨s', hexec, rfl⟩ := hstep
    rintro u rfl
    cases heditor : w.editor with
    | none =>
      rw [heditor] at hexec
      cases e <;> cases hexec
    | some s =>
      rw [heditor] at hexec
      have hinput : ∀ c fresh seq rows cols, e = .input c fresh → s.escSeq = some seq →
          vt100EscDecode (seq ++ [c]) = .cursorPos rows cols → SizeOk max rows cols := by
        rintro c fresh seq rows cols rfl
        exact hsane s seq rows cols heditor
      cases e with
      | api a => exact (h s heditor).call (Option.some.inj hexec)
      | _ =>
        simp only [Uline.exec, Option.map_eq_some_iff] at hexec
        obtain ⟨⟨v, act⟩, haction, hperform⟩ := hexec
        have hkeeps := (h s heditor).action hinput haction
        exact hkeeps.1.perform hkeeps.2 hperform
  | winch ws =>
    simp only [Window.exec, Option.bind_eq_some_iff] at hstep
    obtain ⟨s, -, hstep⟩ := hstep
    split_ifs at hstep
    cases Option.some.inj hstep
    exact sized_updateWindowSize hmax hsane fun u hu => (h u hu).waiting

theorem sized_of_reaches (hmax : 80 ≤ max)
    (h : Reaches (Window.SaneInitial max) Window.Step (Sane max) w) : w.Sized max := by
  refine h.invariant ?_ fun w e t hw hsane hstep => sized_exec hmax hw hsane hstep
  rintro _ ⟨cb, utf8, ws, hws, rfl⟩
  refine sized_updateWindowSize hmax (fun size hsize _ => hws size hsize) ?_
  rintro s hs esc hwaiting
  cases Option.some.inj hs
  cases hwaiting

/-- The size allows positions to be computed: it is positive, the columns are an `int16_t`, no
offset is divided by zero, and up to 16384 columns a sum of two positions on the screen is on
the screen. -/
def UlineState.Computable (s : UlineState) (max : ℕ) : Prop :=
  1 ≤ s.cols ∧ 1 ≤ s.rows ∧ int16 s.cols = s.cols ∧
    (∀ offset, (posConvert s.cols offset).isSome) ∧
    (max ≤ 16384 → ∀ pos add : Pos, pos.Inside s.cols → add.Inside s.cols →
      (posAdd s.cols pos add).Inside s.cols)

/-- The window keeps a size that positions can be computed in, as long as every report of the
cursor's position and every size from the `ioctl` are such a size. -/
theorem window_ok (hmax : 80 ≤ max) (hint : max < 32768)
    (h : Reaches (Window.SaneInitial max) Window.Step (Sane max) w) :
    ∀ s, w.editor = some s → s.Computable max := by
  intro s hs
  obtain ⟨hrows, hcols, hle⟩ := (sized_of_reaches hmax h s hs).size
  exact ⟨hcols, hrows, int16_of_bounds (by omega) (by omega), posConvert_isSome hcols,
    fun hsmall pos add hpos hadd => posAdd_inside (hle.trans hsmall) hpos hadd⟩

/-- A window of 132 columns whose size is changed to that from one of 80. -/
theorem window_ok_resized : ∃ s : UlineState, (s.rows, s.cols) = (50, 132) ∧ s.Computable 16384 := by
  have hinit : Window.SaneInitial 16384 (ulineInit ⟨false, false, false, false⟩ true
      (some ⟨24, 80⟩)) := ⟨_, _, _, fun size hsize => by cases hsize; decide, rfl⟩
  have hstep : Window.Step (ulineInit ⟨false, false, false, false⟩ true (some ⟨24, 80⟩))
      (.winch (some ⟨50, 132⟩))
      (updateWindowSize (ulineInit ⟨false, false, false, false⟩ true (some ⟨24, 80⟩))
        (some ⟨50, 132⟩)) := rfl
  have hsane : Sane 16384 (ulineInit ⟨false, false, false, false⟩ true (some ⟨24, 80⟩))
      (.winch (some ⟨50, 132⟩)) := fun size hsize _ => by cases hsize; decide
  exact ⟨_, rfl, window_ok (by decide) (by decide) ((Reaches.start hinit).next _ hsane hstep) _ rfl⟩

/-- What is typed: a report of the first row and no column. -/
def noColumns : List WindowEvent :=
  [27, 91, 49, 59, 48, 82].map fun c => .editor (.input c fun _ => 0)

/-- The report leaves the editor without columns, and the next offset is divided by zero. -/
theorem not_window_ok : ∃ w s, Reaches Window.Initial Window.Step (fun _ _ => True) w ∧
    w.editor = some s ∧ s.cols = 0 ∧ ∀ offset, posConvert s.cols offset = none := by
  have hinit : Reaches Window.Initial Window.Step (fun _ _ => True)
      (ulineInit ⟨false, false, false, false⟩ true (some ⟨24, 80⟩)) :=
    .start ⟨_, _, _, rfl⟩
  have hcols : ((runAll Window.exec (fun _ _ => true)
      (ulineInit ⟨false, false, false, false⟩ true (some ⟨24, 80⟩)) noColumns).bind
        (·.editor)).map (·.cols) = some 0 := rfl
  obtain ⟨s, hs, hzero⟩ := Option.map_eq_some_iff.mp hcols
  obtain ⟨w, hw, heditor⟩ := Option.bind_eq_some_iff.mp hs
  exact ⟨w, s, reaches_runAll (fun _ _ _ => trivial) hinit hw, heditor, hzero, fun offset => by
    rw [posConvert, if_pos hzero]⟩

end Runs

end NeonWrt.Uline
