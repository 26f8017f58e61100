import NeonWrt.Lib.Run
import NeonWrt.Uci.Apply

/-!
# The watch loop

neon-uci applies all translators once, then watches the configuration directory
and applies the translators of the packages that change, collected for a quarter
of a second. This file models `main` and `watch_loop` as a transition system:
UCI commits, signals and the loss of the directory are interleaved with the
steps of the daemon, one translator of an application at a time. The kernel is
modelled by the queue of the inotify descriptor, which has a capacity.

The question is whether every commit is served: whether each translator that
declares the package has run since. It is not so in every run. A commit between
the initial application and the creation of the watch is not noticed, nor one
between the loss of the watch and its renewal, one that finds the queue full, or
one whose event is dropped with the descriptor; and a batch of 2048 bytes or more
matches no translator. These are the steps that `LabelOk` excludes. The proof that
all other commits are served is in `NeonWrt.Uci.Serve`.
-/

namespace NeonWrt.Uci

open Lib

/-- An inotify event: a name in the directory, the loss of the directory, or an
overflow of the queue. -/
inductive Note where
  | named (name : Bytes)
  | gone
  | overflow
  deriving DecidableEq

/-- An inotify descriptor: its queue, and whether the directory is still watched. -/
structure Watch where
  queue : List Note
  live : Bool
  deriving DecidableEq

/-- An event enters the queue; a full queue takes a single overflow event instead. -/
def enqueue (capacity : ℕ) (queue : List Note) (e : Note) : List Note :=
  if queue.length < capacity then queue ++ [e]
  else if .overflow ∈ queue then queue
  else queue ++ [.overflow]

/-- An event for a name, which only a directory that is still watched reports. -/
def Watch.notify (capacity : ℕ) (name : Bytes) (w : Watch) : Watch :=
  if w.live then { w with queue := enqueue capacity w.queue (.named name) } else w

/-- The directory is removed or renamed. -/
def Watch.lose (capacity : ℕ) (w : Watch) : Watch :=
  if w.live then ⟨enqueue capacity w.queue .gone, false⟩ else w

/-- What has happened, newest first: commits, and runs of handlers. -/
inductive Entry where
  | commit (p : Bytes)
  | ran (t : Translator)
  deriving DecidableEq

/-- Where the daemon is. An application carries the translators still to come. -/
inductive Pc where
  | initial (todo : List Translator)
  | top
  | check
  | reload (todo : List Translator)
  | poll
  | batch (changed : Bytes) (todo : List Translator)
  | stopped

/-- The state of the system. -/
structure State where
  log : List Entry
  pc : Pc
  watch : Option Watch
  pending : Bytes
  reload : Bool
  stop : Bool

/-- What stays the same: the surroundings, the translator directory and the capacity
of inotify queues. -/
structure Daemon where
  env : Env
  dir : Directory
  capacity : ℕ

variable (d : Daemon)

/-- The translators every application loads. -/
def Daemon.translators : List Translator := Uci.translators d.dir

/-- The start of the daemon, with the initial application before it. -/
def State.init : State := ⟨[], .initial d.translators, none, [], false, false⟩

/-- The steps of the system. -/
inductive Label where
  /-- A package file is renamed into the directory. -/
  | commit (p : Bytes)
  /-- Something else happens to a file of the directory. -/
  | touch (name : Bytes)
  | dirGone
  | sighup
  | sigterm
  /-- An application goes on with the next translator, or ends. -/
  | apply
  /-- The top of the loop, with a descriptor at hand. -/
  | enter
  | watchFails
  | watchOk
  /-- The test of `g_reload`. -/
  | pass
  /-- `poll` or `read` fails. -/
  | fails
  /-- `poll` or `read` is interrupted, or there is nothing to read. -/
  | interrupted
  | timeout
  /-- `read` returns the first `n` events. -/
  | read (n : ℕ)

/-- The log after the turn of one translator. -/
def turn (changed : Bytes) (t : Translator) (log : List Entry) : List Entry :=
  if handles d.env changed t then .ran t :: log else log

/-- An event of the read loop names a package to be collected. -/
def Note.package? : Note → Option Bytes
  | .named name => if name.head? ≠ some 46 ∧ packageNameValid name then some name else none
  | _ => none

/-- The packages to be collected from events, up to a loss of the directory. -/
def packagesOf (notes : List Note) : List Bytes :=
  (notes.takeWhile (· ≠ .gone)).filterMap Note.package?

/-- The loop over the events that were read: whether the descriptor is kept, and what
is pending. A name that cannot be added is only warned about. -/
def readLoop : List Note → Bytes → Bool × Bytes
  | [], pending => (true, pending)
  | .gone :: _, pending => (false, pending)
  | e :: rest, pending =>
    match e.package? with
    | some name => readLoop rest (csvAddUnique maxCsv pending name).2
    | none => readLoop rest pending

theorem readLoop_cons {e : Note} (he : e ≠ .gone) (rest : List Note) (pending : Bytes) :
    readLoop (e :: rest) pending = e.package?.elim (readLoop rest pending) fun name =>
      readLoop rest (csvAddUnique maxCsv pending name).2 := by
  rw [readLoop]
  · cases e.package? <;> rfl
  · exact he

/-- One step; `none` when it cannot be made. -/
def exec (s : State) : Label → Option State
  | .commit p => some { s with
      log := .commit p :: s.log, watch := s.watch.map (Watch.notify d.capacity p) }
  | .touch name => some { s with watch := s.watch.map (Watch.notify d.capacity name) }
  | .dirGone => some { s with watch := s.watch.map (Watch.lose d.capacity) }
  | .sighup => some { s with reload := true }
  | .sigterm => some { s with stop := true }
  | .apply =>
    match s.pc with
    | .initial [] => some { s with pc := .top }
    | .initial (t :: todo) => some { s with log := turn d (ascii "*") t s.log, pc := .initial todo }
    | .reload [] => some { s with pc := .poll }
    | .reload (t :: todo) => some { s with log := turn d (ascii "*") t s.log, pc := .reload todo }
    | .batch _ [] => some { s with pc := .top }
    | .batch changed (t :: todo) =>
      some { s with log := turn d changed t s.log, pc := .batch changed todo }
    | _ => none
  | .enter =>
    match s.pc with
    | .top =>
      if s.stop then some { s with pc := .stopped, watch := none }
      else if s.watch.isSome then some { s with pc := .check }
      else none
    | _ => none
  | .watchFails =>
    match s.pc with
    | .top => if s.stop ∨ s.watch.isSome then none else some s
    | _ => none
  | .watchOk =>
    match s.pc with
    | .top =>
      if s.stop ∨ s.watch.isSome then none
      else some { s with pc := .check, watch := some ⟨[], true⟩ }
    | _ => none
  | .pass =>
    match s.pc with
    | .check =>
      if s.reload then some { s with pc := .reload d.translators, reload := false }
      else some { s with pc := .poll }
    | _ => none
  | .fails =>
    match s.pc with
    | .poll => some { s with pc := .top, watch := none }
    | _ => none
  | .interrupted =>
    match s.pc with
    | .poll => some { s with pc := .top }
    | _ => none
  | .timeout =>
    match s.pc with
    | .poll =>
      if s.watch.any fun w => w.queue ≠ [] then none
      else if s.pending ≠ [] then
        some { s with pending := [], pc := .batch (snprintf maxCsv s.pending) d.translators }
      else some { s with pc := .top }
    | _ => none
  | .read n =>
    match s.pc, s.watch with
    | .poll, some w =>
      if n = 0 ∨ w.queue.length < n then none
      else
        let r := readLoop (w.queue.take n) s.pending
        some { s with
          pc := .top
          pending := r.2
          watch := if r.1 then some { w with queue := w.queue.drop n } else none }
    | _, _ => none

/-- The step relation. -/
def WatchStep (s : State) (a : Label) (s' : State) : Prop := exec d s a = some s'

/-- The translator has to run for the package. -/
def Obliged (t : Translator) (p : Bytes) : Prop :=
  t.enabled = true ∧ d.env.executable t.command.bytes = true ∧ t.Declares p

/-- The package was committed, and the translator has not run since. -/
def Unserved (log : List Entry) (t : Translator) (p : Bytes) : Prop :=
  .commit p ∈ log ∧ .ran t ∉ log.takeWhile (· ≠ .commit p)

/-- An event for the package waits in the queue, before the loss of the directory. -/
def Queued (s : State) (p : Bytes) : Prop :=
  ∃ w, s.watch = some w ∧ p ∈ packagesOf w.queue

/-- The translator is still to come in an application for the package. -/
def Pc.Todo : Pc → Translator → Bytes → Prop
  | .initial todo, t, _ => t ∈ todo
  | .reload todo, t, _ => t ∈ todo
  | .batch changed todo, t, p => t ∈ todo ∧ p ∈ csvNames changed
  | _, _, _ => False

/-- The daemon will look at `g_reload` before it polls again. -/
def Pc.BeforeReload : Pc → Prop
  | .initial _ | .top | .check | .batch _ _ => True
  | _ => False

/-- Where a commit may wait, other than in the queue. -/
def DueApart (s : State) (t : Translator) (p : Bytes) : Prop :=
  p ∈ csvNames s.pending ∨ s.pc.Todo t p ∨ (s.reload = true ∧ s.pc.BeforeReload) ∨ s.pc = .stopped

/-- Where a commit may wait. -/
def Due (s : State) (t : Translator) (p : Bytes) : Prop := Queued s p ∨ DueApart s t p

/-- The daemon waits for events, with none queued and no package pending. -/
def Idle (s : State) : Prop :=
  s.pc = .poll ∧ s.pending = [] ∧ ∀ w, s.watch = some w → w.queue = []

/-- The condition on a step and the state it is made in. A commit finds a live watch
with room in its queue, or every translator concerned is due anyway; the descriptor
is not closed on an event that nothing else stands for; and the packages collected
stay within the search buffer. -/
def LabelOk (s : State) : Label → Prop
  | .commit p =>
    (∃ w, s.watch = some w ∧ w.live = true ∧ w.queue.length < d.capacity ∧
      (Note.named p).package? = some p) ∨
    ∀ t ∈ d.translators, Obliged d t p → Due s t p
  | .fails => ∀ t ∈ d.translators, ∀ p, Obliged d t p → Queued s p → DueApart s t p
  | .read n => ∀ w, s.watch = some w →
    (csvOf (distinct (csvNames s.pending ++ packagesOf (w.queue.take n)))).length < searchSize
  | _ => True

end NeonWrt.Uci
