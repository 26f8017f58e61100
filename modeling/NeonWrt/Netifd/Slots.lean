import NeonWrt.Netifd.Handler

/-!
# One device at a time

Everything the shared variables hold about one device is its slot. A step of the
whole system is a deed of at most one device: it changes the slot of that device
by a function of its own, and leaves the slots of all others as they are. So an
invariant of all devices is an invariant of the deeds.
-/

namespace NeonWrt.Netifd

open NeonWrt.Lib

/-- What concerns one device: the device itself, its operation in the queue, its
script, and the request made last. -/
structure Slot where
  device : Option Wdev
  queued : Option Op
  running : Option Script
  request : Option Request

/-- What can happen to a device. -/
inductive Deed
  | call (c : Call)
  | create (data : DevData)
  /-- Its operation leaves the queue; the script may fail to start. -/
  | run (op : Op) (spawned : Bool)
  /-- Its script ends, by exit or timeout. -/
  | ended (sc : Script)

/-- What a call means for the request made last. -/
def Call.request : Call → Option Request → Option Request
  | .start, _ => some .start
  | .stop, _ => some .stop
  | .destroy, _ => some .destroy
  | .update _, _ => none
  | _, r => r

/-- What a call means for a running script of the device. -/
def Call.report : Call → Script → Script
  | .notifyUp, sc => if sc.op = .setup then { sc with reported := true } else sc
  | _, sc => sc

namespace Slot

variable (sl : Slot)

/-- The slot after a method of its device. -/
def after (o : Outcome) : Slot :=
  { sl with
    device := if o.deleted then none else some o.wdev
    queued := match o.queued with
      | some op => some op
      | none => sl.queued }

/-- The slot after the callback of an operation. -/
def called (env : Env) (op : Op) : Slot :=
  match sl.device with
  | none => sl
  | some d => sl.after (Wireless.callback env op d)

/-- The effect of a deed. -/
def apply (env : Env) (n : Name) : Deed → Slot
  | .call c =>
    match sl.device with
    | none => sl
    | some d =>
      { sl with request := c.request sl.request, running := sl.running.map c.report }.after
        (c.run env d)
  | .create data => { sl with device := some (.new env n data), request := none }
  | .run op true =>
    { sl with
      device := sl.device.map fun d =>
        if op = .setup then { d with started := some d.handlerConfig } else d
      queued := none
      running := some ⟨n, op, false⟩ }
  | .run op false => { sl with queued := none }.called env op
  | .ended sc => { sl with running := none }.called env sc.op

/-- When a deed can happen. -/
def Enabled : Deed → Prop
  | .call _ => sl.device.isSome
  | .create _ => sl.device = none
  | .run op _ => sl.queued = some op ∧ sl.running = none
  | .ended sc => sl.running = some sc

end Slot

/-- The slot of a device. -/
def Wireless.slot (s : Wireless) (n : Name) : Slot where
  device := s.devices.get? n
  queued := s.queue.get? n
  running := s.scripts.find? (·.name = n)
  request := s.requests.get? n

/-- A call of a device, if it exists. -/
def calling (s : Wireless) (name : Name) (c : Call) : Option (Name × Deed) :=
  (s.devices.get? name).map fun _ => (name, .call c)

/-- The device that a step is about, and what it does. -/
def deed (s : Wireless) (e : Event) : Option (Name × Deed) :=
  match e.act, s.agenda with
  | .next pick spawned, .runNext :: _ =>
    match s.cur with
    | none => (s.queue.get? pick).map fun op => (pick, .run op spawned)
    | some _ => none
  | .next _ _, .remove name :: _ => calling s name .destroy
  | .next _ _, .place name data :: _ =>
    match s.devices.get? name with
    | some _ => some (name, .call (.update (some data)))
    | none => some (name, .create data)
  | .next _ _, .ifAutostart name c :: _ =>
    match s.devices.get? name with
    | some d => if d.autostart then some (name, .call c) else none
    | none => none
  | .next _ _, _ => none
  | .call name c, _ => calling s name c
  | .new name data, _ => some (name, .create data)
  | .exit i, _ => s.scripts[i]?.map fun sc => (sc.name, .ended sc)
  | .timeout, _ => s.scripts.getLast?.map fun sc => (sc.name, .ended sc)
  | _, _ => none

/-- The script that runs is the one that `wdev_cur` names, and its timeout is set. -/
structure Procs (s : Wireless) : Prop where
  cur : s.scripts.map (fun sc => (sc.name, sc.op)) = s.cur.toList
  timeout : s.timeout = s.cur

namespace Procs

variable {s : Wireless}

theorem of_none (hp : Procs s) (h : s.cur = none) : s.scripts = [] := by
  have hcur := hp.cur
  rw [h] at hcur
  simpa using hcur

theorem of_some {name : Name} {op : Op} (hp : Procs s) (h : s.cur = some (name, op)) :
    ∃ reported, s.scripts = [⟨name, op, reported⟩] := by
  have hcur := hp.cur
  rw [h, Option.toList_some, List.map_eq_singleton_iff] at hcur
  obtain ⟨sc, hsc, heq⟩ := hcur
  obtain ⟨rfl, rfl⟩ := Prod.mk.inj heq
  exact ⟨sc.reported, hsc⟩

/-- Any script that runs is the only one, and the current operation. -/
theorem of_mem {sc : Script} (hp : Procs s) (h : sc ∈ s.scripts) :
    s.scripts = [sc] ∧ s.cur = some (sc.name, sc.op) := by
  cases hcur : s.cur with
  | none => exact absurd h (hp.of_none hcur ▸ List.not_mem_nil)
  | some cur =>
    obtain ⟨reported, heq⟩ : ∃ reported, s.scripts = [⟨cur.1, cur.2, reported⟩] := hp.of_some hcur
    rw [heq, List.mem_singleton] at h
    exact ⟨h ▸ heq, by rw [h]⟩

end Procs

namespace Wireless

variable {s : Wireless} {env : Env} {n m name : Name}

theorem slot_put (o : Outcome) (reported : Bool) (m : Name) :
    (s.put n o reported).slot m = if m = n then (s.slot n).after o else s.slot m := by
  by_cases hm : m = n
  · rw [if_pos hm, hm]
    simp only [slot, put, Slot.after]
    congr 1
    · cases o.deleted <;> simp
    · cases o.queued <;> simp
  · rw [if_neg hm]
    simp only [slot, put]
    congr 1
    · cases o.deleted <;> simp [Table.get?_set_ne hm, Table.get?_erase_ne hm]
    · cases o.queued <;> simp [Table.get?_set_ne hm]

theorem slot_runHandlerCb {op : Op} {reported : Bool} (hcur : s.cur = some (n, op)) (m : Name) :
    (s.runHandlerCb env n op reported).slot m =
      if m = n then (s.slot n).called env op else s.slot m := by
  rw [runHandlerCb, hcur]
  simp only [ne_eq, not_true_eq_false, if_false]
  cases hd : s.devices.get? n with
  | none =>
    have hslot : (s.slot n).called env op = s.slot n := by
      simp [Slot.called, slot, hd]
    rw [hslot]
    split_ifs with hm
    · rw [hm]; rfl
    · rfl
  | some d =>
    rw [slot_put]
    have hslot : (s.slot n).called env op =
        (s.slot n).after (callback env op d) := by
      simp [Slot.called, slot, hd]
    rw [hslot]
    rfl

theorem requests_noteRequest (c : Call) (m : Name) :
    (s.noteRequest n c).get? m =
      if m = n then c.request (s.requests.get? n) else s.requests.get? m := by
  cases c <;> simp only [noteRequest, Call.request, Table.get?_set, Table.get?_erase] <;>
    split_ifs with h <;> simp [h]

/-- A report concerns the script of its device only. -/
theorem scripts_noteReport (c : Call) (m : Name) :
    (s.noteReport n c).find? (·.name = m) =
      if m = n then (s.scripts.find? (·.name = n)).map c.report
      else s.scripts.find? (·.name = m) := by
  have hid : ∀ c : Call, (∀ sc, c.report sc = sc) → s.noteReport n c = s.scripts →
      (s.noteReport n c).find? (·.name = m) =
        if m = n then (s.scripts.find? (·.name = n)).map c.report
        else s.scripts.find? (·.name = m) := by
    intro c hrep hsc
    rw [hsc, show c.report = id from funext hrep, Option.map_id]
    split_ifs with h
    · rw [h]; rfl
    · rfl
  cases c with
  | notifyUp =>
    rw [noteReport, List.find?_map]
    have hname : ((fun sc : Script => decide (sc.name = m)) ∘ fun sc =>
        if sc.name = n ∧ sc.op = .setup then { sc with reported := true } else sc) =
        fun sc => decide (sc.name = m) := by
      funext sc
      simp only [Function.comp]
      split_ifs <;> rfl
    rw [hname]
    cases hf : s.scripts.find? fun sc => decide (sc.name = m) with
    | none =>
      split_ifs with hm
      · rw [hm] at hf; simp [hf]
      · rfl
    | some sc =>
      have hsc : sc.name = m := by simpa using List.find?_some hf
      split_ifs with hm
      · rw [hm] at hf
        simp [hf, hsc, hm, Call.report]
      · simp [hsc, hm]
  | _ => exact hid _ (fun _ => rfl) rfl

theorem slot_call (c : Call) {d : Wdev} (hd : s.devices.get? n = some d) (m : Name) :
    (s.call env n c).slot m = if m = n then (s.slot n).apply env n (.call c) else s.slot m := by
  rw [call, hd]
  simp only
  rw [slot_put]
  simp only [slot, Slot.apply, hd]
  rw [requests_noteRequest, scripts_noteReport, requests_noteRequest, scripts_noteReport,
    if_pos rfl, if_pos rfl]
  split_ifs with hm
  · rfl
  · rfl

theorem slot_create (data : DevData) (m : Name) :
    (s.create env n data).slot m =
      if m = n then (s.slot n).apply env n (.create data) else s.slot m := by
  simp only [slot, create, Slot.apply, Table.get?_set, Table.get?_erase]
  split_ifs with hm
  · rw [hm]
  · rfl

/-- An entry leaves the queue when no script runs. -/
theorem slot_dispatch {op : Op} {spawned : Bool} (hsc : s.scripts = []) (m : Name) :
    (s.dispatch env spawned n op).slot m =
      if m = n then (s.slot n).apply env n (.run op spawned) else s.slot m := by
  cases spawned with
  | true =>
    simp only [dispatch, Slot.apply, slot, hsc, Table.get?_erase, noteStarted, if_true]
    by_cases hm : m = n
    · rw [hm]
      cases hd : s.devices.get? n with
      | none => simp [hd]
      | some d => cases op <;> simp [hd]
    · cases hd : s.devices.get? n with
      | none => simp [hm, Ne.symm hm]
      | some d => cases op <;> simp [hm, Ne.symm hm, Table.get?_set_ne hm]
  | false =>
    simp only [dispatch, Bool.false_eq_true, if_false]
    rw [slot_runHandlerCb rfl]
    simp only [slot, Slot.apply, Table.get?_erase, if_true]
    split_ifs with hm
    · rfl
    · rfl

end Wireless

/-- What a step does: nothing but bookkeeping, or the deed of a device. -/
inductive Shape (s : Wireless) (env : Env) : Option (Name × Deed) → Wireless → Prop
  | idle (agenda : List Task) (target : Table Name DevData) :
      Shape s env none { s with agenda := agenda, target := target }
  | call {n : Name} {d : Wdev} (c : Call) (agenda : List Task) :
      s.devices.get? n = some d →
      Shape s env (some (n, .call c)) ({ s with agenda := agenda }.call env n c)
  | create {n : Name} (data : DevData) (agenda : List Task) :
      s.devices.get? n = none →
      Shape s env (some (n, .create data)) ({ s with agenda := agenda }.create env n data)
  | run {n : Name} {op : Op} (spawned : Bool) : s.cur = none → s.queue.get? n = some op →
      Shape s env (some (n, .run op spawned)) (s.dispatch env spawned n op)
  | ended {sc : Script} : s.scripts = [sc] → s.cur = some (sc.name, sc.op) →
      Shape s env (some (sc.name, .ended sc))
        ({ s with scripts := [] }.runHandlerCb env sc.name sc.op sc.reported)

variable {s t : Wireless} {e : Event}

theorem Shape.skip (s : Wireless) (env : Env) (agenda : List Task) :
    Shape s env none { s with agenda := agenda } := .idle agenda s.target

theorem Shape.calling (s : Wireless) (env : Env) (agenda : List Task) (n : Name) (c : Call) :
    Shape s env (Netifd.calling s n c) ({ s with agenda := agenda }.call env n c) := by
  cases hd : s.devices.get? n with
  | none =>
    rw [Netifd.calling, hd, Wireless.call]
    simp only [hd]
    exact .skip s env agenda
  | some d =>
    rw [Netifd.calling, hd]
    exact .call c agenda hd

theorem next_of_busy {env : Env} {pick : Name} {spawned : Bool} {rest : List Task}
    (hag : s.agenda = .runNext :: rest) (h : s.cur ≠ none ∨ s.queue.entries = []) :
    s.next env pick spawned = some { s with agenda := rest } := by
  rw [Wireless.next, hag]
  rcases h with hcur | hq
  · obtain ⟨cur, hcur⟩ := Option.ne_none_iff_exists'.mp hcur
    simp only [hcur]
  · cases hcur : s.cur with
    | none => simp only [hq]
    | some cur => rfl

theorem deed_of_busy {env : Env} {pick : Name} {spawned : Bool} {rest : List Task}
    (hag : s.agenda = .runNext :: rest) (h : s.cur ≠ none ∨ s.queue.entries = []) :
    deed s ⟨.next pick spawned, env⟩ = none := by
  rw [deed, hag]
  rcases h with hcur | hq
  · obtain ⟨cur, hcur⟩ := Option.ne_none_iff_exists'.mp hcur
    simp only [hcur]
  · simp only [Table.entries_eq_nil.mp hq pick]
    cases s.cur with
    | none => rfl
    | some cur => rfl

theorem Shape.of_next {env : Env} {pick : Name} {spawned : Bool}
    (h : s.next env pick spawned = some t) :
    Shape s env (deed s ⟨.next pick spawned, env⟩) t := by
  cases hag : s.agenda with
  | nil => simp [Wireless.next, hag] at h
  | cons task rest =>
    cases task with
    | runNext =>
      have hskip := Shape.skip s env rest
      by_cases hbusy : s.cur ≠ none ∨ s.queue.entries = []
      · -- Nothing can be started.
        have hdeed : deed s ⟨.next pick spawned, env⟩ = none := deed_of_busy hag hbusy
        rw [next_of_busy hag hbusy, Option.some.injEq] at h
        rwa [hdeed, ← h]
      · push Not at hbusy
        obtain ⟨q, qs, hq⟩ := List.exists_cons_of_ne_nil hbusy.2
        simp only [Wireless.next, hag, hbusy.1, hq] at h
        obtain ⟨op, hop, rfl⟩ := Option.map_eq_some_iff.mp h
        rw [deed]
        simp only [hag, hbusy.1, hop, Option.map_some]
        exact .run spawned hbusy.1 hop
    | remove name =>
      simp only [Wireless.next, hag, Option.some.injEq] at h
      simp only [deed, hag]
      exact h ▸ .calling s env rest name .destroy
    | place name data =>
      simp only [Wireless.next, hag] at h
      simp only [deed, hag]
      cases hd : s.devices.get? name with
      | none =>
        simp only [hd, Option.some.injEq] at h
        exact h ▸ .create data rest hd
      | some d =>
        simp only [hd, Option.some.injEq] at h
        exact h ▸ .call _ rest hd
    | configStart =>
      simp only [Wireless.next, hag, Option.some.injEq] at h
      simp only [deed, hag]
      exact h ▸ .skip s env _
    | ifAutostart name c =>
      simp only [Wireless.next, hag] at h
      simp only [deed, hag]
      cases hd : s.devices.get? name with
      | none =>
        simp only [hd, Option.some.injEq] at h
        exact h ▸ .skip s env rest
      | some d =>
        simp only [hd] at h ⊢
        split_ifs at h ⊢
        · exact Option.some.inj h ▸ .call c rest hd
        · exact Option.some.inj h ▸ .skip s env rest

theorem Shape.of_react (hp : Procs s) (hag : s.agenda = []) (h : react s e.env e.act = some t) :
    Shape s e.env (deed s e) t := by
  obtain ⟨act, env⟩ := e
  -- Without an agenda there is nothing to set aside.
  have hs : { s with agenda := [] } = s := by rw [← hag]
  cases act with
  | next pick spawned => simp [react] at h
  | call name c =>
    have hcall := Shape.calling s env [] name c
    rw [hs] at hcall
    exact Option.some.inj h ▸ hcall
  | new name data =>
    rw [react] at h
    cases hd : s.devices.get? name with
    | some d => simp [hd] at h
    | none =>
      simp only [hd, Option.some.injEq] at h
      have hcreate : Shape s env _ _ := .create data [] hd
      rw [hs] at hcreate
      exact h ▸ hcreate
  | reload devices => exact Option.some.inj h ▸ .idle _ devices
  | checkInterfaces => exact Option.some.inj h ▸ .skip s env _
  | hotplug dev add => exact Option.some.inj h ▸ .skip s env _
  | exit i =>
    obtain ⟨sc, hsc, rfl⟩ := Option.map_eq_some_iff.mp h
    obtain ⟨hscs, hcur⟩ := hp.of_mem (List.mem_of_getElem? hsc)
    have hi : i = 0 := by
      obtain ⟨hlt, -⟩ := List.getElem?_eq_some_iff.mp hsc
      rw [hscs, List.length_singleton] at hlt
      omega
    have hdeed : deed s ⟨.exit i, env⟩ = some (sc.name, .ended sc) := by simp [deed, hsc]
    rw [hdeed, hscs, hi]
    exact .ended hscs hcur
  | timeout =>
    rw [react] at h
    cases hl : s.scripts.getLast? with
    | none => simp [hl] at h
    | some sc =>
      obtain ⟨hscs, hcur⟩ := hp.of_mem (List.mem_of_getLast? hl)
      -- The timeout is that of the script that runs.
      have htime : s.timeout = some (sc.name, sc.op) := hp.timeout.trans hcur
      have hdeed : deed s ⟨.timeout, env⟩ = some (sc.name, .ended sc) := by simp [deed, hl]
      have hended : Shape s env _ _ := .ended hscs hcur
      rw [htime] at hended
      simp only [htime, hscs, List.dropLast_singleton] at h
      change some _ = some t at h
      rw [hdeed]
      exact Option.some.inj h ▸ hended
  | timer =>
    rw [react] at h
    split_ifs at h
    exact Option.some.inj h ▸ .skip s env _

theorem shape_of_step (hp : Procs s) (h : step s e = some t) : Shape s e.env (deed s e) t := by
  obtain ⟨act, env⟩ := e
  cases act with
  | next pick spawned => exact .of_next h
  | _ =>
    cases hag : s.agenda with
    | nil => exact .of_react hp hag (by simpa [step, hag] using h)
    | cons task rest => simp [step, hag] at h

/-- A step is a deed of one device, or of none; the other slots stay as they are. -/
theorem step_slot (hp : Procs s) (h : step s e = some t) (m : Name) :
    t.slot m = match deed s e with
      | some (n, a) => if m = n then (s.slot n).apply e.env n a else s.slot m
      | none => s.slot m := by
  have hshape := shape_of_step hp h
  generalize deed s e = a at hshape
  cases hshape with
  | idle agenda target => rfl
  | call c agenda hd => exact Wireless.slot_call (s := { s with agenda := agenda }) c hd m
  | create data agenda hd => exact Wireless.slot_create (s := { s with agenda := agenda }) data m
  | run spawned hcur hop => exact Wireless.slot_dispatch (hp.of_none hcur) m
  | @ended sc hsc hcur =>
    simp only
    rw [Wireless.slot_runHandlerCb (s := { s with scripts := [] }) hcur]
    split_ifs with hm
    · rfl
    · -- No other device had a script.
      simp [Wireless.slot, hsc, Ne.symm hm]

theorem enabled_of_step {n : Name} {a : Deed} (hp : Procs s) (h : step s e = some t)
    (ha : deed s e = some (n, a)) : (s.slot n).Enabled a := by
  have hshape := shape_of_step hp h
  rw [ha] at hshape
  cases hshape with
  | call c agenda hd => simp [Slot.Enabled, Wireless.slot, hd]
  | create data agenda hd => exact hd
  | run spawned hcur hop => exact ⟨hop, by simp [Wireless.slot, hp.of_none hcur]⟩
  | ended hsc hcur => simp [Slot.Enabled, Wireless.slot, hsc]

/-- A method does not touch the script that runs. -/
theorem procs_put {n : Name} (hp : Procs s) (o : Outcome) (reported : Bool) :
    Procs (s.put n o reported) :=
  ⟨hp.cur, hp.timeout⟩

theorem procs_runHandlerCb {env : Env} {n : Name} {op : Op} {reported : Bool}
    (hsc : s.scripts = []) (hcur : s.cur = some (n, op)) :
    Procs (s.runHandlerCb env n op reported) := by
  rw [Wireless.runHandlerCb, hcur]
  simp only [ne_eq, not_true_eq_false, if_false]
  cases s.devices.get? n with
  | none => exact ⟨by simp [hsc], rfl⟩
  | some d => exact procs_put ⟨by simp [hsc], rfl⟩ _ _

theorem map_noteReport (n : Name) (c : Call) :
    (s.noteReport n c).map (fun sc => (sc.name, sc.op)) =
      s.scripts.map fun sc => (sc.name, sc.op) := by
  cases c with
  | notifyUp =>
    rw [Wireless.noteReport, List.map_map]
    refine List.map_congr_left fun sc _ => ?_
    simp only [Function.comp]
    split_ifs <;> rfl
  | _ => rfl

theorem procs_step (hp : Procs s) (h : step s e = some t) : Procs t := by
  have hshape := shape_of_step hp h
  generalize deed s e = a at hshape
  cases hshape with
  | idle agenda target => exact ⟨hp.cur, hp.timeout⟩
  | @call n d c agenda hd =>
    rw [Wireless.call]
    simp only [hd]
    have hnote : Procs { s with
        agenda := agenda, requests := s.noteRequest n c, scripts := s.noteReport n c } :=
      ⟨(map_noteReport n c).trans hp.cur, hp.timeout⟩
    exact procs_put hnote _ _
  | create data agenda hd => exact ⟨hp.cur, hp.timeout⟩
  | @run n op spawned hcur hop =>
    cases spawned with
    | true => exact ⟨by simp [Wireless.dispatch, hp.of_none hcur], rfl⟩
    | false =>
      exact procs_runHandlerCb (s := { s with cur := some (n, op), queue := s.queue.erase n })
        (hp.of_none hcur) rfl
  | ended hsc hcur => exact procs_runHandlerCb (s := { s with scripts := [] }) rfl hcur

/-- The runs of the system in which every step meets a condition. -/
abbrev Runs (ok : Wireless → Event → Prop) : Wireless → Prop :=
  Reaches (fun s => s = .initial) (fun s e t => step s e = some t) ok

theorem procs_initial : Procs .initial := ⟨rfl, rfl⟩

theorem reaches_procs {ok : Wireless → Event → Prop} (h : Runs ok s) : Procs s :=
  h.invariant (by rintro _ rfl; exact procs_initial) fun _ _ _ hp _ hst => procs_step hp hst

/-- The slot of a device that was never heard of. -/
def Slot.empty : Slot := ⟨none, none, none, none⟩

/-- The invariant rule for slots: it is enough to look at the deeds that can
happen in a step that meets the condition. -/
theorem slots_invariant {ok : Wireless → Event → Prop} {P : Name → Slot → Prop}
    (hempty : ∀ n, P n .empty)
    (hdeed : ∀ s e n a, ok s e → deed s e = some (n, a) → (s.slot n).Enabled a → P n (s.slot n) →
      P n ((s.slot n).apply e.env n a))
    (h : Runs ok s) (m : Name) : P m (s.slot m) := by
  have hall : Procs s ∧ ∀ m, P m (s.slot m) := by
    refine h.invariant (P := fun s => Procs s ∧ ∀ m, P m (s.slot m)) ?_ ?_
    · rintro _ rfl
      exact ⟨procs_initial, hempty⟩
    · rintro s e t ⟨hp, hP⟩ hok hst
      refine ⟨procs_step hp hst, fun m => ?_⟩
      rw [step_slot hp hst]
      cases ha : deed s e with
      | none => exact hP m
      | some na =>
        simp only
        split_ifs with hm
        · exact hm ▸ hdeed s e na.1 na.2 hok ha (enabled_of_step hp hst ha) (hP na.1)
        · exact hP m
  exact hall.2 m

end NeonWrt.Netifd
