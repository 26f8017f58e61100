import NeonWrt.Lib.Run
import NeonWrt.Procd.Instance

/-!
# Service registry and transient units

neon-procd keeps the last accepted definition of a service in a registry file
and the instances of the service as transient systemd units. The two are
changed by different commands: `set` rewrites the file and starts the instances
it names, `delete` stops units, `delete-json` stops units and may remove the
file. This file models the commands over a `World` of active units and registry
files, and asks when every active unit belongs to a listed instance.

It does not hold of every run: `set` leaves the units of instances it no longer
names alone, and `procd.sh` passes the method `add` of `rc.common` on as a plain
`set`. The runs for which it does hold are those whose `set`s name, or replace,
every active unit that shares their registry file (`OpOk`).
-/

namespace NeonWrt.Procd

open Lib

/-- A transient unit, known by the pair it was created for. -/
structure TransientUnit where
  service : CStr
  inst : CStr
  deriving DecidableEq

/-- The name systemd knows the unit by. -/
def TransientUnit.name (u : TransientUnit) : Bytes := unitName u.service u.inst

/-- The active transient units, and the registry files by path. -/
structure World where
  units : List TransientUnit
  registry : Bytes → Option Json

/-- No units and no registry files. -/
def World.empty : World := ⟨[], fun _ => none⟩

/-- What the surroundings make of one command: which units systemd manages to
stop, the exit status of each `systemd-run`, and whether the registry is saved. -/
structure Outcome where
  stops : TransientUnit → Bool
  runs : List Bytes → ℕ
  saved : Bool

variable (out : Outcome)

/-- `systemctl stop` of one unit; 5 is its exit status for an unknown unit. -/
def systemctlStop (name : Bytes) (w : World) : World × ℕ :=
  match w.units.find? fun u => u.name = name with
  | none => (w, 5)
  | some u =>
    if out.stops u then ({ w with units := w.units.filter fun v => v.name ≠ name }, 0) else (w, 1)

/-- `systemctl stop` of a wildcard. -/
def systemctlStopGlob (pattern : Bytes) (w : World) : World × ℕ :=
  ({ w with units := w.units.filter fun u => !(glob pattern u.name && out.stops u) },
    if (w.units.filter fun u => glob pattern u.name).all out.stops then 0 else 1)

/-- `systemd-run`, which refuses a name that is taken. -/
def systemdRun (u : TransientUnit) (argv : List Bytes) (w : World) : World × ℕ :=
  if w.units.any fun v => v.name = u.name then (w, 1)
  else if out.runs argv = 0 then ({ w with units := w.units ++ [u] }, 0)
  else (w, out.runs argv)

/-- The command words of an instance; `none` when `start_instance` skips it. -/
def command? (inst : Json) : Option (List Json) :=
  match inst.get? (CStr.lit "command") with
  | some (.arr (word :: words)) => some (word :: words)
  | _ => none

/-- `start_instance`; the status is `none` when the process ends inside it. -/
def startInstance (service iname : CStr) (inst : Json) (w : World) : World × Option ℕ :=
  match command? inst with
  | none => (w, some 0)
  | some cmd =>
    let unit := unitName service iname
    let stopped := (systemctlStop out unit w).1
    match startArgv service unit inst cmd with
    | none => (stopped, none)
    | some argv =>
      let started := systemdRun out ⟨service, iname⟩ argv stopped
      (started.1, some started.2)

/-- The loop of `cmd_set` over the instances. -/
def setLoop (service : CStr) : List (CStr × Json) → World → ℕ → World × ℕ
  | [], w, rc => (w, rc)
  | (iname, inst) :: rest, w, rc =>
    match startInstance out service iname inst w with
    | (w', none) => (w', 1)
    | (w', some r) => setLoop service rest w' (if r ≠ 0 ∧ rc = 0 then r else rc)

/-- `save_registry`. -/
def saveRegistry (service : CStr) (root : Json) (w : World) : World :=
  if out.saved then
    { w with registry := fun p => if p = registryPath service then some root else w.registry p }
  else w

/-- The instances of a definition, in order. -/
def instances (root : Json) : List (CStr × Json) :=
  match root.get? (CStr.lit "instances") with
  | some (.obj members) => members
  | _ => []

/-- `cmd_set`, on the value parsed from its input (null if that is no JSON). A
registry that cannot be saved is only warned about. -/
def cmdSet (root : Json) (w : World) : World × ℕ :=
  match root.stringMember (CStr.lit "name") with
  | none => (w, 1)
  | some service => setLoop out service (instances root) (saveRegistry out service root w) 0

/-- The wildcard of `cmd_delete`. -/
def deletePattern (service : CStr) : Bytes := servicePattern 256 service

/-- `cmd_delete`; an empty instance counts as none. -/
def cmdDelete (service : CStr) (inst : Option CStr) (w : World) : World × ℕ :=
  match inst with
  | some i =>
    if i.bytes ≠ [] then systemctlStop out (unitName service i) w
    else systemctlStopGlob out (deletePattern service) w
  | none => systemctlStopGlob out (deletePattern service) w

/-- `unlink` of a service's registry file. -/
def unlinkRegistry (service : CStr) (w : World) : World :=
  { w with registry := fun p => if p = registryPath service then none else w.registry p }

/-- `cmd_delete_json`. -/
def cmdDeleteJson (o : Json) (w : World) : World × ℕ :=
  match o.stringMember (CStr.lit "name") with
  | none => (w, 1)
  | some service =>
    let inst := o.stringMember (CStr.lit "instance")
    let deleted := cmdDelete out service inst w
    if inst.all fun i => i.bytes = [] then (unlinkRegistry service deleted.1, deleted.2)
    else deleted

/-- The method `rc_procd` chooses. -/
inductive Method where
  | set
  | add
  deriving DecidableEq

/-- `rc_procd` chooses `add` when the start names an instance. -/
def rcMethod (arg : Option CStr) : Method :=
  if arg.any fun i => i.bytes ≠ [] then .add else .set

/-- `_procd_close_service`: whichever method it is given, it issues a `set`. -/
def procdCloseService (_method : Method) (root : Json) (w : World) : World × ℕ := cmdSet out root w

/-- The operations on registry and units. A unit may also end by itself. -/
inductive Op where
  | set (root : Json)
  | rcStart (arg : Option CStr) (root : Json)
  | delete (service : CStr) (inst : Option CStr)
  | deleteJson (o : Json)
  | ends (u : TransientUnit)

/-- One operation, with its exit status. -/
def Op.exec : Op → World → World × ℕ
  | .set root, w => cmdSet out root w
  | .rcStart arg root, w => procdCloseService out (rcMethod arg) root w
  | .delete service inst, w => cmdDelete out service inst w
  | .deleteJson o, w => cmdDeleteJson out o w
  | .ends u, w => ({ w with units := w.units.filter (· ≠ u) }, 0)

/-- An operation that completes successfully. -/
def Step (w : World) (a : Outcome × Op) (w' : World) : Prop := a.2.exec a.1 w = (w', 0)

/-- Instance `i` is listed in the current registry entry of service `s`. -/
def Listed (w : World) (s i : CStr) : Prop :=
  ∃ root, w.registry (registryPath s) = some root ∧
    root.stringMember (CStr.lit "name") = some s ∧ i ∈ (instances root).map Prod.fst

/-- Every active unit belongs to a listed instance. -/
def Agreement (w : World) : Prop := ∀ u ∈ w.units, Listed w u.service u.inst

/-- A start of one instance keeps the other instances of the service listed. -/
def AddKeeps (w : World) (a : Outcome × Op) (w' : World) : Prop :=
  ∀ arg root s, a.2 = .rcStart arg root → rcMethod arg = .add →
    root.stringMember (CStr.lit "name") = some s → ∀ i, Listed w s i → Listed w' s i

/-- The definition names the unit, or gives its unit name to another instance. -/
def Accounts (root : Json) (s : CStr) (u : TransientUnit) : Prop :=
  (u.service = s ∧ u.inst ∈ (instances root).map Prod.fst) ∨
    ∃ m ∈ instances root, (command? m.2).isSome ∧ Clash s m.1 u.service u.inst

/-- A `set` of a definition is saved, and accounts for every active unit whose
service shares the registry file. -/
def SetOk (w : World) (root : Json) : Prop :=
  out.saved = true ∧ ∀ s, root.stringMember (CStr.lit "name") = some s →
    ∀ u ∈ w.units, registryPath u.service = registryPath s → Accounts root s u

/-- The condition on an operation and the state it is made in: a `set` accounts
for the active units, and a start of one instance names what is listed. -/
def OpOk (w : World) (a : Outcome × Op) : Prop :=
  match a.2 with
  | .set root => SetOk a.1 w root
  | .rcStart arg root => SetOk a.1 w root ∧ (rcMethod arg = .add →
      ∀ s, root.stringMember (CStr.lit "name") = some s →
        ∀ i, Listed w s i → i ∈ (instances root).map Prod.fst)
  | _ => True

variable {out}

theorem systemctlStop_units_sublist (name : Bytes) (w : World) :
    ∀ v ∈ (systemctlStop out name w).1.units, v ∈ w.units := by
  intro v hv
  unfold systemctlStop at hv
  split at hv
  · exact hv
  · split at hv
    · exact (List.mem_filter.mp hv).1
    · exact hv

@[simp] theorem systemctlStop_registry (name : Bytes) (w : World) :
    (systemctlStop out name w).1.registry = w.registry := by
  unfold systemctlStop
  split
  · rfl
  · split <;> rfl

@[simp] theorem systemctlStopGlob_registry (pattern : Bytes) (w : World) :
    (systemctlStopGlob out pattern w).1.registry = w.registry := rfl

theorem systemctlStopGlob_units_sublist (pattern : Bytes) (w : World) :
    ∀ v ∈ (systemctlStopGlob out pattern w).1.units, v ∈ w.units :=
  fun _ hv => (List.mem_filter.mp hv).1

/-- A wildcard stop that succeeds leaves no unit that the wildcard matches. -/
theorem systemctlStopGlob_success {pattern : Bytes} {w w' : World}
    (h : systemctlStopGlob out pattern w = (w', 0)) :
    ∀ v ∈ w'.units, v ∈ w.units ∧ glob pattern v.name = false := by
  simp only [systemctlStopGlob, Prod.mk.injEq, ite_eq_left_iff, one_ne_zero, imp_false,
    not_not, List.all_eq_true, List.mem_filter] at h
  obtain ⟨rfl, hstops⟩ := h
  intro v hv
  obtain ⟨hmem, hkept⟩ := List.mem_filter.mp hv
  refine ⟨hmem, ?_⟩
  by_contra hglob
  rw [Bool.not_eq_false] at hglob
  simp [hglob, hstops v ⟨hmem, hglob⟩] at hkept

/-- A `systemd-run` that succeeds found its name free and adds the unit. -/
theorem systemdRun_success {u : TransientUnit} {argv : List Bytes} {w : World}
    (h : (systemdRun out u argv w).2 = 0) :
    (∀ v ∈ w.units, v.name ≠ u.name) ∧
      (systemdRun out u argv w).1 = { w with units := w.units ++ [u] } := by
  unfold systemdRun at h ⊢
  split at h
  next => simp at h
  next hfree =>
    split at h
    next hrun =>
      refine ⟨fun v hv hname => hfree ?_, by simp [hfree, hrun]⟩
      exact List.any_eq_true.mpr ⟨v, hv, by simpa using hname⟩
    next hrun => exact absurd h hrun

/-- A start that succeeds either skips the instance, or leaves no earlier unit of
the name and adds the unit of the instance. -/
theorem startInstance_success {s i : CStr} {inst : Json} {w w' : World}
    (h : startInstance out s i inst w = (w', some 0)) :
    w'.registry = w.registry ∧ ∀ v ∈ w'.units,
      (v ∈ w.units ∧ ((command? inst).isSome → v.name ≠ unitName s i)) ∨
        (v = ⟨s, i⟩ ∧ (command? inst).isSome) := by
  unfold startInstance at h
  split at h
  next hcmd =>
    obtain ⟨rfl, -⟩ := Prod.mk.inj h
    exact ⟨rfl, fun v hv => Or.inl ⟨hv, by simp [hcmd]⟩⟩
  next cmd hcmd =>
    dsimp only at h
    split at h
    next => simp at h
    next argv _ =>
      obtain ⟨rfl, hrc⟩ := Prod.mk.inj h
      obtain ⟨hfree, hrun⟩ := systemdRun_success (Option.some_inj.mp hrc)
      rw [hrun]
      refine ⟨systemctlStop_registry _ _, fun v hv => ?_⟩
      rcases List.mem_append.mp hv with hv | hv
      · exact Or.inl ⟨systemctlStop_units_sublist _ _ v hv, fun _ => hfree v hv⟩
      · exact Or.inr ⟨List.mem_singleton.mp hv, by simp [hcmd]⟩

/-! The registry changes only where a command saves or deletes a definition. -/

@[simp] theorem systemdRun_registry (u : TransientUnit) (argv : List Bytes) (w : World) :
    (systemdRun out u argv w).1.registry = w.registry := by
  unfold systemdRun
  split
  · rfl
  · split <;> rfl

@[simp] theorem startInstance_registry (s i : CStr) (inst : Json) (w : World) :
    (startInstance out s i inst w).1.registry = w.registry := by
  unfold startInstance
  split
  · rfl
  · dsimp only
    split <;> simp

@[simp] theorem setLoop_registry (s : CStr) (members : List (CStr × Json)) (w : World) (rc : ℕ) :
    (setLoop out s members w rc).1.registry = w.registry := by
  induction members generalizing w rc with
  | nil => rfl
  | cons m rest ih =>
    have hstart := @startInstance_registry out s m.1 m.2 w
    simp only [setLoop]
    split
    next w₁ h =>
      rw [h] at hstart
      exact hstart
    next w₁ r h =>
      rw [h] at hstart
      rw [ih]
      exact hstart

/-- The loop keeps a failure it has recorded. -/
theorem setLoop_rc_ne_zero (s : CStr) (members : List (CStr × Json)) (w : World) {rc : ℕ}
    (hrc : rc ≠ 0) : (setLoop out s members w rc).2 ≠ 0 := by
  induction members generalizing w with
  | nil => exact hrc
  | cons m rest ih =>
    simp only [setLoop]
    split
    · exact one_ne_zero
    · simp only [hrc, and_false, if_false]
      exact ih _

/-- After a loop that succeeds, a unit is either an earlier one whose name no
started instance took, or belongs to an instance of the definition. -/
theorem setLoop_success {s : CStr} {members : List (CStr × Json)} {w w' : World}
    (h : setLoop out s members w 0 = (w', 0)) :
    w'.registry = w.registry ∧ ∀ v ∈ w'.units,
      (v ∈ w.units ∧ ∀ m ∈ members, (command? m.2).isSome → v.name ≠ unitName s m.1) ∨
        (v.service = s ∧ v.inst ∈ members.map Prod.fst) := by
  induction members generalizing w with
  | nil =>
    obtain ⟨rfl, -⟩ := Prod.mk.inj h
    exact ⟨rfl, fun v hv => Or.inl ⟨hv, by simp⟩⟩
  | cons m rest ih =>
    simp only [setLoop] at h
    split at h
    · simp at h
    next w₁ r hstart =>
      by_cases hr : r = 0
      · subst hr
        obtain ⟨hreg, hunits⟩ := startInstance_success hstart
        simp only [ne_eq, not_true_eq_false, false_and, if_false] at h
        obtain ⟨hreg', hunits'⟩ := ih h
        refine ⟨hreg'.trans hreg, fun v hv => ?_⟩
        rcases hunits' v hv with ⟨hv₁, hnames⟩ | ⟨hs, hi⟩
        · rcases hunits v hv₁ with ⟨hw, hname⟩ | ⟨rfl, -⟩
          · refine Or.inl ⟨hw, fun m' hm' => ?_⟩
            rcases List.mem_cons.mp hm' with rfl | hrest
            · exact hname
            · exact hnames m' hrest
          · exact Or.inr ⟨rfl, by simp⟩
        · exact Or.inr ⟨hs, by simp [hi]⟩
      · have hrc := @setLoop_rc_ne_zero out s rest w₁ _ hr
        simp only [ne_eq, hr, not_false_eq_true, and_self, if_true] at h
        rw [h] at hrc
        exact absurd rfl hrc

theorem Listed.of_registry_eq {w w' : World} {s i : CStr} (h : Listed w s i)
    (hreg : w'.registry (registryPath s) = w.registry (registryPath s)) : Listed w' s i := by
  obtain ⟨root, hroot, hrest⟩ := h
  exact ⟨root, hreg.trans hroot, hrest⟩

theorem Agreement.of_units_subset {w w' : World} (h : Agreement w)
    (hreg : w'.registry = w.registry) (hunits : ∀ u ∈ w'.units, u ∈ w.units) : Agreement w' :=
  fun u hu => (h u (hunits u hu)).of_registry_eq (by rw [hreg])

/-- After a saved `set` that succeeds, its instances are the listed ones. -/
theorem cmdSet_listed {root : Json} {s : CStr} {w w' : World} (hsaved : out.saved = true)
    (hname : root.stringMember (CStr.lit "name") = some s) (h : cmdSet out root w = (w', 0)) :
    (∀ i ∈ (instances root).map Prod.fst, Listed w' s i) ∧
      ∀ t i, registryPath t ≠ registryPath s → Listed w t i → Listed w' t i := by
  simp only [cmdSet, hname] at h
  obtain ⟨hreg, -⟩ := setLoop_success h
  constructor
  · intro i hi
    exact ⟨root, by rw [hreg]; simp [saveRegistry, hsaved], hname, hi⟩
  · intro t i hpath hlisted
    exact hlisted.of_registry_eq (by rw [hreg]; simp [saveRegistry, hsaved, hpath])

/-- A `set` that accounts for the active units keeps the agreement. -/
theorem cmdSet_agreement {root : Json} {w w' : World} (hw : Agreement w) (hok : SetOk out w root)
    (h : cmdSet out root w = (w', 0)) : Agreement w' := by
  obtain ⟨hsaved, haccounts⟩ := hok
  cases hname : root.stringMember (CStr.lit "name") with
  | none => simp [cmdSet, hname] at h
  | some s =>
    obtain ⟨hnew, hother⟩ := cmdSet_listed hsaved hname h
    simp only [cmdSet, hname] at h
    obtain ⟨-, hunits⟩ := setLoop_success h
    intro u hu
    rcases hunits u hu with ⟨hold, hnames⟩ | ⟨rfl, hi⟩
    · have hmem : u ∈ w.units := by
        unfold saveRegistry at hold
        split at hold <;> exact hold
      by_cases hpath : registryPath u.service = registryPath s
      · rcases haccounts s hname u hmem hpath with ⟨rfl, hi⟩ | ⟨m, hm, hcmd, hclash⟩
        · exact hnew _ hi
        · exact absurd ((unitName_eq_iff _ _ _ _).mpr hclash).symm (hnames m hm hcmd)
      · exact hother _ _ hpath (hw u hmem)
    · exact hnew _ hi

/-- Deleting a service stops every unit whose registry file it may remove. -/
theorem cmdDelete_agreement {service : CStr} {inst : Option CStr} {w w' : World}
    (hw : Agreement w) (h : cmdDelete out service inst w = (w', 0)) : Agreement w' := by
  have hstop (name : Bytes) (hs : systemctlStop out name w = (w', 0)) : Agreement w' := by
    have heq : w' = (systemctlStop out name w).1 := by rw [hs]
    rw [heq]
    exact hw.of_units_subset (systemctlStop_registry _ _) (systemctlStop_units_sublist _ _)
  have hglob (pattern : Bytes) (hs : systemctlStopGlob out pattern w = (w', 0)) :
      Agreement w' := by
    have heq : w' = (systemctlStopGlob out pattern w).1 := by rw [hs]
    rw [heq]
    exact hw.of_units_subset rfl (systemctlStopGlob_units_sublist _ _)
  unfold cmdDelete at h
  split at h
  · split at h
    · exact hstop _ h
    · exact hglob _ h
  · exact hglob _ h

theorem cmdDeleteJson_agreement {o : Json} {w w' : World} (hw : Agreement w)
    (h : cmdDeleteJson out o w = (w', 0)) : Agreement w' := by
  unfold cmdDeleteJson at h
  split at h
  next => simp at h
  next service _ =>
    dsimp only at h
    split at h
    next hempty =>
      -- No instance is given, so the wildcard form of `cmd_delete` runs first.
      have hdel : cmdDelete out service (o.stringMember (CStr.lit "instance")) w =
          systemctlStopGlob out (deletePattern service) w := by
        unfold cmdDelete
        split
        next i hi =>
          rw [hi] at hempty
          simp only [Option.all_some, decide_eq_true_eq] at hempty
          simp [hempty]
        next => rfl
      obtain ⟨rfl, hrc⟩ := Prod.mk.inj h
      rw [hdel] at hrc ⊢
      have hsucc := systemctlStopGlob_success (Prod.ext rfl hrc)
      intro u hu
      obtain ⟨hmem, hmiss⟩ := hsucc u hu
      refine (hw u hmem).of_registry_eq ?_
      have hpath : registryPath u.service ≠ registryPath service := by
        intro hpath
        have hcov := covers_of_registryPath_eq hpath.symm u.inst
        have hhit : glob (deletePattern service) (unitName u.service u.inst) = true :=
          (glob_servicePattern_iff (le_refl 256) service u.service u.inst).mpr hcov
        rw [TransientUnit.name, hhit] at hmiss
        exact absurd hmiss (by simp)
      simp [unlinkRegistry, hpath]
    next => exact cmdDelete_agreement hw h

theorem Step.agreement {w w' : World} {a : Outcome × Op} (hw : Agreement w) (hok : OpOk w a)
    (h : Step w a w') : Agreement w' := by
  obtain ⟨out, op⟩ := a
  cases op with
  | set root => exact cmdSet_agreement hw hok h
  | rcStart arg root => exact cmdSet_agreement hw hok.1 h
  | delete service inst => exact cmdDelete_agreement hw h
  | deleteJson o => exact cmdDeleteJson_agreement hw h
  | ends u =>
    obtain ⟨rfl, -⟩ := Prod.mk.inj h
    exact hw.of_units_subset rfl fun v hv => (List.mem_filter.mp hv).1

/-- A start of one instance that names what is listed keeps it listed. -/
theorem Step.addKeeps {w w' : World} {a : Outcome × Op} (hok : OpOk w a) (h : Step w a w') :
    AddKeeps w a w' := by
  obtain ⟨out, op⟩ := a
  rintro arg root s rfl hadd hname i hlisted
  obtain ⟨⟨hsaved, -⟩, hnames⟩ := hok
  exact (cmdSet_listed hsaved hname h).1 i (hnames hadd s hname i hlisted)

/-- In every run whose operations account for the active units, every active unit
belongs to a listed instance, and a start of one instance keeps the others listed. -/
theorem registry_agrees_with_units {w : World}
    (h : Reaches (· = World.empty) Step OpOk w) :
    Agreement w ∧ ∀ a w', OpOk w a → Step w a w' → AddKeeps w a w' := by
  refine ⟨h.invariant ?_ fun _ _ _ hw hok hst => hst.agreement hw hok,
    fun _ _ hok hst => hst.addKeeps hok⟩
  rintro _ rfl u hu
  simp [World.empty] at hu

/-! ### Two short runs

The service `ntpd` is started with two instances, and then one of them alone. -/

/-- A definition of `ntpd` with the given instances. -/
def ntpdWith (names : List String) : Json :=
  .obj [(CStr.lit "name", .str (ascii "ntpd")),
    (CStr.lit "instances", .obj (names.map fun n =>
      (CStr.lit n, .obj [(CStr.lit "command", .arr [.str (ascii "/usr/sbin/ntpd")])])))]

/-- Every call succeeds. -/
def allSucceed : Outcome := ⟨fun _ => true, fun _ => 0, true⟩

/-- The start of both instances. -/
def startBoth : Outcome × Op := (allSucceed, .rcStart none (ntpdWith ["main", "aux"]))

/-- The later start of `main` alone. -/
def startMain : Outcome × Op :=
  (allSucceed, .rcStart (some (CStr.lit "main")) (ntpdWith ["main"]))

/-- After `startBoth`. -/
def worldBoth : World := (startBoth.2.exec allSucceed World.empty).1

/-- After `startBoth` and `startMain`. -/
def worldMain : World := (startMain.2.exec allSucceed worldBoth).1

theorem step_startBoth : Step World.empty startBoth worldBoth := Prod.ext rfl (by decide)

theorem step_startMain : Step worldBoth startMain worldMain := Prod.ext rfl (by decide)

theorem opOk_startBoth : OpOk World.empty startBoth := by
  refine ⟨⟨rfl, fun s _ u hu => ?_⟩, fun hadd => ?_⟩
  · simp [World.empty] at hu
  · exact absurd hadd (by decide)

/-- The start of both instances is a run that meets the condition, and it has
something to agree on. -/
theorem worldBoth_agrees : worldBoth.units ≠ [] ∧ Agreement worldBoth :=
  ⟨by decide, (registry_agrees_with_units
    (.next startBoth (.start rfl) opOk_startBoth step_startBoth)).1⟩

/-- Starting `main` alone leaves the unit of `aux` running and unlisted. -/
theorem exists_run_without_agreement :
    ¬ ∀ w, Reaches (· = World.empty) Step (fun _ _ => True) w → Agreement w := by
  intro h
  have hrun : Reaches (· = World.empty) Step (fun _ _ => True) worldMain :=
    .next startMain (.next startBoth (.start rfl) trivial step_startBoth) trivial step_startMain
  have haux : (⟨CStr.lit "ntpd", CStr.lit "aux"⟩ : TransientUnit) ∈ worldMain.units := by decide
  obtain ⟨root, hroot, -, hlisted⟩ := h _ hrun _ haux
  have hnow : worldMain.registry (registryPath (CStr.lit "ntpd")) = some (ntpdWith ["main"]) := rfl
  rw [hnow, Option.some_inj] at hroot
  subst hroot
  exact absurd hlisted (by decide)

end NeonWrt.Procd
