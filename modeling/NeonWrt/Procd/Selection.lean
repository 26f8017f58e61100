import NeonWrt.Procd.Service

/-!
# Which units a command selects

The commands of neon-procd find units by name: `start_instance` stops the unit
of the name it is about to use, a command without an instance selects by a
wildcard, and `service_running` of `rc.common` asks for the instance `*` when
none is given. Each is meant for the units of one service or instance only.
This file says for which names that is so.

The separator between service and instance is a legal name character, and every
character outside `[A-Za-z0-9_.]` is written as a dash, so other services may be
hit; and the `*` of `rc.common` is itself written as a dash, so that it never
acts as a wildcard.
-/

namespace NeonWrt.Procd

open Lib

variable {out : Outcome} {s i t j : CStr} {w : World}

/-- `systemctl is-active --quiet`, with its exit status for inactive units. -/
def isActive (selects : TransientUnit → Bool) (w : World) : ℕ := if w.units.any selects then 0 else 3

/-- The wildcard of `cmd_running`. -/
def runningPattern (service : CStr) : Bytes := servicePattern 256 service

/-- `cmd_running`; an empty instance counts as none. -/
def cmdRunning (service : CStr) (inst : Option CStr) (w : World) : ℕ :=
  match inst with
  | some i =>
    if i.bytes ≠ [] then isActive (fun u => u.name = unitName service i) w
    else isActive (fun u => glob (runningPattern service) u.name) w
  | none => isActive (fun u => glob (runningPattern service) u.name) w

/-- The wildcard of `cmd_signal_json`. -/
def signalPattern (service : CStr) : Bytes := servicePattern 320 service

/-- The command line of `cmd_signal_json`; `none` when it gives up before. -/
def cmdSignalJson (o : Json) : Option (List Bytes) := do
  let service ← o.stringMember (CStr.lit "name")
  let signo := ((o.get? (CStr.lit "signal")).map Json.getInt).getD 15
  let target := match o.stringMember (CStr.lit "instance") with
    | some i => if i.bytes ≠ [] then unitName service i else signalPattern service
    | none => signalPattern service
  some [ascii "systemctl", ascii "kill", snprintf 32 (ascii "--signal=" ++ ascii (toString signo)),
    target]

/-- The wildcards that `cmd_delete`, `cmd_running` and `cmd_signal_json` build
for a service when no instance is given. -/
def wildcards (service : CStr) : List Bytes :=
  [deletePattern service, runningPattern service, signalPattern service]

/-- `procd_running` of procd.sh. -/
def procdRunning (service inst : CStr) (w : World) : ℕ := cmdRunning service (some inst) w

/-- The instance a caller of `service_running` names, if any. -/
def namedInstance : Option CStr → Option CStr
  | some i => if i.bytes = [] then none else some i
  | none => none

/-- `service_running` of rc.common, called from the init script `service`. -/
def serviceRunning (service : CStr) (arg : Option CStr) (w : World) : ℕ :=
  procdRunning service ((namedInstance arg).getD (CStr.lit "*")) w

/-- The pairs have different unit names, and starting the one leaves the unit of
the other alone. -/
def UnitsApart (s i t j : CStr) : Prop :=
  unitName s i ≠ unitName t j ∧ ∀ out inst w, (⟨t, j⟩ : TransientUnit) ∈ w.units →
    (⟨t, j⟩ : TransientUnit) ∈ (startInstance out s i inst w).1.units

/-- The services have different registry files, and neither setting nor deleting
the one touches the file of the other. -/
def RegistriesApart (s t : CStr) : Prop :=
  registryPath s ≠ registryPath t ∧ ∀ out root w,
    root.stringMember (CStr.lit "name") = some s →
      (cmdSet out root w).1.registry (registryPath t) = w.registry (registryPath t) ∧
      (cmdDeleteJson out root w).1.registry (registryPath t) = w.registry (registryPath t)

theorem mem_systemctlStop {u : TransientUnit} {name : Bytes} (hu : u ∈ w.units)
    (hname : u.name ≠ name) : u ∈ (systemctlStop out name w).1.units := by
  unfold systemctlStop
  split
  · exact hu
  · split
    · exact List.mem_filter.mpr ⟨hu, by simpa using hname⟩
    · exact hu

theorem mem_systemdRun {u v : TransientUnit} {argv : List Bytes} (hu : u ∈ w.units) :
    u ∈ (systemdRun out v argv w).1.units := by
  unfold systemdRun
  split
  · exact hu
  · split
    · exact List.mem_append_left _ hu
    · exact hu

/-- Starting an instance keeps every unit of another name. -/
theorem mem_startInstance {u : TransientUnit} {inst : Json} (hu : u ∈ w.units)
    (hname : u.name ≠ unitName s i) : u ∈ (startInstance out s i inst w).1.units := by
  unfold startInstance
  split
  · exact hu
  · dsimp only
    split
    · exact mem_systemctlStop hu hname
    · exact mem_systemdRun (mem_systemctlStop hu hname)

@[simp] theorem cmdDelete_registry (s : CStr) (inst : Option CStr) (w : World) :
    (cmdDelete out s inst w).1.registry = w.registry := by
  unfold cmdDelete
  split
  · split <;> simp
  · simp

theorem cmdSet_registry_of_ne {root : Json} (hname : root.stringMember (CStr.lit "name") = some s)
    (hpath : registryPath s ≠ registryPath t) :
    (cmdSet out root w).1.registry (registryPath t) = w.registry (registryPath t) := by
  simp only [cmdSet, hname, setLoop_registry, saveRegistry]
  split
  · simp [hpath.symm]
  · rfl

theorem cmdDeleteJson_registry_of_ne {o : Json}
    (hname : o.stringMember (CStr.lit "name") = some s)
    (hpath : registryPath s ≠ registryPath t) :
    (cmdDeleteJson out o w).1.registry (registryPath t) = w.registry (registryPath t) := by
  simp only [cmdDeleteJson, hname]
  split
  · simp [unlinkRegistry, hpath.symm]
  · simp

theorem unitsApart_iff : UnitsApart s i t j ↔ ¬ Clash s i t j := by
  constructor
  · rintro ⟨hne, -⟩ hclash
    exact hne ((unitName_eq_iff s i t j).mpr hclash)
  · intro hclash
    have hne : unitName s i ≠ unitName t j := fun h => hclash ((unitName_eq_iff s i t j).mp h)
    exact ⟨hne, fun out inst w hu => mem_startInstance hu hne.symm⟩

theorem registriesApart_iff : RegistriesApart s t ↔ ¬ Agree (shown s) (shown t) := by
  constructor
  · rintro ⟨hne, -⟩ hagree
    exact hne ((registryPath_eq_iff s t).mpr hagree)
  · intro hagree
    have hne : registryPath s ≠ registryPath t :=
      fun h => hagree ((registryPath_eq_iff s t).mp h)
    exact ⟨hne, fun out root w hname =>
      ⟨cmdSet_registry_of_ne hname hne, cmdDeleteJson_registry_of_ne hname hne⟩⟩

/-- Different pairs have units of their own, and different services registry
files of their own, exactly when their names neither clash nor agree. -/
theorem names_apart_iff (s i t j : CStr) :
    (((s, i) ≠ (t, j) → UnitsApart s i t j) ∧ (s ≠ t → RegistriesApart s t)) ↔
      ((s, i) ≠ (t, j) → ¬ Clash s i t j) ∧ (s ≠ t → ¬ Agree (shown s) (shown t)) := by
  rw [unitsApart_iff, registriesApart_iff]

/-- `a/b-c` and `a-b/c` share a unit. -/
theorem exists_names_not_apart :
    ¬ ∀ s i t j : CStr, (s, i) ≠ (t, j) → unitName s i ≠ unitName t j := by
  intro h
  exact h (CStr.lit "a") (CStr.lit "b-c") (CStr.lit "a-b") (CStr.lit "c") (by decide) (by decide)

theorem glob_wildcard_iff {pattern : Bytes} (hpattern : pattern ∈ wildcards s)
    (u : TransientUnit) : glob pattern u.name = true ↔ Covers s u.service u.inst := by
  simp only [wildcards, List.mem_cons, List.not_mem_nil, or_false] at hpattern
  rcases hpattern with rfl | rfl | rfl
  · exact glob_servicePattern_iff (by decide) _ _ _
  · exact glob_servicePattern_iff (by decide) _ _ _
  · exact glob_servicePattern_iff (by decide) _ _ _

/-- The wildcards of a service select exactly its own units among the given ones
exactly when they cover no unit of another service. -/
theorem wildcards_select_iff (a : CStr) (units : List TransientUnit) :
    (∀ pattern ∈ wildcards a, ∀ u ∈ units, (glob pattern u.name = true ↔ u.service = a)) ↔
      ∀ u ∈ units, u.service ≠ a → ¬ Covers a u.service u.inst := by
  constructor
  · intro h u hu hother hcovers
    have hmem : deletePattern a ∈ wildcards a := by simp [wildcards]
    exact hother ((h _ hmem u hu).mp ((glob_wildcard_iff hmem u).mpr hcovers))
  · intro h pattern hpattern u hu
    rw [glob_wildcard_iff hpattern]
    constructor
    · intro hcovers
      by_contra hother
      exact h u hu hother hcovers
    · rintro rfl
      exact covers_self _ _

/-- The wildcard of `foo` selects a unit of `foo-bar`. -/
theorem exists_wildcard_selecting_other :
    ¬ ∀ (a : CStr) (units : List TransientUnit), ∀ pattern ∈ wildcards a, ∀ u ∈ units,
      (glob pattern u.name = true ↔ u.service = a) := by
  intro h
  have hmem : deletePattern (CStr.lit "foo") ∈ wildcards (CStr.lit "foo") := by simp [wildcards]
  have hfoo := h (CStr.lit "foo") [⟨CStr.lit "foo-bar", CStr.lit "instance1"⟩] _ hmem _
    List.mem_cons_self
  have hglob : glob (deletePattern (CStr.lit "foo"))
      (TransientUnit.name ⟨CStr.lit "foo-bar", CStr.lit "instance1"⟩) = true := by decide
  exact absurd (hfoo.mp hglob) (by decide)

/-- What `service_running` is asked: whether the named instance is active, or any
instance when none is named. -/
def AskedFor (service : CStr) (arg : Option CStr) (w : World) : Prop :=
  match namedInstance arg with
  | none => ∃ u ∈ w.units, u.service = service
  | some i => (⟨service, i⟩ : TransientUnit) ∈ w.units

/-- The active units for which the answer is right. With an instance, no other
active unit clashes with it while its own is inactive. Without one, an active
unit of the service needs some active unit that clashes with an instance `*`, and
such a clash an active unit of the service. -/
def RunningOk (service : CStr) (arg : Option CStr) (w : World) : Prop :=
  match namedInstance arg with
  | none =>
    (∀ u ∈ w.units, u.service = service →
      ∃ v ∈ w.units, Clash v.service v.inst service (CStr.lit "*")) ∧
    ∀ u ∈ w.units, Clash u.service u.inst service (CStr.lit "*") →
      ∃ v ∈ w.units, v.service = service
  | some i => ∀ u ∈ w.units, Clash u.service u.inst service i →
      (⟨service, i⟩ : TransientUnit) ∈ w.units

/-- With a non-empty instance, `cmd_running` asks for the units that clash with it. -/
theorem cmdRunning_some_iff (service : CStr) {i : CStr} (hi : i.bytes ≠ []) :
    cmdRunning service (some i) w = 0 ↔ ∃ u ∈ w.units, Clash u.service u.inst service i := by
  simp only [cmdRunning, hi, isActive, ne_eq, not_false_eq_true, if_true, ite_eq_left_iff,
    OfNat.ofNat_ne_zero, imp_false, not_not, List.any_eq_true]
  apply exists_congr
  intro u
  apply and_congr_right
  intro _
  rw [decide_eq_true_iff]
  exact unitName_eq_iff _ _ _ _

theorem namedInstance_ne_nil {arg : Option CStr} (h : namedInstance arg = some i) :
    i.bytes ≠ [] := by
  unfold namedInstance at h
  split at h
  · split at h
    · simp at h
    next hi => exact Option.some_inj.mp h ▸ hi
  · simp at h

/-- `service_running` answers what it is asked exactly for the units that are ok. -/
theorem serviceRunning_iff (service : CStr) (arg : Option CStr) (w : World) :
    (serviceRunning service arg w = 0 ↔ AskedFor service arg w) ↔ RunningOk service arg w := by
  unfold serviceRunning procdRunning AskedFor RunningOk
  cases harg : namedInstance arg with
  | none =>
    rw [Option.getD_none, cmdRunning_some_iff service (by decide)]
    constructor
    · intro h
      exact ⟨fun u hu hs => h.mpr ⟨u, hu, hs⟩, fun u hu hclash => h.mp ⟨u, hu, hclash⟩⟩
    · rintro ⟨hown, hclash⟩
      constructor
      · rintro ⟨u, hu, h⟩
        exact hclash u hu h
      · rintro ⟨u, hu, h⟩
        exact hown u hu h
  | some i =>
    rw [Option.getD_some, cmdRunning_some_iff service (namedInstance_ne_nil harg)]
    constructor
    · intro h u hu hclash
      exact h.mp ⟨u, hu, hclash⟩
    · intro h
      constructor
      · rintro ⟨u, hu, hclash⟩
        exact h u hu hclash
      · intro hown
        exact ⟨_, hown, clash_self _ _⟩

/-- With one instance of `ntpd` active, `service_running` says it is not. -/
theorem exists_serviceRunning_wrong :
    ¬ ∀ service arg w, serviceRunning service arg w = 0 ↔ AskedFor service arg w := by
  intro h
  have hasked : AskedFor (CStr.lit "ntpd") none
      ⟨[⟨CStr.lit "ntpd", CStr.lit "instance1"⟩], fun _ => none⟩ :=
    ⟨_, List.mem_cons_self, rfl⟩
  exact absurd ((h _ _ _).mpr hasked) (by decide)

end NeonWrt.Procd
