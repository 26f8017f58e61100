import NeonWrt.Procd.Service

/-!
# A set that runs out of arguments

`add_arg` ends the process when the argument vector of an instance is full. By
then `cmd_set` has saved the new definition, and `start_instance` has stopped
the unit that stood under the name of the instance. This file lists what a `set`
stops, and says when a definition that overflows leaves the service as it was.
-/

namespace NeonWrt.Procd

open Lib

variable (out : Outcome)

/-- The command words before the first that is no string. -/
def stringWords (cmd : List Json) : List Json := cmd.takeWhile fun word => word.getString.isSome

/-- The argument vector of the instance is completed, or the instance is skipped. -/
def Fits (s : CStr) (m : CStr × Json) : Prop :=
  ∀ cmd, command? m.2 = some cmd → (startArgv s (unitName s m.1) m.2 cmd).isSome

/-- The argument vector of the instance runs into the limit. -/
def Overflows (s : CStr) (m : CStr × Json) : Prop :=
  ∃ cmd, command? m.2 = some cmd ∧ startArgv s (unitName s m.1) m.2 (stringWords cmd) = none

theorem startArgv_append (s : CStr) (unit : Bytes) (inst : Json) (xs ys : List Json) :
    startArgv s unit inst (xs ++ ys) = (startArgv s unit inst xs).bind fun argv =>
      ys.foldlM (fun argv word => addString argv word.getString) argv := by
  rw [startArgv_eq, startArgv_eq]
  simp only [List.foldlM_append]
  exact (Option.bind_assoc _ _ _).symm

/-- More words do not complete a vector that is full. -/
theorem Overflows.startArgv_eq_none {s : CStr} {m : CStr × Json} (h : Overflows s m) :
    ∃ cmd, command? m.2 = some cmd ∧ startArgv s (unitName s m.1) m.2 cmd = none := by
  obtain ⟨cmd, hcmd, hfull⟩ := h
  refine ⟨cmd, hcmd, ?_⟩
  rw [← List.takeWhile_append_dropWhile (p := fun word => word.getString.isSome) (l := cmd),
    startArgv_append]
  exact congrArg (fun o : Option (List Bytes) => o.bind _) hfull

/-- The units that one `systemctl stop` stops. -/
def stoppedBy (name : Bytes) (w : World) : List TransientUnit :=
  w.units.filter (· ∉ (systemctlStop out name w).1.units)

/-- The units that the loop of `cmd_set` stops, in order. -/
def loopStops (service : CStr) : List (CStr × Json) → World → List TransientUnit
  | [], _ => []
  | m :: rest, w =>
    (if (command? m.2).isSome then stoppedBy out (unitName service m.1) w else []) ++
      match startInstance out service m.1 m.2 w with
      | (_, none) => []
      | (w', some _) => loopStops service rest w'

/-- The units that a `set` stops, in order. -/
def setStops (root : Json) (w : World) : List TransientUnit :=
  match root.stringMember (CStr.lit "name") with
  | none => []
  | some service => loopStops out service (instances root) (saveRegistry out service root w)

/-! ### One name at a time

A start only touches the units of one name, so the loop can be followed for each
name alone. -/

/-- The active units of a name. -/
def World.named (w : World) (name : Bytes) : List TransientUnit :=
  w.units.filter fun u => u.name = name

/-- The unit systemd finds first under the name is one that it stops. -/
def Stoppable (us : List TransientUnit) : Prop := ∃ u ∈ us.head?, out.stops u = true

instance (us : List TransientUnit) : Decidable (Stoppable out us) :=
  inferInstanceAs (Decidable (∃ u ∈ us.head?, out.stops u = true))

/-- The instance has a command, and its unit is called `name`. -/
def Takes (s : CStr) (name : Bytes) (m : CStr × Json) : Prop :=
  (command? m.2).isSome ∧ unitName s m.1 = name

instance (s : CStr) (name : Bytes) (m : CStr × Json) : Decidable (Takes s name m) :=
  inferInstanceAs (Decidable (_ ∧ _))

/-- systemd accepts the start of the instance under a free name. -/
def Accepted (s : CStr) (m : CStr × Json) : Prop :=
  ∃ cmd ∈ command? m.2, ∃ argv ∈ startArgv s (unitName s m.1) m.2 cmd, out.runs argv = 0

instance (s : CStr) (m : CStr × Json) : Decidable (Accepted out s m) :=
  inferInstanceAs (Decidable (∃ cmd ∈ command? m.2, _))

/-- What a start under the name makes of the units of that name. -/
def afterStart (s : CStr) (m : CStr × Json) (us : List TransientUnit) :
    List TransientUnit :=
  if us ≠ [] ∧ ¬ Stoppable out us then us
  else if Accepted out s m then [⟨s, m.1⟩] else []

variable {out}

theorem World.mem_named {w : World} {name : Bytes} {u : TransientUnit} :
    u ∈ w.named name ↔ u ∈ w.units ∧ u.name = name := by
  simp [World.named]

theorem stoppable_named {w : World} {name : Bytes} :
    Stoppable out (w.named name) ↔
      ∃ u, w.units.find? (fun u => u.name = name) = some u ∧ out.stops u = true := by
  simp [Stoppable, World.named, List.head?_filter]

theorem not_stoppable_nil : ¬ Stoppable out [] := by
  simp [Stoppable]

@[simp] theorem stoppable_singleton {u : TransientUnit} :
    Stoppable out [u] ↔ out.stops u = true := by
  simp [Stoppable]

theorem named_systemctlStop (n name : Bytes) (w : World) :
    (systemctlStop out n w).1.named name =
      if name = n ∧ Stoppable out (w.named n) then [] else w.named name := by
  simp only [stoppable_named]
  unfold systemctlStop
  split
  next hfind => simp [hfind]
  next u hfind =>
    -- the stop removes every unit of the name it is given
    by_cases hstop : out.stops u = true
    · by_cases hname : name = n
      · subst hname
        simp [hfind, hstop, World.named, List.filter_filter]
      · simp only [hstop, if_true, hname, false_and, if_false, World.named, List.filter_filter]
        refine List.filter_congr fun v _ => ?_
        by_cases hv : v.name = name <;> simp [hv, hname]
    · simp [hfind, hstop]

/-- A stop takes all units of the name or none. -/
theorem mem_stoppedBy {n : Bytes} {w : World} {u : TransientUnit} :
    u ∈ stoppedBy out n w ↔ u ∈ w.named n ∧ Stoppable out (w.named n) := by
  have hmem (v : TransientUnit) : v ∈ (systemctlStop out n w).1.units ↔
      v ∈ (systemctlStop out n w).1.named v.name := by simp [World.mem_named]
  simp only [stoppedBy, List.mem_filter, decide_eq_true_eq, hmem, named_systemctlStop]
  by_cases hstop : Stoppable out (w.named n)
  · by_cases hname : u.name = n <;> simp [hname, hstop, World.mem_named]
  · simp [hstop, World.mem_named]

theorem named_systemdRun (u : TransientUnit) (argv : List Bytes) (name : Bytes) (w : World) :
    (systemdRun out u argv w).1.named name =
      if name = u.name ∧ w.named name = [] ∧ out.runs argv = 0 then [u] else w.named name := by
  have hany : (w.units.any fun v => v.name = u.name) = true ↔ w.named u.name ≠ [] := by
    simp [World.named, List.filter_eq_nil_iff]
  unfold systemdRun
  split
  -- the name is taken, and systemd refuses the unit
  next htaken =>
    have htaken' := hany.mp htaken
    by_cases hname : name = u.name
    · subst hname
      simp [htaken']
    · simp [hname]
  next hfree =>
    have hfree' : w.named u.name = [] := by
      by_contra hne
      exact hfree (hany.mpr hne)
    split
    next hrun =>
      by_cases hname : name = u.name
      · subst hname
        have happ : (World.mk (w.units ++ [u]) w.registry).named u.name = w.named u.name ++ [u] := by
          simp [World.named]
        simp [happ, hfree', hrun]
      · simp [World.named, hname, Ne.symm hname]
    next hrun => simp [hrun]

/-- A start that is completed changes the units of its own name only. -/
theorem named_startInstance {s : CStr} {m : CStr × Json} (hfits : Fits s m) (name : Bytes)
    (w : World) :
    (startInstance out s m.1 m.2 w).1.named name =
      if Takes s name m then afterStart out s m (w.named name) else w.named name := by
  unfold startInstance
  split
  next hcmd => simp [Takes, hcmd]
  next cmd hcmd =>
    obtain ⟨argv, hargv⟩ := Option.isSome_iff_exists.mp (hfits cmd hcmd)
    have haccepted : Accepted out s m ↔ out.runs argv = 0 := by
      constructor
      · rintro ⟨cmd', hcmd', argv', hargv', hrun⟩
        rw [hcmd, Option.mem_some_iff] at hcmd'
        subst hcmd'
        rw [hargv, Option.mem_some_iff] at hargv'
        exact hargv' ▸ hrun
      · exact fun hrun => ⟨cmd, hcmd, argv, hargv, hrun⟩
    have hunit : TransientUnit.name ⟨s, m.1⟩ = unitName s m.1 := rfl
    simp only [hargv, named_systemdRun, named_systemctlStop, hunit, Takes, hcmd, Option.isSome_some,
      true_and, afterStart, haccepted]
    -- a stop and a start of its own name, and nothing for another one
    by_cases hname : name = unitName s m.1
    · subst hname
      by_cases hstop : Stoppable out (w.named (unitName s m.1))
      · simp [hstop]
      · by_cases hempty : w.named (unitName s m.1) = [] <;> simp [hstop, hempty]
    · simp [hname, Ne.symm hname]

theorem startInstance_fits {s : CStr} {m : CStr × Json} (hfits : Fits s m) (w : World) :
    ∃ r, (startInstance out s m.1 m.2 w).2 = some r := by
  unfold startInstance
  split
  · exact ⟨0, rfl⟩
  next cmd hcmd =>
    obtain ⟨argv, hargv⟩ := Option.isSome_iff_exists.mp (hfits cmd hcmd)
    simp [hargv]

theorem startInstance_overflows {s : CStr} {m : CStr × Json} (hover : Overflows s m) (w : World) :
    (startInstance out s m.1 m.2 w).2 = none := by
  obtain ⟨cmd, hcmd, hargv⟩ := hover.startArgv_eq_none
  simp [startInstance, hcmd, hargv]

variable (out) in
/-- The state after starts that are all completed. -/
def afterStarts (s : CStr) (ks : List (CStr × Json)) (w : World) : World :=
  ks.foldl (fun w k => (startInstance out s k.1 k.2 w).1) w

variable (out) in
/-- What the start of one instance stops. -/
def startStops (s : CStr) (k : CStr × Json) (w : World) : List TransientUnit :=
  if (command? k.2).isSome then stoppedBy out (unitName s k.1) w else []

theorem loopStops_cons (s : CStr) (k : CStr × Json) (rest : List (CStr × Json)) (w : World)
    (hfits : Fits s k) : loopStops out s (k :: rest) w =
      startStops out s k w ++ loopStops out s rest (startInstance out s k.1 k.2 w).1 := by
  obtain ⟨r, hr⟩ : ∃ r, (startInstance out s k.1 k.2 w).2 = some r := startInstance_fits hfits w
  have heq : startInstance out s k.1 k.2 w = ((startInstance out s k.1 k.2 w).1, some r) :=
    Prod.ext rfl hr
  rw [loopStops, heq]
  rfl

/-- The loop ends in the instance that overflows. -/
theorem loopStops_overflow {s : CStr} {m : CStr × Json} (rest : List (CStr × Json)) (w : World)
    (hover : Overflows s m) : loopStops out s (m :: rest) w = startStops out s m w := by
  have heq : startInstance out s m.1 m.2 w = ((startInstance out s m.1 m.2 w).1, none) :=
    Prod.ext rfl (startInstance_overflows hover w)
  rw [loopStops, heq]
  exact List.append_nil _

theorem loopStops_append {s : CStr} {ks : List (CStr × Json)} (hfits : ∀ k ∈ ks, Fits s k)
    (rest : List (CStr × Json)) (w : World) :
    loopStops out s (ks ++ rest) w =
      loopStops out s ks w ++ loopStops out s rest (afterStarts out s ks w) := by
  -- on the instances before; each is completed and hands its state on
  induction ks generalizing w with
  | nil => simp [loopStops, afterStarts]
  | cons k ks ih =>
    rw [List.cons_append, loopStops_cons _ _ _ _ (hfits k (by simp)),
      ih (fun k hk => hfits k (by simp [hk])), loopStops_cons _ _ _ _ (hfits k (by simp)),
      List.append_assoc]
    rfl

variable (out) in
/-- The unit of the first instance whose start under the name systemd accepts. -/
def starter (s : CStr) (name : Bytes) (ks : List (CStr × Json)) : Option TransientUnit :=
  (ks.find? fun k => Takes s name k ∧ Accepted out s k).map fun k => ⟨s, k.1⟩

variable (out) in
/-- The name is held by a unit that systemd does not stop. -/
def Held (w : World) (name : Bytes) : Prop := w.named name ≠ [] ∧ ¬ Stoppable out (w.named name)

instance (w : World) (name : Bytes) : Decidable (Held out w name) :=
  inferInstanceAs (Decidable (_ ∧ _))

variable (out) in
/-- An instance that is tried after others spares the units of its service: no
unit of the service that was active under its name is stopped, and none that an
earlier instance started under the same name. -/
def SparesAfter (s : CStr) (w : World) (xs : List (CStr × Json)) (k : CStr × Json) : Prop :=
  (command? k.2).isSome →
    (Stoppable out (w.named (unitName s k.1)) → ∀ v ∈ w.named (unitName s k.1), v.service ≠ s) ∧
    (¬ Held out w (unitName s k.1) →
      ∀ u ∈ starter out s (unitName s k.1) xs, out.stops u = false)

variable (out) in
/-- Each of the instances spares the units of the service. -/
def Spared (s : CStr) (w : World) (ks : List (CStr × Json)) : Prop :=
  ∀ xs k ys, ks = xs ++ k :: ys → SparesAfter out s w xs k

theorem starter_concat (s : CStr) (name : Bytes) (ks : List (CStr × Json)) (k : CStr × Json) :
    starter out s name (ks ++ [k]) = (starter out s name ks).or
      (if Takes s name k ∧ Accepted out s k then some ⟨s, k.1⟩ else none) := by
  by_cases hk : Takes s name k ∧ Accepted out s k <;>
    simp [starter, List.find?_append, hk]

theorem starter_eq_none {s : CStr} {name : Bytes} {ks : List (CStr × Json)}
    (h : ∀ k ∈ ks, ¬ Takes s name k) : starter out s name ks = none := by
  rw [starter, Option.map_eq_none_iff, List.find?_eq_none]
  exact fun k hk => by simp [h k hk]

theorem service_of_mem_starter {s : CStr} {name : Bytes} {ks : List (CStr × Json)}
    {u : TransientUnit} (h : u ∈ starter out s name ks) : u.service = s := by
  obtain ⟨k, -, rfl⟩ := Option.map_eq_some_iff.mp h
  rfl

theorem spared_nil (s : CStr) (w : World) : Spared out s w [] := by
  simp [Spared]

theorem spared_concat {s : CStr} {w : World} {ks : List (CStr × Json)} {k : CStr × Json} :
    Spared out s w (ks ++ [k]) ↔ Spared out s w ks ∧ SparesAfter out s w ks k := by
  constructor
  · intro h
    refine ⟨fun xs j ys hks => h xs j (ys ++ [k]) (by simp [hks]), h ks k [] rfl⟩
  · rintro ⟨hks, hk⟩ xs j ys heq
    -- the instance is the new one, or one of the earlier ones
    rcases List.eq_nil_or_concat ys with rfl | ⟨ys', y, rfl⟩
    · obtain ⟨rfl, hj⟩ := List.append_inj' heq rfl
      obtain rfl := List.singleton_inj.mp hj
      exact hk
    · have heq' : ks ++ [k] = (xs ++ j :: ys') ++ [y] := by simpa using heq
      exact hks xs j ys' (List.append_inj' heq' rfl).1

variable (out) in
/-- The units of a name after starts that stopped no unit of the service. -/
def Standing (s : CStr) (w : World) (name : Bytes) (ks : List (CStr × Json))
    (us : List TransientUnit) : Prop :=
  if (∃ k ∈ ks, Takes s name k) ∧ ¬ Held out w name then us = (starter out s name ks).toList
  else us = w.named name

theorem spares_iff {s : CStr} {w : World} {ks : List (CStr × Json)} {k : CStr × Json}
    {us : List TransientUnit} (hks : Spared out s w ks) (hcmd : (command? k.2).isSome)
    (hus : Standing out s w (unitName s k.1) ks us) :
    (Stoppable out us → ∀ v ∈ us, v.service ≠ s) ↔ SparesAfter out s w ks k := by
  have hafter : SparesAfter out s w ks k ↔ _ := ⟨fun h => h hcmd, fun h _ => h⟩
  rw [hafter]
  by_cases htaken : ∃ j ∈ ks, Takes s (unitName s k.1) j
  · -- An earlier instance of the same name has already spared what was active before.
    obtain ⟨j, hj, hjcmd, hjname⟩ := htaken
    have hbefore : Stoppable out (w.named (unitName s k.1)) →
        ∀ v ∈ w.named (unitName s k.1), v.service ≠ s := by
      obtain ⟨xs, ys, rfl⟩ := List.append_of_mem hj
      exact hjname ▸ (hks xs j ys rfl hjcmd).1
    -- a unit that systemd does not stop still holds the name, or nothing did
    by_cases hheld : Held out w (unitName s k.1)
    · have hus' : us = w.named (unitName s k.1) := by simpa [Standing, hheld] using hus
      simp [hus', hheld, hheld.2]
    · have hus' : us = (starter out s (unitName s k.1) ks).toList := by
        have htaken : ∃ j ∈ ks, Takes s (unitName s k.1) j := ⟨j, hj, hjcmd, hjname⟩
        rwa [Standing, if_pos ⟨htaken, hheld⟩] at hus
      cases hstarter : starter out s (unitName s k.1) ks with
      | none => simpa [hus', hstarter, hheld] using hbefore
      | some u =>
        have hservice := service_of_mem_starter hstarter
        simpa [hus', hstarter, hservice, hheld] using fun _ => hbefore
  · have hus' : us = w.named (unitName s k.1) := by simpa [Standing, htaken] using hus
    have hnone : starter out s (unitName s k.1) ks = none :=
      starter_eq_none fun j hj hjtakes => htaken ⟨j, hj, hjtakes⟩
    simp [hus', hnone]

/-- One more start keeps the description of what stands. -/
theorem Standing.start {s : CStr} {w : World} {ks : List (CStr × Json)} {k : CStr × Json}
    {name : Bytes} {us : List TransientUnit} (hus : Standing out s w name ks us)
    (hspares : Takes s name k → Stoppable out us → ∀ v ∈ us, v.service ≠ s) :
    Standing out s w name (ks ++ [k]) (if Takes s name k then afterStart out s k us else us) := by
  by_cases htakes : Takes s name k
  · have hex : ∃ j ∈ ks ++ [k], Takes s name j := ⟨k, by simp, htakes⟩
    -- the name stays with a unit that systemd does not stop
    by_cases hheld : Held out w name
    · have hus' : us = w.named name := by simpa [Standing, hheld] using hus
      have hkeep : us ≠ [] ∧ ¬ Stoppable out us := hus' ▸ hheld
      rw [if_pos htakes, afterStart, if_pos hkeep]
      simpa [Standing, hheld] using hus'
    · by_cases htaken : ∃ j ∈ ks, Takes s name j
      · have hus' : us = (starter out s name ks).toList := by
          rwa [Standing, if_pos ⟨htaken, hheld⟩] at hus
        rw [Standing, if_pos ⟨hex, hheld⟩, if_pos htakes, starter_concat]
        -- no earlier start was accepted, or the unit of the first one is spared
        cases hstarter : starter out s name ks with
        | none =>
          by_cases hacc : Accepted out s k <;> simp [hus', hstarter, afterStart, htakes, hacc]
        | some u =>
          have hservice := service_of_mem_starter hstarter
          have hstops : ¬ Stoppable out us := fun hstop =>
            hspares htakes hstop u (by simp [hus', hstarter]) hservice
          have hne : us ≠ [] := by simp [hus', hstarter]
          rw [afterStart, if_pos ⟨hne, hstops⟩]
          simp [hus', hstarter]
      · have hus' : us = w.named name := by simpa [Standing, htaken] using hus
        have hnone : starter out s name ks = none :=
          starter_eq_none fun j hj hjtakes => htaken ⟨j, hj, hjtakes⟩
        have hfree : ¬ (us ≠ [] ∧ ¬ Stoppable out us) := hus' ▸ hheld
        rw [Standing, if_pos ⟨hex, hheld⟩, if_pos htakes, starter_concat, hnone, afterStart,
          if_neg hfree]
        by_cases hacc : Accepted out s k <;> simp [htakes, hacc]
  -- the start is of another name
  · have hex : (∃ j ∈ ks ++ [k], Takes s name j) ↔ ∃ j ∈ ks, Takes s name j := by
      constructor
      · rintro ⟨j, hj, hjtakes⟩
        rcases List.mem_append.mp hj with hj | hj
        · exact ⟨j, hj, hjtakes⟩
        · exact absurd (List.mem_singleton.mp hj ▸ hjtakes) htakes
      · rintro ⟨j, hj, hjtakes⟩
        exact ⟨j, by simp [hj], hjtakes⟩
    simpa only [if_neg htakes, Standing, hex, starter_concat, htakes, false_and, if_false,
      Option.or_none] using hus

/-- As long as the instances spare the units of the service, what stands under
each name is known. -/
theorem Spared.standing {s : CStr} {w : World} {ks : List (CStr × Json)}
    (hfits : ∀ k ∈ ks, Fits s k) (h : Spared out s w ks) (name : Bytes) :
    Standing out s w name ks ((afterStarts out s ks w).named name) := by
  induction ks using List.reverseRecOn generalizing name with
  | nil => simp [Standing, afterStarts]
  | append_singleton ks k ih =>
    obtain ⟨hks, hk⟩ := spared_concat.mp h
    have hprev (name : Bytes) := ih (fun j hj => hfits j (by simp [hj])) hks name
    have hstep : (afterStarts out s (ks ++ [k]) w).named name =
        if Takes s name k then afterStart out s k ((afterStarts out s ks w).named name)
        else (afterStarts out s ks w).named name := by
      rw [afterStarts, List.foldl_append]
      exact named_startInstance (hfits k (by simp)) name _
    rw [hstep]
    -- what the new instance stops is no unit of the service
    refine (hprev name).start fun htakes => ?_
    obtain ⟨hcmd, rfl⟩ := htakes
    exact (spares_iff hks hcmd (hprev _)).mpr hk

/-- What the start of an instance stops belongs to other services exactly if the
instance spares the units of its service. -/
theorem startStops_iff {s : CStr} {w : World} {ks : List (CStr × Json)} {k : CStr × Json}
    (hfits : ∀ k ∈ ks, Fits s k) (hks : Spared out s w ks) :
    (∀ u ∈ startStops out s k (afterStarts out s ks w), u.service ≠ s) ↔
      SparesAfter out s w ks k := by
  by_cases hcmd : (command? k.2).isSome
  · rw [← spares_iff hks hcmd (hks.standing hfits _)]
    simp only [startStops, hcmd, if_true, mem_stoppedBy]
    exact ⟨fun h hstop u hu => h u ⟨hu, hstop⟩, fun h u hu => h hu.2 u hu.1⟩
  · simp [startStops, SparesAfter, hcmd]

/-- The loop stops no unit of the service exactly if its instances spare them. -/
theorem loopStops_spared {s : CStr} {w : World} {ks : List (CStr × Json)}
    (hfits : ∀ k ∈ ks, Fits s k) :
    (∀ u ∈ loopStops out s ks w, u.service ≠ s) ↔ Spared out s w ks := by
  induction ks using List.reverseRecOn with
  | nil => simp [loopStops, Spared]
  | append_singleton ks k ih =>
    have hfits' : ∀ j ∈ ks, Fits s j := fun j hj => hfits j (by simp [hj])
    have hlast : loopStops out s [k] (afterStarts out s ks w) =
        startStops out s k (afterStarts out s ks w) := by
      rw [loopStops_cons _ _ _ _ (hfits k (by simp))]
      exact List.append_nil _
    -- the last instance meets the state that the others have left
    rw [spared_concat, ← ih hfits', loopStops_append hfits', hlast]
    simp only [List.mem_append, or_imp, forall_and]
    exact and_congr_right fun h => startStops_iff hfits' ((ih hfits').mp h)

variable (out) in
/-- What a `set` that overflows should leave as it was: no unit of the service
is stopped, and the registry entry is the one from before. -/
def LeavesService (s : CStr) (root : Json) (w : World) : Prop :=
  (∀ u ∈ setStops out root w, u.service ≠ s) ∧
    (cmdSet out root w).1.registry (registryPath s) = w.registry (registryPath s)

/-- A `set` whose instance `m` overflows after the instances `pre` leaves the
service alone exactly if the registry could not be written or held the same
definition, and `pre` and `m` spare the units of the service. -/
theorem overflow_leaves_service_iff {s : CStr} {root : Json} {w : World}
    {pre rest : List (CStr × Json)} {m : CStr × Json}
    (hname : root.stringMember (CStr.lit "name") = some s)
    (hsplit : instances root = pre ++ m :: rest) (hfits : ∀ k ∈ pre, Fits s k)
    (hover : Overflows s m) :
    LeavesService out s root w ↔
      (out.saved = true → w.registry (registryPath s) = some root) ∧
        Spared out s w (pre ++ [m]) := by
  have hregistry : (cmdSet out root w).1.registry (registryPath s) =
      if out.saved then some root else w.registry (registryPath s) := by
    simp only [cmdSet, hname, setLoop_registry, saveRegistry]
    split <;> simp
  have hsaved : (out.saved = true → w.registry (registryPath s) = some root) ↔
      (cmdSet out root w).1.registry (registryPath s) = w.registry (registryPath s) := by
    rw [hregistry]
    cases out.saved <;> simp [eq_comm]
  -- Saving the registry leaves the units alone, so the loop meets those of `w`.
  have hunits : Spared out s (saveRegistry out s root w) = Spared out s w := by
    unfold saveRegistry
    split <;> rfl
  have hstops : (∀ u ∈ setStops out root w, u.service ≠ s) ↔ Spared out s w (pre ++ [m]) := by
    rw [← hunits, spared_concat, ← loopStops_spared hfits]
    simp only [setStops, hname, hsplit, loopStops_append hfits, loopStops_overflow rest _ hover,
      List.mem_append, or_imp, forall_and]
    exact and_congr_right fun h => startStops_iff hfits ((loopStops_spared hfits).mp h)
  rw [LeavesService, hstops, hsaved, and_comm]

/-- A definition of `ntpd` whose instance `main` has more words than arguments
are allowed. -/
def ntpdLong : Json :=
  .obj [(CStr.lit "name", .str (ascii "ntpd")),
    (CStr.lit "instances", .obj [(CStr.lit "main",
      .obj [(CStr.lit "command", .arr (List.replicate 600 (.str (ascii "-g"))))])])]

theorem ntpdLong_overflows :
    Overflows (CStr.lit "ntpd")
      (CStr.lit "main", .obj [(CStr.lit "command",
        .arr (List.replicate 600 (.str (ascii "-g"))))]) :=
  ⟨List.replicate 600 (.str (ascii "-g")), rfl, by decide +kernel⟩

/-- With nothing active and a registry that cannot be written, the overflow
changes nothing. -/
theorem ntpdLong_leaves_service :
    LeavesService ⟨fun _ => true, fun _ => 0, false⟩ (CStr.lit "ntpd") ntpdLong World.empty := by
  have hiff : _ ↔ _ := @overflow_leaves_service_iff ⟨fun _ => true, fun _ => 0, false⟩ _ ntpdLong
    World.empty [] [] _ rfl rfl (by simp) ntpdLong_overflows
  refine hiff.mpr ⟨by simp, spared_concat.mpr ⟨spared_nil _ _, fun _ => ?_⟩⟩
  simp [World.named, World.empty, not_stoppable_nil, starter]

/-- The overflow stops the unit of `main` that the earlier start of it left running. -/
theorem overflow_stops_active_unit :
    ¬ ∀ (out : Outcome) (s : CStr) (root : Json) (w : World) (pre rest : List (CStr × Json))
      (m : CStr × Json), root.stringMember (CStr.lit "name") = some s →
        instances root = pre ++ m :: rest → (∀ k ∈ pre, Fits s k) → Overflows s m →
        LeavesService out s root w := by
  intro h
  have hleaves := h allSucceed (CStr.lit "ntpd") ntpdLong (startMain.2.exec allSucceed .empty).1
    [] [] _ rfl rfl (by simp) ntpdLong_overflows
  have hstopped : (⟨CStr.lit "ntpd", CStr.lit "main"⟩ : TransientUnit) ∈
      setStops allSucceed ntpdLong (startMain.2.exec allSucceed .empty).1 := by decide +kernel
  exact hleaves.1 _ hstopped rfl

end NeonWrt.Procd
