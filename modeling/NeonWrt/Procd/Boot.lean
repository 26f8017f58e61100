import Mathlib.Data.List.Perm.Basic
import NeonWrt.Lib.Glob

/-!
# The boot loop of neon-rc

`neon-rc boot` runs the start scripts of `/etc/rc.d` one after the other, but
puts a dnsmasq script off until a network script has run. The script it puts off
is kept in one variable, so a second one takes the place of the first unless a
network script comes between them.
-/

namespace NeonWrt.Procd

open Lib

/-- The entries that exist, the exit status of each script, and how
`neon-network-ready` ends, `none` if it cannot be run. -/
structure BootEnv where
  present : Bytes → Bool
  status : Bytes → ℕ
  ready : Option Bool

/-- What the loop does. Entries are known by their names. -/
inductive BootEvent where
  | runs (name : Bytes)
  | failed (name : Bytes) (status : ℕ)
  | deferred (name : Bytes)
  | lanReady
  | lanTimeout
  | readyMissing
  | networkMissing
  deriving DecidableEq

/-- The pattern `S*dnsmasq`. -/
def isDnsmasq (name : Bytes) : Bool := glob (ascii "S*dnsmasq") name

/-- The pattern `S*network`. -/
def isNetwork (name : Bytes) : Bool := glob (ascii "S*network") name

variable (env : BootEnv)

/-- `run_script`; a script that fails is only warned about. -/
def runScript (name : Bytes) : List BootEvent :=
  if env.present name then
    .runs name :: if env.status name ≠ 0 then [.failed name (env.status name)] else []
  else []

/-- The wait for the network before a script that was put off. -/
def waitReady : BootEvent :=
  match env.ready with
  | some true => .lanReady
  | some false => .lanTimeout
  | none => .readyMissing

/-- The loop of `boot` over the entries, with the script that is put off. -/
def bootLoop : List Bytes → Option Bytes → List BootEvent
  | [], none => []
  | [], some deferred => .networkMissing :: runScript env deferred
  | name :: rest, deferred =>
    if !env.present name then bootLoop rest deferred
    else if isDnsmasq name then .deferred name :: bootLoop rest (some name)
    else if isNetwork name then
      runScript env name ++ (deferred.toList.flatMap fun d => waitReady env :: runScript env d) ++
        bootLoop rest none
    else runScript env name ++ bootLoop rest deferred

/-- The script that an event runs. -/
def BootEvent.script? : BootEvent → Option Bytes
  | .runs name => some name
  | _ => none

/-- The scripts that the loop runs, in order. -/
def bootRuns (entries : List Bytes) (deferred : Option Bytes) : List Bytes :=
  (bootLoop env entries deferred).filterMap BootEvent.script?

/-- A network script comes before the first dnsmasq script. -/
def NetworkFirst (entries : List Bytes) : Prop :=
  ∀ ys e zs, entries = ys ++ e :: zs → isDnsmasq e = true → ∃ n ∈ ys, isNetwork n = true

/-- Each entry is run once and nothing else is, no dnsmasq script before the first
network script, and the other scripts in the order of the entries. -/
structure BootOrder (entries runs : List Bytes) : Prop where
  once : ∀ name, runs.count name = if name ∈ entries then 1 else 0
  afterNetwork : (∃ n ∈ entries, isNetwork n = true) → NetworkFirst runs
  order : (runs.filter fun n => !isDnsmasq n) = entries.filter fun n => !isDnsmasq n

/-- A network script stands between any two dnsmasq scripts. -/
def Separated (entries : List Bytes) : Prop :=
  ∀ xs d ys e zs, entries = xs ++ d :: (ys ++ e :: zs) → isDnsmasq d = true →
    isDnsmasq e = true → ∃ n ∈ ys, isNetwork n = true

variable {env}

theorem not_isDnsmasq_of_isNetwork {name : Bytes} (h : isNetwork name = true) :
    isDnsmasq name = false := by
  have hS : Literal (ascii "S") := ⟨by decide, by decide⟩
  have hnet : Literal (ascii "network") := ⟨by decide, by decide⟩
  have hdnsmasq : Literal (ascii "dnsmasq") := ⟨by decide, by decide⟩
  obtain ⟨mid, hmid⟩ := (glob_star_between hS hnet name).mp h
  by_contra hdns
  rw [Bool.not_eq_false] at hdns
  obtain ⟨mid', hmid'⟩ := (glob_star_between hS hdnsmasq name).mp hdns
  -- the last characters differ
  have hlast := congrArg List.getLast? (hmid.symm.trans hmid')
  rw [List.getLast?_append_of_ne_nil _ (by decide), List.getLast?_append_of_ne_nil _ (by decide)]
    at hlast
  exact absurd hlast (by decide)

theorem runs_runScript {name : Bytes} (h : env.present name = true) :
    (runScript env name).filterMap BootEvent.script? = [name] := by
  rw [runScript, if_pos h]
  split <;> rfl

theorem bootRuns_nil {deferred : Option Bytes} (h : ∀ d ∈ deferred, env.present d = true) :
    bootRuns env [] deferred = deferred.toList := by
  cases deferred with
  | none => rfl
  | some d => exact runs_runScript (h d rfl)

theorem bootRuns_dnsmasq {name : Bytes} (hpresent : env.present name = true)
    (hname : isDnsmasq name = true) (rest : List Bytes) (deferred : Option Bytes) :
    bootRuns env (name :: rest) deferred = bootRuns env rest (some name) := by
  rw [bootRuns, bootLoop]
  simp only [hpresent, hname, Bool.not_true, Bool.false_eq_true, if_false, if_true]
  rfl

theorem bootRuns_network {name : Bytes} (hpresent : env.present name = true)
    (hname : isNetwork name = true) (rest : List Bytes) {deferred : Option Bytes}
    (hdeferred : ∀ d ∈ deferred, env.present d = true) :
    bootRuns env (name :: rest) deferred = name :: deferred.toList ++ bootRuns env rest none := by
  have hwait : (waitReady env).script? = none := by
    unfold waitReady
    split <;> rfl
  have hflush : (deferred.toList.flatMap fun d => waitReady env :: runScript env d).filterMap
      BootEvent.script? = deferred.toList := by
    cases deferred with
    | none => rfl
    | some d => simp [hwait, runs_runScript (hdeferred d rfl)]
  rw [bootRuns, bootLoop]
  simp only [hpresent, not_isDnsmasq_of_isNetwork hname, hname, Bool.not_true, Bool.false_eq_true,
    if_false, if_true, List.filterMap_append, runs_runScript hpresent, hflush]
  rfl

theorem bootRuns_other {name : Bytes} (hpresent : env.present name = true)
    (hdnsmasq : isDnsmasq name = false) (hnetwork : isNetwork name = false) (rest : List Bytes)
    (deferred : Option Bytes) :
    bootRuns env (name :: rest) deferred = name :: bootRuns env rest deferred := by
  simp [bootRuns, bootLoop, hpresent, hdnsmasq, hnetwork, runs_runScript hpresent]

theorem name_cases (name : Bytes) :
    isDnsmasq name = true ∨ isNetwork name = true ∨
      (isDnsmasq name = false ∧ isNetwork name = false) := by
  cases isDnsmasq name <;> cases isNetwork name <;> simp

/-- The loop sees no second dnsmasq script while one is put off. -/
def SeparatedFrom : Bool → List Bytes → Prop
  | _, [] => True
  | pending, name :: rest =>
    if isDnsmasq name then pending = false ∧ SeparatedFrom true rest
    else if isNetwork name then SeparatedFrom false rest
    else SeparatedFrom pending rest

theorem networkFirst_cons {name : Bytes} {rest : List Bytes} :
    NetworkFirst (name :: rest) ↔
      isDnsmasq name = false ∧ (isNetwork name = true ∨ NetworkFirst rest) := by
  constructor
  · intro h
    have hname : isDnsmasq name = false := by
      by_contra hdns
      obtain ⟨n, hn, -⟩ := h [] name rest rfl (by simpa using hdns)
      exact absurd hn List.not_mem_nil
    refine ⟨hname, or_iff_not_imp_left.mpr fun hnet ys e zs heq he => ?_⟩
    obtain ⟨n, hn, hnnet⟩ := h (name :: ys) e zs (by rw [heq, List.cons_append]) he
    rcases List.mem_cons.mp hn with rfl | hn
    · exact absurd hnnet hnet
    · exact ⟨n, hn, hnnet⟩
  · rintro ⟨hname, hrest⟩ ys e zs heq he
    cases ys with
    | nil =>
      obtain ⟨rfl, -⟩ := List.cons.inj heq
      exact absurd he (by simp [hname])
    | cons y ys =>
      obtain ⟨rfl, htail⟩ := List.cons.inj heq
      rcases hrest with hnet | hrest
      · exact ⟨name, List.mem_cons_self, hnet⟩
      · obtain ⟨n, hn, hnnet⟩ := hrest ys e zs htail he
        exact ⟨n, List.mem_cons_of_mem _ hn, hnnet⟩

theorem separated_cons {name : Bytes} {rest : List Bytes} :
    Separated (name :: rest) ↔
      (isDnsmasq name = true → NetworkFirst rest) ∧ Separated rest := by
  constructor
  · intro h
    refine ⟨fun hname ys e zs heq he => h [] name ys e zs (by rw [heq]; rfl) hname he,
      fun xs d ys e zs heq hd he => h (name :: xs) d ys e zs (by rw [heq]; rfl) hd he⟩
  · rintro ⟨hname, hrest⟩ xs d ys e zs heq hd he
    cases xs with
    | nil =>
      obtain ⟨rfl, htail⟩ := List.cons.inj heq
      exact hname hd ys e zs htail he
    | cons x xs =>
      obtain ⟨-, htail⟩ := List.cons.inj heq
      exact hrest xs d ys e zs htail hd he

theorem separated_nil : Separated [] := by
  intro xs d ys e zs heq
  simp at heq

theorem networkFirst_nil : NetworkFirst [] := by
  intro ys e zs heq
  simp at heq

theorem separatedFrom_iff (pending : Bool) (entries : List Bytes) :
    SeparatedFrom pending entries ↔
      (pending = true → NetworkFirst entries) ∧ Separated entries := by
  -- the flag says whether a dnsmasq script is waiting
  induction entries generalizing pending with
  | nil => simp [SeparatedFrom, separated_nil, networkFirst_nil]
  | cons name rest ih =>
    rw [networkFirst_cons, separated_cons]
    rcases name_cases name with hdns | hnet | ⟨hdns, hnet⟩
    · cases pending <;> simp [SeparatedFrom, ih, hdns]
    · simp [SeparatedFrom, ih, hnet, not_isDnsmasq_of_isNetwork hnet]
    · simp [SeparatedFrom, ih, hnet, hdns]

variable {entries : List Bytes} {deferred : Option Bytes}

/-- Scripts may be lost, but none is run that there is not. -/
theorem length_bootRuns_le (hpresent : ∀ n ∈ entries, env.present n = true)
    (hdeferred : ∀ d ∈ deferred, env.present d = true) :
    (bootRuns env entries deferred).length ≤ deferred.toList.length + entries.length ∧
      ((bootRuns env entries deferred).length = deferred.toList.length + entries.length →
        SeparatedFrom deferred.isSome entries) := by
  induction entries generalizing deferred with
  | nil => simp [bootRuns_nil hdeferred, SeparatedFrom]
  | cons name rest ih =>
    have hname := hpresent name List.mem_cons_self
    have hrest : ∀ n ∈ rest, env.present n = true := fun n hn => hpresent n (by simp [hn])
    rcases name_cases name with hdns | hnet | ⟨hdns, hnet⟩
    · rw [bootRuns_dnsmasq hname hdns]
      obtain ⟨hle, hsep⟩ := @ih (some name) hrest (by simpa using hname)
      simp only [Option.toList_some, List.length_cons, List.length_nil] at hle hsep ⊢
      refine ⟨by omega, fun heq => ?_⟩
      -- a script that is waiting is lost to the new one
      cases deferred with
      | none =>
        simp only [Option.toList_none, List.length_nil] at heq
        simpa [SeparatedFrom, hdns] using hsep (by omega)
      | some d =>
        simp only [Option.toList_some, List.length_cons, List.length_nil] at heq
        omega
    · rw [bootRuns_network hname hnet rest hdeferred]
      obtain ⟨hle, hsep⟩ := @ih none hrest (by simp)
      simp only [Option.toList_none, List.length_nil, List.length_append, List.length_cons]
        at hle hsep ⊢
      refine ⟨by omega, fun heq => ?_⟩
      simpa [SeparatedFrom, hnet, not_isDnsmasq_of_isNetwork hnet] using hsep (by omega)
    · rw [bootRuns_other hname hdns hnet]
      obtain ⟨hle, hsep⟩ := ih hrest hdeferred
      simp only [List.length_cons] at hle hsep ⊢
      refine ⟨by omega, fun heq => ?_⟩
      simpa [SeparatedFrom, hnet, hdns] using hsep (by omega)

theorem bootRuns_perm (hpresent : ∀ n ∈ entries, env.present n = true)
    (hdeferred : ∀ d ∈ deferred, env.present d = true)
    (h : SeparatedFrom deferred.isSome entries) :
    (bootRuns env entries deferred).Perm (deferred.toList ++ entries) := by
  induction entries generalizing deferred with
  | nil => rw [bootRuns_nil hdeferred, List.append_nil]
  | cons name rest ih =>
    have hname := hpresent name List.mem_cons_self
    have hrest : ∀ n ∈ rest, env.present n = true := fun n hn => hpresent n (by simp [hn])
    rcases name_cases name with hdns | hnet | ⟨hdns, hnet⟩
    -- nothing was waiting, so the script is put off and comes later
    · simp only [SeparatedFrom, hdns, if_true, Option.isSome_eq_false_iff,
        Option.isNone_iff_eq_none] at h
      obtain ⟨rfl, h⟩ := h
      rw [bootRuns_dnsmasq hname hdns]
      exact ih hrest (by simpa using hname) h
    · simp only [SeparatedFrom, not_isDnsmasq_of_isNetwork hnet, hnet, Bool.false_eq_true,
        if_false, if_true] at h
      rw [bootRuns_network hname hnet rest hdeferred]
      -- the script that was waiting is run right after the network
      have hperm := @ih none hrest (by simp) h
      exact ((hperm.append_left (name :: deferred.toList)).trans List.perm_middle.symm)
    · simp only [SeparatedFrom, hdns, hnet, Bool.false_eq_true, if_false] at h
      rw [bootRuns_other hname hdns hnet]
      exact ((ih hrest hdeferred h).cons name).trans List.perm_middle.symm

/-- The loop runs each script once exactly if no dnsmasq script takes the place
of another. -/
theorem bootRuns_perm_iff (hpresent : ∀ n ∈ entries, env.present n = true) :
    (bootRuns env entries none).Perm entries ↔ Separated entries := by
  have hsep : SeparatedFrom false entries ↔ Separated entries := by
    simp [separatedFrom_iff]
  rw [← hsep]
  constructor
  · intro h
    -- a loop that loses nothing runs as many scripts as there are
    refine (@length_bootRuns_le env entries none hpresent (by simp)).2 ?_
    simpa using h.length_eq
  · intro h
    simpa using @bootRuns_perm env entries none hpresent (by simp) h

theorem networkFirst_bootRuns (hpresent : ∀ n ∈ entries, env.present n = true)
    (hdeferred : ∀ d ∈ deferred, env.present d = true)
    (h : ∃ n ∈ entries, isNetwork n = true) : NetworkFirst (bootRuns env entries deferred) := by
  induction entries generalizing deferred with
  | nil => simp at h
  | cons name rest ih =>
    have hname := hpresent name List.mem_cons_self
    have hrest : ∀ n ∈ rest, env.present n = true := fun n hn => hpresent n (by simp [hn])
    -- A name that is no network script leaves the network script to the rest.
    have hlater (hnet : isNetwork name = false) : ∃ n ∈ rest, isNetwork n = true := by
      obtain ⟨n, hn, hnnet⟩ := h
      rcases List.mem_cons.mp hn with rfl | hn
      · simp [hnet] at hnnet
      · exact ⟨n, hn, hnnet⟩
    rcases name_cases name with hdns | hnet | ⟨hdns, hnet⟩
    · rw [bootRuns_dnsmasq hname hdns]
      refine ih hrest (by simpa using hname) (hlater ?_)
      by_contra hnet
      simp [not_isDnsmasq_of_isNetwork (by simpa using hnet : isNetwork name = true)] at hdns
    · rw [bootRuns_network hname hnet rest hdeferred, List.cons_append, networkFirst_cons]
      exact ⟨not_isDnsmasq_of_isNetwork hnet, Or.inl hnet⟩
    · rw [bootRuns_other hname hdns hnet, networkFirst_cons]
      exact ⟨hdns, Or.inr (ih hrest hdeferred (hlater hnet))⟩

/-- Apart from the dnsmasq scripts the loop keeps the order of the entries. -/
theorem filter_bootRuns (hpresent : ∀ n ∈ entries, env.present n = true)
    (hdeferred : ∀ d ∈ deferred, env.present d = true ∧ isDnsmasq d = true) :
    ((bootRuns env entries deferred).filter fun n => !isDnsmasq n) =
      entries.filter fun n => !isDnsmasq n := by
  have hpending : (deferred.toList.filter fun n => !isDnsmasq n) = [] := by
    cases deferred with
    | none => rfl
    | some d => simp [(hdeferred d rfl).2]
  -- what is put off is no longer seen
  induction entries generalizing deferred with
  | nil => rw [bootRuns_nil fun d hd => (hdeferred d hd).1, hpending, List.filter_nil]
  | cons name rest ih =>
    have hname := hpresent name List.mem_cons_self
    have hrest : ∀ n ∈ rest, env.present n = true := fun n hn => hpresent n (by simp [hn])
    rcases name_cases name with hdns | hnet | ⟨hdns, hnet⟩
    · rw [bootRuns_dnsmasq hname hdns, ih hrest (by simpa using ⟨hname, hdns⟩) (by simp [hdns])]
      simp [hdns]
    · rw [bootRuns_network hname hnet rest fun d hd => (hdeferred d hd).1, List.cons_append,
        List.filter_cons, List.filter_append, hpending, ih hrest (by simp) rfl]
      simp [not_isDnsmasq_of_isNetwork hnet]
    · rw [bootRuns_other hname hdns hnet, List.filter_cons, ih hrest hdeferred hpending]
      simp [hdns]

/-- The loop boots as it should exactly if a network script stands between any
two dnsmasq scripts. -/
theorem bootOrder_iff (env : BootEnv) {entries : List Bytes} (hnodup : entries.Nodup)
    (hpresent : ∀ n ∈ entries, env.present n = true) :
    BootOrder entries (bootRuns env entries none) ↔ Separated entries := by
  rw [← bootRuns_perm_iff hpresent]
  have hcount (name : Bytes) : entries.count name = if name ∈ entries then 1 else 0 :=
    hnodup.count
  constructor
  · intro h
    rw [List.perm_iff_count]
    intro name
    rw [h.once, hcount]
  · intro h
    refine ⟨fun name => ?_, networkFirst_bootRuns hpresent (by simp),
      filter_bootRuns hpresent (by simp)⟩
    rw [h.count_eq, hcount]

/-- Every entry exists and every script succeeds. -/
def quietBoot : BootEnv := ⟨fun _ => true, fun _ => 0, some true⟩

/-- A dnsmasq script before the network script, and one after it. -/
theorem bootOrder_twice :
    BootOrder [ascii "S19dnsmasq", ascii "S20network", ascii "S50my-dnsmasq"]
      (bootRuns quietBoot [ascii "S19dnsmasq", ascii "S20network", ascii "S50my-dnsmasq"] none) := by
  refine (bootOrder_iff quietBoot (by decide) (by simp [quietBoot])).mpr ?_
  have hdns : isDnsmasq (ascii "S20network") = false := by decide
  have hnet : isNetwork (ascii "S20network") = true := by decide
  simp only [separated_cons, networkFirst_cons, hdns, hnet, separated_nil, networkFirst_nil]
  simp

/-- Of two dnsmasq scripts before the network script, the first is never run. -/
theorem exists_boot_that_loses :
    ¬ ∀ (env : BootEnv) (entries : List Bytes), entries.Nodup →
      (∀ n ∈ entries, env.present n = true) → BootOrder entries (bootRuns env entries none) := by
  intro h
  have horder := h quietBoot [ascii "S18my-dnsmasq", ascii "S19dnsmasq", ascii "S20network"]
    (by decide) (by simp [quietBoot])
  exact absurd (horder.once (ascii "S18my-dnsmasq")) (by decide)

end NeonWrt.Procd
