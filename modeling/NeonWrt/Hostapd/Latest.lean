import NeonWrt.Hostapd.Pending
import NeonWrt.Lib.Run

/-!
# Only the latest configuration is brought up

A request that is pending belongs to the stored configuration as long as every
call that replaces the stored configuration also aborts the request. Three ways
of replacing it do not: a phy that cannot be opened, a configuration without
BSSes, and one that equals the stored one. Nor does a reset, which ends in an
exception. `wpa_supplicant` stays stopped when a request that follows an aborted
one ends without getting to its last state, and a configuration whose bring-up
failed is taken for the running one when it is set again.
-/

namespace NeonWrt.Hostapd

open NeonWrt.Lib

/-- What is wanted of the bring-up of a phy. -/
structure Latest (s : Phy) : Prop where
  /-- `iface_add` is only called with the stored configuration. -/
  added : ∀ a ∈ s.added, a.stored = some a.config
  /-- Without a request, the last `phy_set_state` was not a stop. -/
  released : s.pending = none → s.stopped ≠ some true
  /-- What is answered without change is up or pending. -/
  unchanged : ∀ a ∈ s.unchanged, a.up = some a.stored ∨ a.pending = some a.stored

/-- The configuration that is about to be set has the contents of the stored one. -/
def SameAsStored (env : SetEnv) (config : Config) (s : Phy) : Prop :=
  ∃ old ∈ s.stored, old.config.radio.isEqual config.radio = true ∧
    sameBss old.config.bss (ifaceCheckMld env config).bss = true
  deriving Decidable

/-- When a configuration can be set: while a request is pending, the call gets as
far as the restart that aborts it; and a configuration that was abandoned is not
set again. -/
def SetTimely (env : SetEnv) (config : Config) (s : Phy) : Prop :=
  (s.pending.isSome → env.phyOpen = true ∧ (ifaceCheckMld env config).bss ≠ [] ∧
    ¬ SameAsStored env config s) ∧
  (s.abandoned = true → env.phyOpen = true → (ifaceCheckMld env config).bss ≠ [] →
    ¬ SameAsStored env config s)

/-- When a state of a request can be gone through: one that ends it leaves
`wpa_supplicant` running. -/
def AdvanceTimely (env : StageEnv) (p : Pending) (s : Phy) : Prop :=
  s.stopped = some true →
    (p.nextState = .checkPhy → p.completed = true → (env.addIface && env.start) = false) ∧
    (p.nextState = .wpasStopped → env.sent = true)
  deriving Decidable

/-- When an event leads to no failure. -/
def Timely (s : Phy) : Event → Prop
  | .configSet env config prev => SetTimely env config (storePrev prev s)
  | .reload env config => s.stored.isSome → SetTimely env config s
  | .configReset first => first = true → s.pending.isNone
  | .advance env => ∀ p ∈ s.pending, AdvanceTimely env p s
  | .reply _ => True

namespace Phy

/-- What is pending is stored, and what is stored is accounted for. -/
structure Tracked (s : Phy) : Prop where
  pending : ∀ p, s.pending = some p → s.stored = some p.config
  stored : ∀ c, s.stored = some c →
    s.abandoned = true ∨ s.up = some c.id ∨ s.pending.isSome ∨ c.config.bss = []
  latest : Latest s

namespace Tracked

variable {s : Phy}

theorem initial : Tracked Phy.initial where
  pending p h := by cases h
  stored c h := by cases h
  latest := ⟨by simp [Phy.initial], fun _ h => (by cases h), by simp [Phy.initial]⟩

/-- A configuration is stored while nothing is pending: it is new, and not yet up. -/
theorem stored_abandoned (h : Tracked s) (hp : s.pending = none) (config : Config) :
    Tracked { s.store config with abandoned := true } where
  pending p hs := by rw [show s.pending = some p from hs] at hp; cases hp
  stored _ _ := .inl rfl
  latest := ⟨h.latest.added, h.latest.released, h.latest.unchanged⟩

theorem storePrev (h : Tracked s) (prev : Option Config) : Tracked (storePrev prev s) := by
  rcases prev with _ | config
  · exact h
  · cases hs : s.stored with
    | some c => simpa [Hostapd.storePrev, hs] using h
    | none =>
      have hp : s.pending = none := by
        rw [Option.eq_none_iff_forall_ne_some]
        intro p hp
        rw [h.pending p hp] at hs
        cases hs
      simpa [Hostapd.storePrev, hs] using h.stored_abandoned hp _

/-- A restart aborts what was pending, so only the history is needed of the
state before it, and that the stored configuration has BSSes. -/
theorem restart {obj : ConfigObject} (hs : s.stored = some obj) (hbss : obj.config.bss ≠ [])
    (hadded : ∀ a ∈ s.added, a.stored = some a.config)
    (hunchanged : ∀ a ∈ s.unchanged, a.up = some a.stored ∨ a.pending = some a.stored)
    (env : SetEnv) : Tracked (ifaceRestart env s) := by
  have hempty : obj.config.bss.isEmpty = false := by simpa using hbss
  have heq : ifaceRestart env s =
      { s.abort.removeIface with
        stored := some { obj with config := assignMacaddrs env obj.config }
        pending := some ⟨{ obj with config := assignMacaddrs env obj.config }, .init, false,
          false⟩ } := by
    simp [ifaceRestart, abort, removeIface, hs, hempty]
  rw [heq]
  refine ⟨fun p hp => ?_, fun c _ => .inr (.inr (.inl rfl)), hadded, fun hp => (by cases hp),
    hunchanged⟩
  cases hp
  rfl

theorem restart_store (h : Tracked s) (env : SetEnv) (config : Config) {f : Config → Config}
    (hbss : (f config).bss ≠ []) : Tracked (ifaceRestart env ((s.store config).rewrite f)) :=
  restart (s := (s.store config).rewrite f) rfl hbss h.latest.added h.latest.unchanged env

theorem ifaceReloadConfig_cases (env : SetEnv) (s : Phy) (old : Option ConfigObject)
    (config : Config) :
    ifaceReloadConfig env s (old.map (·.config)) config = .refused ∨
    (∃ c, old = some c ∧ c.config.radio.isEqual config.radio = true ∧
      sameBss c.config.bss config.bss = true ∧
      ifaceReloadConfig env s (old.map (·.config)) config = .equal) ∨
    (s.pending = none ∧ ∃ bssid ok,
      ifaceReloadConfig env s (old.map (·.config)) config = .applied bssid ok) := by
  rcases old with _ | c
  · exact .inl rfl
  · simp only [Option.map_some, ifaceReloadConfig]
    cases hradio : c.config.radio.isEqual config.radio with
    | false => exact .inl rfl
    | true =>
      cases hsame : sameBss c.config.bss config.bss with
      | true => exact .inr (.inl ⟨c, rfl, hradio, hsame, rfl⟩)
      | false =>
        cases hp : s.pending with
        | some p => exact .inl rfl
        | none =>
          cases c.config.bss.isEmpty with
          | true => exact .inl rfl
          | false => exact .inr (.inr ⟨rfl, _, _, rfl⟩)

theorem ifaceSetConfig (h : Tracked s) {env : SetEnv} {config : Config}
    (ht : SetTimely env config s) : Tracked (ifaceSetConfig env config s) := by
  have hnone : (s.pending.isSome → False) → s.pending = none := by
    intro hp
    cases hs : s.pending with
    | none => rfl
    | some p => exact (hp (by rw [hs]; rfl)).elim
  unfold Hostapd.ifaceSetConfig
  cases hopen : env.phyOpen with
  | false =>
    have hp := hnone fun hp => by simpa [hopen] using (ht.1 hp).1
    exact h.stored_abandoned hp config
  | true =>
    simp only [Bool.not_true, Bool.false_eq_true, if_false]
    by_cases hbss : (ifaceCheckMld env config).bss = []
    · have hp := hnone fun hp => (ht.1 hp).2.1 hbss
      rw [if_pos (by simpa using hbss)]
      refine ⟨fun p hs => ?_, fun c hc => ?_, h.latest.added, fun _ => h.latest.released hp,
        h.latest.unchanged⟩
      · rw [show s.pending = some p from hs] at hp
        cases hp
      · cases hc
        exact .inr (.inr (.inr hbss))
    · rw [if_neg (by simpa using hbss)]
      rcases ifaceReloadConfig_cases env
          ((s.store config).rewrite fun _ => ifaceCheckMld env config) s.stored
          (ifaceCheckMld env config) with
        heq | ⟨old, hold, hradio, hsame, heq⟩ | ⟨hp, bssid, ok, heq⟩
      · rw [heq]
        exact h.restart_store env config hbss
      · -- the equal configuration is neither pending nor abandoned, so it is up
        have hsame' : SameAsStored env config s := ⟨old, hold, hradio, hsame⟩
        have hp := hnone fun hp => (ht.1 hp).2.2 hsame'
        have hup : s.up = some old.id := by
          rcases h.stored old hold with hab | hup | hpend | hempty
          · exact (ht.2 hab hopen hbss hsame').elim
          · exact hup
          · rw [hp] at hpend
            cases hpend
          · have := length_eq_of_sameBss hsame
            rw [hempty, List.length_nil] at this
            exact (hbss (List.length_eq_zero_iff.mp this.symm)).elim
        rw [heq, hold]
        refine ⟨fun p hs => ?_, fun c hc => ?_, h.latest.added, fun _ => h.latest.released hp,
          fun a ha => ?_⟩
        · rw [show s.pending = some p from hs] at hp
          cases hp
        · cases hc
          exact .inr (.inl (if_pos hup))
        · rcases List.mem_cons.mp ha with rfl | ha
          · exact .inl hup
          · exact h.latest.unchanged a ha
      · have hp : s.pending = none := hp
        rw [heq]
        cases ok with
        | true =>
          refine ⟨fun p hs => ?_, fun c hc => ?_, h.latest.added, fun _ => h.latest.released hp,
            h.latest.unchanged⟩
          · rw [show s.pending = some p from hs] at hp
            cases hp
          · cases hc
            exact .inr (.inl rfl)
        | false =>
          exact h.restart_store env config (f := fun _ => (ifaceCheckMld env config).mapBssid bssid)
            (by simpa using hbss)

/-- A request that goes on stays the one of the stored configuration. -/
theorem goOn (h : Tracked s) {p q : Pending} (hp : s.pending = some p) (hq : q.config = p.config) :
    Tracked { s with pending := some q } where
  pending q' hs := by
    cases hs
    rw [hq]
    exact h.pending p hp
  stored _ _ := .inr (.inr (.inl rfl))
  latest := ⟨h.latest.added, fun hs => (by cases hs), h.latest.unchanged⟩

theorem added_ifaceAdd (h : Tracked s) {p : Pending} (hp : s.pending = some p) (ok : Bool) :
    ∀ a ∈ (s.ifaceAdd p ok).added, a.stored = some a.config := by
  intro a ha
  rcases List.mem_cons.mp ha with rfl | ha
  · rw [storedId, h.pending p hp]
    rfl
  · exact h.latest.added a ha

/-- A call that is made keeps the request pending. -/
theorem call {t : Phy} (h : Tracked s) {p : Pending} (hp : s.pending = some p) (env : StageEnv)
    (next : Stage) (hstored : t.stored = s.stored)
    (hadded : ∀ a ∈ t.added, a.stored = some a.config) (hunchanged : t.unchanged = s.unchanged) :
    Tracked (t.call env p next) where
  pending q hs := by
    cases hs
    exact hstored.trans (h.pending p hp)
  stored _ _ := .inr (.inr (.inl rfl))
  latest := ⟨hadded, fun hs => (by cases hs), hunchanged ▸ h.latest.unchanged⟩

theorem advance (h : Tracked s) {env : StageEnv} {p : Pending} (hp : s.pending = some p)
    (ht : AdvanceTimely env p s) : Tracked (s.advance env p) := by
  unfold Phy.advance
  cases hnext : p.nextState with
  | init => exact h.goOn hp rfl
  | createBss =>
    simp only [wdevAdd, Option.isSome_none, Bool.and_false, Bool.false_eq_true, if_false]
    exact h.call hp env _ rfl h.latest.added rfl
  | checkPhy =>
    cases hcomp : p.completed with
    | false => exact h.call hp env _ rfl h.latest.added rfl
    | true =>
      cases hok : env.addIface && env.start with
      | false => exact h.call hp env _ rfl (h.added_ifaceAdd hp false) rfl
      | true =>
        refine ⟨fun q hs => (by cases hs), fun c hc => .inr (.inl ?_), h.added_ifaceAdd hp true,
          fun _ hstop => ?_, h.latest.unchanged⟩
        · cases (show s.stored = some c from hc).symm.trans (h.pending p hp)
          rfl
        · rw [(ht hstop).1 hnext hcomp] at hok
          cases hok
  | wpasStopped =>
    refine ⟨fun q hs => (by cases hs), fun c hc => ?_, h.added_ifaceAdd hp env.addIface,
      fun _ hstop => ?_, h.latest.unchanged⟩
    · cases (show s.stored = some c from hc).symm.trans (h.pending p hp)
      cases hadd : env.addIface with
      | true => exact .inr (.inl (by simp [abort, setState, ifaceAdd]))
      | false => exact .inl (by simp [abort, setState])
    · cases hsent : env.sent with
      | true => simp [abort, setState, hsent] at hstop
      | false =>
        rw [(ht (by simpa [abort, setState, ifaceAdd, hsent] using hstop)).2 hnext] at hsent
        cases hsent

theorem step {t : Phy} {e : Event} (h : Tracked s) (ht : Timely s e) (hst : Step s e t) :
    Tracked t := by
  cases e with
  | configSet env config prev =>
    simp only [Step, Phy.step] at hst
    split at hst
    · cases hst
    · rw [← Option.some.inj hst]
      exact (h.storePrev prev).ifaceSetConfig ht
  | reload env config =>
    simp only [Step, Phy.step] at hst
    split at hst
    · cases hst
    · split at hst
      · rwa [← Option.some.inj hst]
      · rename_i c hs
        rw [← Option.some.inj hst]
        exact h.ifaceSetConfig (ht (by simp [hs]))
  | configReset first =>
    simp only [Step, Phy.step] at hst
    split at hst
    · cases hst
    · split at hst
      · rename_i hfirst
        rw [← Option.some.inj hst]
        refine ⟨fun p hs => ?_, fun c hc => (by cases hc), h.latest.added, h.latest.released,
          h.latest.unchanged⟩
        rw [Option.isNone_iff_eq_none.mp (ht hfirst)] at hs
        cases hs
      · rwa [← Option.some.inj hst]
  | advance env =>
    cases hp : s.pending with
    | none => simp [Step, Phy.step, hp] at hst
    | some p =>
      cases hd : p.deferred with
      | true => simp [Step, Phy.step, hp, hd] at hst
      | false =>
        simp only [Step, Phy.step, hp, hd, Bool.false_eq_true, if_false, Option.some.injEq] at hst
        rw [← hst]
        exact h.advance hp (ht p hp)
  | reply completed =>
    cases hp : s.pending with
    | none => simp [Step, Phy.step, hp] at hst
    | some p =>
      cases hd : p.deferred with
      | false => simp [Step, Phy.step, hp, hd] at hst
      | true =>
        simp only [Step, Phy.step, hp, hd, if_true, Option.some.injEq] at hst
        rw [← hst]
        exact h.goOn hp rfl

end Tracked

end Phy

/-- **Only the latest configuration is brought up**, in every run of events that
lead to no failure. -/
theorem latest_of_timely {s : Phy} (h : Reaches (· = Phy.initial) Step Timely s) : Latest s := by
  refine (h.invariant (P := Phy.Tracked) ?_ ?_).latest
  · rintro _ rfl
    exact .initial
  · intro _ _ _ htracked hok hst
    exact htracked.step hok hst

instance (env : SetEnv) (config : Config) (s : Phy) : Decidable (SetTimely env config s) :=
  inferInstanceAs (Decidable (_ ∧ _))

instance (s : Phy) : DecidablePred (Timely s)
  | .configSet _ _ _ => inferInstanceAs (Decidable (SetTimely _ _ _))
  | .reload _ _ => inferInstanceAs (Decidable (_ → _))
  | .configReset _ => inferInstanceAs (Decidable (_ → _))
  | .advance _ => inferInstanceAs (Decidable (∀ _ ∈ _, _))
  | .reply _ => .isTrue trivial

/-- A call for which all goes well, and nothing can be changed in place. -/
def restartEnv : SetEnv where
  phyOpen := true
  mld _ := none
  macaddrNext _ := none
  applyChanges _ _ := (fun _ bss => bss.bssid, false)

/-- A state of a request in which all goes well. -/
def goodEnv : StageEnv where
  sent := true
  addIface := true
  start := true
  wdevCreate := none

/-- A configuration with one BSS. -/
def wlan0 : Config where
  radio := ⟨[], none⟩
  bss := [⟨some (ascii "wlan0"), [], fun _ => none, none, none, none, none, false, false⟩]
  mbssid := none

/-- A configuration is set and brought up, and `wpa_supplicant` stops meanwhile. -/
def upEvents : List Event :=
  [.configSet restartEnv wlan0 none, .advance goodEnv, .advance goodEnv, .reply false,
    .advance goodEnv, .reply false, .advance goodEnv]

/-- The BSS is gone from the configuration while the status of the phy is asked for. -/
def emptiedEvents : List Event :=
  [.configSet restartEnv wlan0 none, .advance goodEnv, .advance goodEnv,
    .configSet restartEnv { wlan0 with bss := [] } none, .reply true, .advance goodEnv]

theorem latest_of_timely_up : ∃ s, Latest s ∧ s.up = some 0 := by
  have hrun : (runAll Phy.step (fun s e => decide (Timely s e)) Phy.initial upEvents).isSome := by
    decide +kernel
  obtain ⟨s, hs⟩ := Option.isSome_iff_exists.mp hrun
  refine ⟨s, latest_of_timely (reaches_runAll (fun _ _ h => of_decide_eq_true h) (.start rfl) hs),
    ?_⟩
  have hup : (runAll Phy.step (fun s e => decide (Timely s e)) Phy.initial upEvents).bind (·.up) =
      some 0 := by
    decide +kernel
  rwa [hs] at hup

/-- After the configuration has become empty, the interface is still added for the
one before. -/
theorem not_latest : ∃ s, Reaches (· = Phy.initial) Step (fun _ _ => True) s ∧ ¬ Latest s := by
  have hrun : (runAll Phy.step (fun _ _ => true) Phy.initial emptiedEvents).isSome := by
    decide +kernel
  obtain ⟨s, hs⟩ := Option.isSome_iff_exists.mp hrun
  refine ⟨s, reaches_runAll (fun _ _ _ => trivial) (.start rfl) hs, fun h => ?_⟩
  have hadded : (runAll Phy.step (fun _ _ => true) Phy.initial emptiedEvents).any
      (fun s => s.added.any fun a => a.config == 0 && a.stored == some 1) := by
    decide +kernel
  rw [hs] at hadded
  obtain ⟨a, ha, heq⟩ := List.any_eq_true.mp hadded
  simp only [Bool.and_eq_true, beq_iff_eq] at heq
  have := h.added a ha
  rw [heq.1, heq.2] at this
  cases this

end NeonWrt.Hostapd
