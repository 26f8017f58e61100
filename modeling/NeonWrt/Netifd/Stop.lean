import NeonWrt.Netifd.Accounting

/-!
# Stopping devices

`stop` and `destroy` take a device down, at once when it is up and after its
scripts otherwise. A device that is being set up is only told through a flag
that no later transition reads, so its setup script can still report it up, and
then it stays up. Without such a late report every request to stop is honoured.
-/

namespace NeonWrt.Netifd

open NeonWrt.Lib

/-- A device that is not to start is not up, and one that is to be deleted is not
to start, and not down either. -/
structure Obeys (d : Wdev) : Prop where
  stopped : d.autostart = false → d.state ≠ .up
  deleted : d.delete = true → d.autostart = false ∧ d.state ≠ .down

namespace Obeys

variable {d : Wdev} {env : Env}

theorem of_eq {d' : Wdev} (h : Obeys d) (hauto : d'.autostart = d.autostart)
    (hstate : d'.state = d.state) (hdelete : d'.delete = d.delete) : Obeys d' :=
  ⟨fun hd => hstate ▸ h.stopped (hauto ▸ hd),
    fun hd => hauto ▸ hstate ▸ h.deleted (hdelete ▸ hd)⟩

theorem setup (h : Obeys d) : Obeys d.setup.wdev := by
  obtain heq | ⟨⟨-, hauto, -⟩, heq⟩ := d.setup_cases
  · exact heq ▸ h
  · rw [heq]
    exact ⟨fun _ => by simp, fun hd => ⟨(h.deleted hd).1, by simp⟩⟩

/-- A teardown also puts a device right that is up although it was stopped. -/
theorem teardown (h : d.delete = true → d.autostart = false ∧ d.state ≠ .down) :
    Obeys d.teardown.wdev := by
  obtain heq | ⟨-, heq⟩ := d.teardown_cases
  · refine heq ▸ ⟨fun _ hup => ?_, h⟩
    rw [d.teardown_of (.inr hup)] at heq
    exact absurd (congrArg Outcome.queued heq) (by simp [Wdev.keep])
  · exact heq ▸ ⟨fun _ => by simp, fun hd => ⟨(h hd).1, by simp⟩⟩

theorem check (h : Obeys d) : Obeys (d.check env).wdev := by
  rw [Wdev.check]
  split_ifs
  · exact h.of_eq rfl rfl rfl
  · exact (h.of_eq rfl rfl rfl : Obeys ((d.updateDisabledVifs env).configInit env)).setup

/-- Only a device that is not deleted is started. -/
theorem start (h : Obeys d) : Obeys (d.start env).wdev := by
  rw [Wdev.start]
  simp only
  split_ifs with hdelete hstate
  · exact h
  · exact ⟨by simp [Wdev.reset, Wdev.keep], fun hd => absurd hd hdelete⟩
  · refine setup ⟨by simp [Wdev.reset, Wdev.configInit, Wdev.updateDisabledVifs], fun hd => ?_⟩
    exact absurd hd hdelete
  · refine setup ⟨by simp [Wdev.reset, Wdev.updateDisabledVifs], fun hd => ?_⟩
    exact absurd hd hdelete

theorem stop (h : d.delete = true → d.state ≠ .down) : Obeys d.stop.wdev := by
  rw [Wdev.stop]
  cases hs : d.state with
  | setup => exact ⟨by simp [Wdev.keep], by simp [Wdev.keep]⟩
  | up => exact teardown fun _ => by simp
  | down => exact ⟨by simp [Wdev.keep], fun hd => absurd hs (h hd)⟩
  | teardown => exact ⟨by simp [Wdev.keep], by simp [Wdev.keep]⟩

theorem countFailure (h : Obeys d) : Obeys d.countFailure := by
  rw [Wdev.countFailure]
  split_ifs <;> exact h.of_eq rfl rfl rfl

/-- A call of a device that goes on to exist, unless it is a late report. -/
theorem call {c : Call} (h : Obeys d) (hlate : c = .notifyUp → d.autostart = true)
    (hdeleted : (c.run env d).deleted = false) : Obeys (c.run env d).wdev := by
  cases c with
  | start => exact h.start
  | stop => exact stop fun hd => (h.deleted hd).2
  | destroy =>
    simp only [Call.run, Wdev.destroy] at hdeleted ⊢
    split_ifs at hdeleted ⊢ with hstate
    exact stop fun _ => hstate
  | update data =>
    simp only [Call.run, Wdev.update]
    split_ifs
    · exact h
    · refine check ?_
      cases data with
      | none => exact h.of_eq rfl rfl rfl
      | some data => exact ⟨h.stopped, by simp [Wdev.withData, Wdev.reset]⟩
  | check => exact h.check
  | retrySetup =>
    simp only [Call.run, Wdev.retrySetup]
    split_ifs
    · exact h
    · exact h
    · exact h.start
  | notifyUp =>
    by_cases hs : d.state = .setup
    · rw [Call.run, d.markUp_of_setup hs]
      have hauto := hlate rfl
      have hdelete : d.delete ≠ true := fun hd => by simp [(h.deleted hd).1] at hauto
      split_ifs
      · exact ⟨fun hd => by simp [Wdev.keep, hauto] at hd, fun hd => absurd hd hdelete⟩
      · exact h.of_eq rfl rfl rfl
    · rw [Call.run, d.markUp_of_ne hs]
      exact h
  | setData vif vlan ifname =>
    simp only [Call.run, Wdev.setData]
    cases d.dataTarget vif vlan <;> exact h.of_eq rfl rfl rfl
  | procAdd proc =>
    simp only [Call.run, Wdev.procAdd]
    split_ifs <;> exact h.of_eq rfl rfl rfl
  | setRetry retry => exact h.of_eq rfl rfl rfl
  | hotplug dev add => exact h.of_eq rfl rfl rfl
  | procCheck alive =>
    simp only [Call.run, Wdev.procCheck]
    split_ifs
    · exact h
    · exact teardown h.deleted
    · exact h

theorem setupCb (h : Obeys d) : Obeys (d.setupCb env).wdev := by
  rw [Wdev.setupCb]
  split_ifs
  · exact (h.of_eq rfl rfl rfl : Obeys (d.configInit env)).setup
  · exact h
  · exact teardown h.countFailure.deleted

/-- After its teardown a device that is to be deleted is gone. -/
theorem teardownCb (h : Obeys d) (hlinks : Linkable d) (hdeleted : d.teardownCb.deleted = false) :
    Obeys d.teardownCb.wdev := by
  rw [teardownCb_of_linkable hlinks] at hdeleted ⊢
  split_ifs at hdeleted ⊢ with hdelete
  exact setup ⟨by simp [Wdev.unlinked], fun hd => absurd hd hdelete⟩

theorem new (name : Name) (data : DevData) : Obeys (.new env name data) :=
  ⟨by simp [Wdev.new, Wdev.configInit, Wdev.updateDisabledVifs],
    by simp [Wdev.new, Wdev.configInit, Wdev.updateDisabledVifs]⟩

end Obeys

/-- What is known of a device that was last asked to stop. -/
structure Slot.Obedient (sl : Slot) : Prop where
  sound : sl.Sound
  obeys : ∀ d, sl.device = some d → Obeys d
  stop : sl.request = some .stop ∨ sl.request = some .destroy →
    ∀ d, sl.device = some d → d.autostart = false
  destroy : sl.request = some .destroy → ∀ d, sl.device = some d → d.delete = true

/-- An up notification that is accepted from a device which was stopped meanwhile. -/
def lateUp (sl : Slot) : Deed → Bool
  | .call .notifyUp =>
    match sl.device with
    | some d => d.state = .setup && !d.autostart
    | none => false
  | _ => false

/-- Whether a device is to start or to be deleted, and its data, are as they were. -/
structure SameOrders (d d' : Wdev) : Prop where
  autostart : d'.autostart = d.autostart
  delete : d'.delete = d.delete
  data : d'.data = d.data

namespace SameOrders

variable {d d₂ : Wdev} {env : Env}

theorem trans (d₁ : Wdev) (h : SameOrders d d₁) (h' : SameOrders d₁ d₂) : SameOrders d d₂ :=
  ⟨h'.autostart.trans h.autostart, h'.delete.trans h.delete, h'.data.trans h.data⟩

theorem setup : SameOrders d d.setup.wdev := by
  obtain heq | ⟨-, heq⟩ := d.setup_cases
  · exact heq ▸ ⟨rfl, rfl, rfl⟩
  · exact heq ▸ ⟨rfl, rfl, rfl⟩

theorem teardown : SameOrders d d.teardown.wdev := by
  obtain heq | ⟨-, heq⟩ := d.teardown_cases
  · exact heq ▸ ⟨rfl, rfl, rfl⟩
  · exact heq ▸ ⟨rfl, rfl, rfl⟩

theorem check : SameOrders d (d.check env).wdev := by
  rw [Wdev.check]
  split_ifs
  · exact ⟨rfl, rfl, rfl⟩
  · exact trans ((d.updateDisabledVifs env).configInit env) ⟨rfl, rfl, rfl⟩ setup

theorem setupCb : SameOrders d (d.setupCb env).wdev := by
  have hcount : SameOrders d d.countFailure := by
    rw [Wdev.countFailure]
    split_ifs <;> exact ⟨rfl, rfl, rfl⟩
  rw [Wdev.setupCb]
  split_ifs
  · exact trans (d.configInit env) ⟨rfl, rfl, rfl⟩ setup
  · exact ⟨rfl, rfl, rfl⟩
  · exact trans _ hcount teardown

theorem teardownCb : SameOrders d d.teardownCb.wdev := by
  rw [Wdev.teardownCb]
  simp only
  split_ifs
  · exact ⟨rfl, rfl, rfl⟩
  · exact ⟨rfl, rfl, rfl⟩
  · exact trans d.unlinked ⟨rfl, rfl, rfl⟩ setup

/-- The calls that are no requests keep the flags: `retry_setup` starts only a device
that is to start anyway. -/
theorem call {c : Call} (hstart : c ≠ .start) (hstop : c ≠ .stop) (hdestroy : c ≠ .destroy)
    (hupdate : ∀ data, c ≠ .update data) : SameOrders d (c.run env d).wdev := by
  cases c with
  | start => exact absurd rfl hstart
  | stop => exact absurd rfl hstop
  | destroy => exact absurd rfl hdestroy
  | update data => exact absurd rfl (hupdate data)
  | check => exact check
  | retrySetup =>
    simp only [Call.run, Wdev.retrySetup]
    split_ifs with hdelete hguard
    · exact ⟨rfl, rfl, rfl⟩
    · exact ⟨rfl, rfl, rfl⟩
    · have hauto : d.autostart = true := by
        by_contra hne
        exact hguard (.inr (by simpa using hne))
      rw [Wdev.start, if_neg hdelete]
      simp only
      split_ifs
      · exact ⟨hauto.symm, rfl, rfl⟩
      · exact trans (({ d with autostart := true }.reset.updateDisabledVifs env).configInit env)
          ⟨hauto.symm, rfl, rfl⟩ setup
      · exact trans ({ d with autostart := true }.reset.updateDisabledVifs env)
          ⟨hauto.symm, rfl, rfl⟩ setup
  | notifyUp =>
    simp only [Call.run, Wdev.markUp]
    split_ifs <;> exact ⟨rfl, rfl, rfl⟩
  | setData vif vlan ifname =>
    simp only [Call.run, Wdev.setData]
    cases d.dataTarget vif vlan <;> exact ⟨rfl, rfl, rfl⟩
  | procAdd proc =>
    simp only [Call.run, Wdev.procAdd]
    split_ifs <;> exact ⟨rfl, rfl, rfl⟩
  | setRetry retry => exact ⟨rfl, rfl, rfl⟩
  | hotplug dev add => exact ⟨rfl, rfl, rfl⟩
  | procCheck alive =>
    simp only [Call.run, Wdev.procCheck]
    split_ifs
    · exact ⟨rfl, rfl, rfl⟩
    · exact teardown
    · exact ⟨rfl, rfl, rfl⟩

end SameOrders

theorem Wdev.flags_stop (d : Wdev) :
    d.stop.wdev.autostart = false ∧ d.stop.wdev.delete = d.delete := by
  rw [stop]
  cases d.state with
  | up =>
    have hsame := SameOrders.teardown (d := { d with autostart := false, state := .up })
    exact ⟨hsame.autostart, hsame.delete⟩
  | _ => exact ⟨rfl, rfl⟩

theorem Wdev.flags_destroy (d : Wdev) :
    d.destroy.wdev.autostart = false ∧ d.destroy.wdev.delete = true := by
  rw [destroy]
  simp only
  split_ifs
  · exact flags_stop { d with autostart := false, delete := true }
  · exact ⟨rfl, rfl⟩

/-- A device that stays keeps what its slot knew of it. -/
theorem Slot.Obedient.of_same {sl sl' : Slot} {d : Wdev} (d' : Wdev) (h : sl.Obedient) (hsound : sl'.Sound)
    (hrequest : sl'.request = sl.request) (hd : sl.device = some d)
    (hdev : ∀ d₁, sl'.device = some d₁ → d₁ = d' ∧ Obeys d') (hflags : SameOrders d d') :
    sl'.Obedient where
  sound := hsound
  obeys d₁ hd₁ := (hdev d₁ hd₁).1 ▸ (hdev d₁ hd₁).2
  stop hreq d₁ hd₁ := by
    rw [(hdev d₁ hd₁).1, hflags.1]
    exact h.stop (hrequest ▸ hreq) d hd
  destroy hreq d₁ hd₁ := by
    rw [(hdev d₁ hd₁).1, hflags.2]
    exact h.destroy (hrequest ▸ hreq) d hd

/-- A call keeps a slot obedient, unless it is a late report. -/
theorem Slot.Obedient.call {sl : Slot} {env : Env} {n : Name} {c : Call} (h : sl.Obedient)
    (hen : sl.Enabled (.call c)) (hunnamed : unnamed (.call c) = true)
    (hlate : lateUp sl (.call c) = false) : (sl.apply env n (.call c)).Obedient := by
  have hsound : (sl.apply env n (.call c)).Sound := h.sound.apply hen hunnamed
  obtain ⟨d, hd⟩ := Option.isSome_iff_exists.mp hen
  have hobeys := h.obeys d hd
  -- The device after the call, if it is still there.
  have hdev : ∀ d', (sl.apply env n (.call c)).device = some d' →
      d' = (c.run env d).wdev ∧ Obeys (c.run env d).wdev := by
    intro d' hd'
    simp only [Slot.apply, hd, Slot.after] at hd'
    split_ifs at hd' with hdeleted
    refine ⟨(Option.some.inj hd').symm, ?_⟩
    by_cases hup : c = .notifyUp ∧ d.state = .setup
    · obtain ⟨rfl, hs⟩ := hup
      have hauto : d.autostart = true := by simpa [lateUp, hd, hs] using hlate
      exact hobeys.call (fun _ => hauto) (by simpa using hdeleted)
    · by_cases hc : c = .notifyUp
      · -- The report is not accepted.
        subst hc
        rw [Call.run, d.markUp_of_ne fun hs => hup ⟨rfl, hs⟩]
        exact hobeys
      · exact hobeys.call (fun h => absurd h hc) (by simpa using hdeleted)
  have hrequest : (sl.apply env n (.call c)).request = c.request sl.request := by
    simp [Slot.apply, hd, Slot.after]
  have hobedient := fun d' hd' => (hdev d' hd').1 ▸ (hdev d' hd').2
  cases c with
  | start =>
    refine ⟨hsound, hobedient, fun hreq => ?_, fun hreq => ?_⟩
    · rw [hrequest] at hreq
      simp [Call.request] at hreq
    · rw [hrequest] at hreq
      simp [Call.request] at hreq
  | stop =>
    refine ⟨hsound, hobedient, fun _ d' hd' => ?_, fun hreq => ?_⟩
    · exact (hdev d' hd').1 ▸ d.flags_stop.1
    · rw [hrequest] at hreq
      simp [Call.request] at hreq
  | destroy =>
    exact ⟨hsound, hobedient, fun _ d' hd' => (hdev d' hd').1 ▸ d.flags_destroy.1,
      fun _ d' hd' => (hdev d' hd').1 ▸ d.flags_destroy.2⟩
  | update data =>
    refine ⟨hsound, hobedient, fun hreq => ?_, fun hreq => ?_⟩
    · rw [hrequest] at hreq
      simp [Call.request] at hreq
    · rw [hrequest] at hreq
      simp [Call.request] at hreq
  | _ => exact h.of_same _ hsound hrequest hd hdev (.call (by simp) (by simp) (by simp) (by simp))

theorem Slot.Obedient.apply {sl : Slot} {env : Env} {n : Name} {a : Deed} (h : sl.Obedient)
    (hen : sl.Enabled a) (hunnamed : unnamed a = true) (hlate : lateUp sl a = false) :
    (sl.apply env n a).Obedient := by
  have hsound : (sl.apply env n a).Sound := h.sound.apply hen hunnamed
  -- A callback keeps the flags.
  have hcalled : ∀ {op : Op} {r : Slot}, r.device = sl.device → r.request = sl.request →
      (r.called env op).Sound → (r.called env op).Obedient := by
    intro op r hdevice hrequest hr
    cases hd : sl.device with
    | none =>
      rw [Slot.called, hdevice, hd] at hr ⊢
      exact ⟨hr, fun d hd' => by simp [hdevice, hd] at hd', fun _ d hd' => by simp [hdevice, hd] at hd',
        fun _ d hd' => by simp [hdevice, hd] at hd'⟩
    | some d =>
      rw [Slot.called, hdevice, hd] at hr ⊢
      refine h.of_same (Wireless.callback env op d).wdev hr hrequest hd ?_ ?_
      · intro d₁ hd₁
        simp only [Slot.after] at hd₁
        split_ifs at hd₁ with hdeleted
        refine ⟨(Option.some.inj hd₁).symm, ?_⟩
        cases op with
        | setup => exact (h.obeys d hd).setupCb
        | teardown =>
          exact (h.obeys d hd).teardownCb (h.sound.links d hd)
            (by simpa [Wireless.callback] using hdeleted)
      · cases op with
        | setup => exact .setupCb
        | teardown => exact .teardownCb
  cases a with
  | call c => exact h.call hen hunnamed hlate
  | create data =>
    exact ⟨hsound, fun d hd => Option.some.inj hd ▸ .new n data,
      fun hreq => by simp [Slot.apply] at hreq, fun hreq => by simp [Slot.apply] at hreq⟩
  | run op spawned =>
    cases spawned with
    | true =>
      cases hd : sl.device with
      | none =>
        refine ⟨hsound, fun d hd' => ?_, fun _ d hd' => ?_, fun _ d hd' => ?_⟩ <;>
          simp [Slot.apply, hd] at hd'
      | some d =>
        refine h.of_same (if op = .setup then { d with started := some d.handlerConfig } else d)
          hsound rfl hd (fun d₁ hd₁ => ⟨?_, ?_⟩) ?_
        · simpa [Slot.apply, hd] using hd₁.symm
        · split_ifs <;> exact (h.obeys d hd).of_eq rfl rfl rfl
        · split_ifs <;> exact ⟨rfl, rfl, rfl⟩
    | false => exact hcalled rfl rfl hsound
  | ended sc => exact hcalled rfl rfl hsound

/-- When no script runs or is queued, a device that was last asked to stop is down,
and one that was last asked to be destroyed is gone. -/
def StopsHonoured (s : Wireless) : Prop :=
  s.Quiet → ∀ n,
    (s.requests.get? n = some .stop → ∀ d, s.devices.get? n = some d → d.state = .down) ∧
    (s.requests.get? n = some .destroy → s.devices.get? n = none)

theorem Slot.Obedient.down {sl : Slot} {d : Wdev} (h : sl.Obedient) (hd : sl.device = some d)
    (hq : sl.queued = none) (hr : sl.running = none) (hauto : d.autostart = false) :
    d.state = .down := by
  have hfits := h.sound.fits d hd
  rw [hq, hr] at hfits
  cases hs : d.state with
  | down => rfl
  | up => exact absurd hs ((h.obeys d hd).stopped hauto)
  | setup => simp [hs, Fits] at hfits
  | teardown => simp [hs, Fits] at hfits

/-- The deeds of the runs that honour requests to stop. -/
def punctual (_ : Env) (sl : Slot) (a : Deed) : Bool := unnamed a && !lateUp sl a

variable {s : Wireless}

/-- Requests to stop are honoured in every run in which no device is told an interface
name of its own, and no up notification is accepted from a device in state `setup`
that is not to start anymore. -/
theorem stops_honoured (h : Runs (eachDeed punctual · ·) s) : StopsHonoured s := by
  have hp := reaches_procs h
  have hobedient : ∀ n, (s.slot n).Obedient := by
    refine slots_invariant (P := fun _ sl => sl.Obedient) (fun _ => ?_) ?_ h
    · exact ⟨.empty, by simp [Slot.empty], by simp [Slot.empty], by simp [Slot.empty]⟩
    · intro s e n a hok ha hen hobedient
      have hpunctual := eachDeed_apply hok ha
      simp only [punctual, Bool.and_eq_true, Bool.not_eq_true'] at hpunctual
      exact hobedient.apply hen hpunctual.1 hpunctual.2
  rintro ⟨hcur, hqueue⟩ n
  have hq : (s.slot n).queued = none := Table.entries_eq_nil.mp hqueue n
  have hr : (s.slot n).running = none := by simp [Wireless.slot, hp.of_none hcur]
  refine ⟨fun hreq d hd => ?_, fun hreq => ?_⟩
  · exact (hobedient n).down hd hq hr ((hobedient n).stop (.inl hreq) d hd)
  · -- A device that is to be deleted is never down.
    cases hd : s.devices.get? n with
    | none => rfl
    | some d =>
      have hdown := (hobedient n).down hd hq hr ((hobedient n).stop (.inr hreq) d hd)
      exact absurd hdown (((hobedient n).obeys d hd).deleted ((hobedient n).destroy hreq d hd)).2

/-- The device is asked to stop while its setup script runs. -/
def stoppedEvents : List Event :=
  ⟨.new radio0 lanRadio, indexEnv 1⟩ :: callEvents 1 .start 2 ++ callEvents 1 .stop 0

theorem stops_honoured_radio0 : ∃ s, Runs (eachDeed punctual · ·) s ∧ s.Quiet ∧
    s.requests.get? radio0 = some .stop ∧ StopsHonoured s := by
  -- The setup script exits without a report, and then the teardown script.
  have hrun : (runAll step (eachDeed punctual) .initial
      (stoppedEvents ++ exitEvent :: List.replicate 2 ⟨.next radio0 true, indexEnv 1⟩ ++
        [exitEvent])).map (fun s => (s.cur, s.queue.entries, s.requests.get? radio0)) =
      some (none, [], some .stop) := by decide +kernel
  obtain ⟨s, hs, heq⟩ := Option.map_eq_some_iff.mp hrun
  obtain ⟨hcur, hrest⟩ := Prod.mk.inj heq
  obtain ⟨hqueue, hrequest⟩ := Prod.mk.inj hrest
  have hreaches : Runs (eachDeed punctual · ·) s := runs_of_events hs
  exact ⟨s, hreaches, ⟨hcur, hqueue⟩, hrequest, stops_honoured hreaches⟩

/-- When the script of the stopped device reports that it is up and then exits, the
device stays up. -/
theorem not_stops_honoured : ¬ ∀ s, Runs (fun _ _ => True) s → StopsHonoured s := by
  intro h
  have hrun : (runAll step (fun _ _ => true) .initial
      (stoppedEvents ++ callEvents 1 .notifyUp 0 ++ [exitEvent])).map
        (fun s => (s.cur.isNone && s.queue.entries.isEmpty, s.requests.get? radio0,
          (s.devices.get? radio0).map (·.state))) =
      some (true, some .stop, some .up) := by decide +kernel
  obtain ⟨s, hs, heq⟩ := Option.map_eq_some_iff.mp hrun
  obtain ⟨hquiet, hrest⟩ := Prod.mk.inj heq
  obtain ⟨hrequest, hstate⟩ := Prod.mk.inj hrest
  rw [Bool.and_eq_true, Option.isNone_iff_eq_none, List.isEmpty_iff] at hquiet
  obtain ⟨d, hd, hup⟩ := Option.map_eq_some_iff.mp hstate
  have hreaches : Runs (fun _ _ => True) s := reaches_runAll (fun _ _ _ => trivial) (.start rfl) hs
  have hdown := (h s hreaches hquiet radio0).1 hrequest d hd
  exact absurd (hup.symm.trans hdown) (by decide)

end NeonWrt.Netifd
