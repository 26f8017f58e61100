import NeonWrt.Netifd.Stop

/-!
# Reloading the configuration

A reload removes the devices that the new configuration does not have, updates
or creates the others, and starts those that are down. Handlers may be at work
on any of them meanwhile. A device that was told to go while it was being set up
is the weak point: it may be reported up and then stays, and when it comes back
with the next configuration before it is gone, nothing tells it to start again.
In the runs without these two, and without a device that has no retries left,
the last configuration wins.
-/

namespace NeonWrt.Netifd

open NeonWrt.Lib

/-- A device that may start, with a configuration for its scripts that fits. -/
structure Startable (d : Wdev) : Prop where
  autostart : d.autostart = true
  unfailed : d.retrySetupFailed = false
  config : ∃ bridges, d.handlerConfig = handlerConfig d.data d.disabledVifs bridges

/-- A device that is to be up: a setup with its configuration has been started, or
will be. -/
structure Live (queued running : Option Op) (d : Wdev) : Prop where
  startable : Startable d
  current : queued = some .setup ∨ d.state = .teardown ∨ d.state = .down ∨
    d.configChange = true ∨ d.started = some d.handlerConfig
  changed : d.state = .up → d.configChange = true → queued = some .setup ∨ running = some .setup

/-- The operation in the queue after a method. -/
def Outcome.queue (o : Outcome) (queued : Option Op) : Option Op :=
  match o.queued with
  | some op => some op
  | none => queued

variable {queued running : Option Op} {d : Wdev} {env : Env}

namespace Startable

theorem of_eq {d' : Wdev} (h : Startable d) (hauto : d'.autostart = d.autostart)
    (hfailed : d'.retrySetupFailed = false) (hdata : d'.data = d.data)
    (hdisabled : d'.disabledVifs = d.disabledVifs) (hconfig : d'.handlerConfig = d.handlerConfig) :
    Startable d' :=
  ⟨hauto.trans h.autostart, hfailed, by rw [hconfig, hdata, hdisabled]; exact h.config⟩

/-- A new configuration for the scripts fits. -/
theorem configInit (hauto : d.autostart = true) (hfailed : d.retrySetupFailed = false) :
    Startable (d.configInit env) :=
  ⟨hauto, hfailed, env.getBridge, rfl⟩

/-- Without a change the disabled interfaces are the same as before. -/
theorem updateDisabledVifs (h : Startable d)
    (hchange : (d.updateDisabledVifs env).configChange = false) :
    Startable (d.updateDisabledVifs env) := by
  obtain ⟨bridges, hconfig⟩ := h.config
  refine ⟨h.autostart, h.unfailed, bridges, ?_⟩
  simp only [Wdev.updateDisabledVifs, Bool.or_eq_false_iff, Bool.not_eq_false'] at hchange
  refine hconfig.trans (handlerConfig_congr d.data bridges ?_)
  exact sameNames_iff.mp hchange.2

theorem setup (h : Startable d) : Startable d.setup.wdev := by
  obtain heq | ⟨-, heq⟩ := d.setup_cases
  · exact heq ▸ h
  · exact heq ▸ h.of_eq rfl h.unfailed rfl rfl rfl

theorem queued_setup (h : Startable d) (hs : d.state = .up ∨ d.state = .down) :
    d.setup.queued = some .setup ∧ d.setup.wdev.state = .setup := by
  rw [Wdev.setup, if_neg (by rcases hs with hs | hs <;> simp [hs]),
    if_neg (by simp [h.autostart, h.unfailed])]
  exact ⟨rfl, rfl⟩

end Startable

namespace Live

/-- A setup that is queued makes a device live. -/
theorem of_queued (h : Startable d) (hq : queued = some .setup) : Live queued running d :=
  ⟨h, .inl hq, fun _ _ => .inl hq⟩

/-- A device that is down or up is set up when it can be. -/
theorem setup_of (h : Startable d) (hs : d.state = .up ∨ d.state = .down) :
    Live (d.setup.queue queued) running d.setup.wdev :=
  .of_queued h.setup (by rw [Outcome.queue, (h.queued_setup hs).1])

/-- While scripts are at work, a change is only noted. -/
theorem setup_changed (h : Startable d) (hchange : d.configChange = true) :
    Live (d.setup.queue queued) running d.setup.wdev := by
  by_cases hs : d.state = .up ∨ d.state = .down
  · exact setup_of h hs
  · have hkeep : d.setup = d.keep := by
      rw [Wdev.setup, if_pos (not_or.mp hs)]
    rw [hkeep]
    exact ⟨h, .inr (.inr (.inr (.inl hchange))), fun hup => absurd (.inl hup) hs⟩

theorem teardown (h : Startable d) (hs : d.state = .setup ∨ d.state = .up) :
    Live (d.teardown.queue queued) running d.teardown.wdev := by
  rw [d.teardown_of hs]
  exact ⟨h.of_eq rfl h.unfailed rfl rfl rfl, .inr (.inl rfl), fun hup => by simp at hup⟩

theorem check (h : Live queued running d) :
    Live ((d.check env).queue queued) running (d.check env).wdev := by
  rw [Wdev.check]
  split_ifs with hchange
  · have hsame : (d.updateDisabledVifs env).configChange = false := by simpa using hchange
    refine ⟨h.startable.updateDisabledVifs hsame, ?_, fun _ hc => ?_⟩
    · -- What was to be done for a change has been done.
      have hbefore : d.configChange = false := by
        simp only [Wdev.updateDisabledVifs, Bool.or_eq_false_iff] at hsame
        exact hsame.1.1
      rcases h.current with hq | ht | hd | hc | hstarted
      · exact .inl hq
      · exact .inr (.inl ht)
      · exact .inr (.inr (.inl hd))
      · exact absurd hc (by simp [hbefore])
      · exact .inr (.inr (.inr (.inr hstarted)))
    · exact absurd hc (by simp [Wdev.keep, hsame])
  · have hchange : (d.updateDisabledVifs env).configChange = true := by simpa using hchange
    exact setup_changed (.configInit h.startable.autostart h.startable.unfailed) hchange

theorem start (h : Live queued running d) :
    Live ((d.start env).queue queued) running (d.start env).wdev := by
  rw [Wdev.start]
  simp only
  have hd : Startable { d with autostart := true }.reset :=
    h.startable.of_eq h.startable.autostart.symm rfl rfl rfl rfl
  split_ifs with hdelete hstate hchange
  · exact h
  · exact ⟨hd, h.current, h.changed⟩
  · exact setup_of (.configInit rfl rfl) (.inr (of_not_not hstate))
  · exact setup_of (hd.updateDisabledVifs (by simpa using hchange)) (.inr (of_not_not hstate))

end Live

namespace Live

/-- A call keeps a device live, unless it tells the device to stop. -/
theorem call {c : Call} (h : Live queued running d) (hfits : Fits d.state queued running)
    (hstop : c ≠ .stop) (hdestroy : c ≠ .destroy) :
    Live ((c.run env d).queue queued) running (c.run env d).wdev := by
  cases c with
  | start => exact h.start
  | stop => exact absurd rfl hstop
  | destroy => exact absurd rfl hdestroy
  | update data =>
    simp only [Call.run, Wdev.update]
    split_ifs
    · exact h
    · -- Without a change of the networks there is one of the data.
      have hwith : (d.withData data).autostart = true ∧ (d.withData data).retrySetupFailed = false ∧
          (d.withData data).configChange = true := by
        cases data <;> exact ⟨h.startable.autostart, rfl, rfl⟩
      have hchange : ((d.withData data).updateDisabledVifs env).configChange = true := by
        simp [Wdev.updateDisabledVifs, hwith.2.2]
      rw [Wdev.check, if_neg (by simp [hchange])]
      exact setup_changed (.configInit hwith.1 hwith.2.1) hchange
  | check => exact h.check
  | retrySetup =>
    simp only [Call.run, Wdev.retrySetup]
    split_ifs
    · exact h
    · exact h
    · exact h.start
  | notifyUp =>
    by_cases hs : d.state = .setup
    · rw [Call.run, d.markUp_of_setup hs]
      rw [hs] at hfits
      -- The setup that led here is queued or runs.
      have hsetup : queued = some .setup ∨ running = some .setup := by
        rcases hfits with ⟨hq, -⟩ | ⟨-, hr⟩
        · exact .inl hq
        · exact .inr hr
      split_ifs
      · refine ⟨h.startable.of_eq rfl h.startable.unfailed rfl rfl rfl, ?_, fun _ _ => hsetup⟩
        rcases h.current with hq | ht | hd | hc | hstarted
        · exact .inl hq
        · exact absurd ht (by simp [hs])
        · exact absurd hd (by simp [hs])
        · exact .inr (.inr (.inr (.inl hc)))
        · exact .inr (.inr (.inr (.inr hstarted)))
      · exact ⟨h.startable.of_eq rfl h.startable.unfailed rfl rfl rfl, h.current, h.changed⟩
    · rw [Call.run, d.markUp_of_ne hs]
      exact h
  | setData vif vlan ifname =>
    simp only [Call.run, Wdev.setData]
    cases d.dataTarget vif vlan with
    | none => exact h
    | some target =>
      exact ⟨h.startable.of_eq rfl h.startable.unfailed rfl rfl rfl, h.current, h.changed⟩
  | procAdd proc =>
    simp only [Call.run, Wdev.procAdd]
    split_ifs
    · exact h
    · exact h
    · exact ⟨h.startable.of_eq rfl h.startable.unfailed rfl rfl rfl, h.current, h.changed⟩
  | setRetry retry =>
    exact ⟨h.startable.of_eq rfl h.startable.unfailed rfl rfl rfl, h.current, h.changed⟩
  | hotplug dev add =>
    exact ⟨h.startable.of_eq rfl h.startable.unfailed rfl rfl rfl, h.current, h.changed⟩
  | procCheck alive =>
    simp only [Call.run, Wdev.procCheck]
    split_ifs
    · exact h
    · obtain heq | ⟨hs, -⟩ := d.teardown_cases
      · rw [heq]
        exact ⟨h.startable.of_eq rfl h.startable.unfailed rfl rfl rfl, h.current, h.changed⟩
      · exact teardown h.startable hs
    · exact h

/-- A setup script ends: what changed meanwhile is set up, and a failure leads to a
teardown while retries are left. -/
theorem setupCb (h : Live queued (some .setup) d) (hretry : d.state = .setup → 0 < d.retry.getD 0) :
    Live ((d.setupCb env).queue queued) none (d.setupCb env).wdev := by
  rw [Wdev.setupCb]
  split_ifs with hs hup
  · exact setup_of (.configInit h.startable.autostart h.startable.unfailed) (.inl hup.1)
  · refine ⟨h.startable, h.current, fun hstate hc => ?_⟩
    exact absurd ⟨hstate, hc⟩ hup
  · have hsetup : d.state = .setup := of_not_not hs
    have hcount : Startable d.countFailure := by
      rw [Wdev.countFailure, if_pos (hretry hsetup)]
      exact h.startable.of_eq rfl h.startable.unfailed rfl rfl rfl
    exact teardown hcount (.inl (by simpa using hsetup))

/-- A teardown script ends, and the device is set up again. -/
theorem teardownCb (h : Startable d) (hlinks : Linkable d) (hdelete : d.delete = false) :
    Live (d.teardownCb.queue queued) running d.teardownCb.wdev := by
  rw [teardownCb_of_linkable hlinks, if_neg (by simp [hdelete])]
  exact setup_of (h.of_eq rfl h.unfailed rfl rfl rfl) (.inr rfl)

theorem new (name : Name) (data : DevData) : Live queued running (.new env name data) :=
  ⟨.configInit rfl rfl, .inr (.inr (.inl rfl)), fun hup => by
    simp [Wdev.new, Wdev.configInit, Wdev.updateDisabledVifs] at hup⟩

end Live

/-- The device of a slot is live, or on its way out. -/
structure Slot.Ready (sl : Slot) : Prop where
  obedient : sl.Obedient
  live : ∀ d, sl.device = some d → d.delete = false →
    Live sl.queued (sl.running.map (·.op)) d

/-- A device that is to be deleted is in the new configuration. -/
def readds (sl : Slot) : Deed → Bool
  | .call (.update (some _)) =>
    match sl.device with
    | some d => d.delete
    | none => false
  | _ => false

/-- A setup script cannot be started, or it ends in state `setup` and there are no
retries left. -/
def givesUp (sl : Slot) : Deed → Bool
  | .run .setup false => true
  | .ended sc =>
    match sl.device with
    | some d => sc.op = .setup && !d.delete && d.state = .setup && d.retry.getD 0 ≤ 0
    | none => false
  | _ => false

theorem delete_call {c : Call} (hdestroy : c ≠ .destroy) (hupdate : ∀ data, c ≠ .update (some data)) :
    (c.run env d).wdev.delete = d.delete := by
  by_cases hstart : c = .start
  · subst hstart
    rw [Call.run, Wdev.start]
    simp only
    split_ifs
    · rfl
    · rfl
    · exact SameOrders.setup.delete
    · exact SameOrders.setup.delete
  · by_cases hstop : c = .stop
    · subst hstop
      exact d.flags_stop.2
    · cases c with
      | update data =>
        cases data with
        | some data => exact absurd rfl (hupdate data)
        | none =>
          rw [Call.run, Wdev.update, if_neg (by simp)]
          exact SameOrders.check.delete
      | start => exact absurd rfl hstart
      | stop => exact absurd rfl hstop
      | destroy => exact absurd rfl hdestroy
      | _ => exact (SameOrders.call (by simp) (by simp) (by simp) (by simp)).delete

/-- A device that exists after a method is the one that the method left. -/
theorem Slot.device_after {sl : Slot} {o : Outcome} {d' : Wdev}
    (h : (sl.after o).device = some d') : d' = o.wdev ∧ o.deleted = false := by
  simp only [Slot.after] at h
  split_ifs at h with hdeleted
  exact ⟨(Option.some.inj h).symm, by simpa using hdeleted⟩

/-- A call keeps a slot ready, unless it tells the device to stop or brings it back
before it is gone. -/
theorem Slot.Ready.call {sl : Slot} {n : Name} {c : Call} (h : sl.Ready)
    (hen : sl.Enabled (.call c)) (hunnamed : unnamed (.call c) = true)
    (hlate : lateUp sl (.call c) = false) (hreadd : readds sl (.call c) = false)
    (hstop : c ≠ .stop) : (sl.apply env n (.call c)).Ready := by
  refine ⟨h.obedient.apply hen hunnamed hlate, fun d' hd' hdelete => ?_⟩
  obtain ⟨d, hd⟩ := Option.isSome_iff_exists.mp hen
  have hd'' := hd'
  simp only [Slot.apply, hd] at hd''
  obtain ⟨rfl, -⟩ := Slot.device_after hd''
  by_cases hdestroy : c = .destroy
  · subst hdestroy
    exact absurd d.flags_destroy.2 (by simp [← hdelete, Call.run])
  · -- A device that stays live was live before.
    have hbefore : d.delete = false := by
      by_cases hupdate : ∃ data, c = .update (some data)
      · obtain ⟨data, rfl⟩ := hupdate
        simpa [readds, hd] using hreadd
      · rw [← hdelete]
        exact (delete_call hdestroy fun data hc => hupdate ⟨data, hc⟩).symm
    have hlive : Live ((c.run env d).queue sl.queued) (sl.running.map (·.op)) (c.run env d).wdev :=
      (h.live d hd hbefore).call (h.obedient.sound.fits d hd) hstop hdestroy
    simp only [Slot.apply, hd, Slot.after, Call.map_op_report]
    exact hlive

/-- The end of a script, while the device is live. -/
theorem Slot.Ready.called {sl r : Slot} {op : Op} (hr : (r.called env op).Obedient)
    (hdevice : r.device = sl.device)
    (hlive : ∀ d, sl.device = some d → d.delete = false →
      Live ((Wireless.callback env op d).queue r.queued) (r.running.map (·.op))
        (Wireless.callback env op d).wdev) : (r.called env op).Ready := by
  refine ⟨hr, fun d' hd' hdelete => ?_⟩
  cases hd : sl.device with
  | none =>
    rw [Slot.called, hdevice, hd] at hd'
    simp [hdevice, hd] at hd'
  | some d =>
    rw [Slot.called, hdevice, hd] at hd' ⊢
    obtain ⟨rfl, -⟩ := Slot.device_after hd'
    refine hlive d hd ?_
    rw [← hdelete]
    cases op with
    | setup => exact (SameOrders.setupCb).delete.symm
    | teardown => exact (SameOrders.teardownCb).delete.symm

theorem Slot.Ready.apply {sl : Slot} {n : Name} {a : Deed} (h : sl.Ready) (hen : sl.Enabled a)
    (hunnamed : unnamed a = true) (hlate : lateUp sl a = false) (hreadd : readds sl a = false)
    (hgives : givesUp sl a = false) (hstop : a ≠ .call .stop) : (sl.apply env n a).Ready := by
  have hobedient : (sl.apply env n a).Obedient := h.obedient.apply hen hunnamed hlate
  cases a with
  | call c => exact h.call hen hunnamed hlate hreadd fun hc => hstop (hc ▸ rfl)
  | create data =>
    exact ⟨hobedient, fun d hd _ => Option.some.inj hd ▸ .new n data⟩
  | run op spawned =>
    obtain ⟨hq, hr⟩ := hen
    cases spawned with
    | true =>
      refine ⟨hobedient, fun d' hd' hdelete => ?_⟩
      obtain ⟨d, hd, rfl⟩ := Option.map_eq_some_iff.mp hd'
      have hfits := h.obedient.sound.fits d hd
      cases op with
      | setup =>
        -- The script gets the configuration of the device.
        have hlive := h.live d hd (by simpa using hdelete)
        refine ⟨hlive.startable.of_eq rfl hlive.startable.unfailed rfl rfl rfl, ?_, fun _ _ => ?_⟩
        · exact .inr (.inr (.inr (.inr rfl)))
        · exact .inr rfl
      | teardown =>
        have hlive := h.live d hd (by simpa using hdelete)
        -- Only a device in state `teardown` queues a teardown.
        have hs : d.state = .teardown := by
          rw [hq] at hfits
          cases hs : d.state <;> simp_all [Fits]
        exact ⟨hlive.startable, .inr (.inl (by simpa using hs)), fun hup => by simp [hs] at hup⟩
    | false =>
      cases op with
      | setup => simp [givesUp] at hgives
      | teardown =>
        refine .called (r := { sl with queued := none }) hobedient rfl fun d hd hdelete => ?_
        exact .teardownCb (h.live d hd hdelete).startable (h.obedient.sound.links d hd) hdelete
  | ended sc =>
    have hr : sl.running = some sc := hen
    refine .called (r := { sl with running := none }) hobedient rfl fun d hdev hdelete => ?_
    have hd : sl.device = some d := hdev
    have hlive := h.live d hd hdelete
    cases hop : sc.op with
    | setup =>
      rw [hr, Option.map_some, hop] at hlive
      refine hlive.setupCb fun hs => ?_
      simp only [givesUp, hd, hop, hdelete, hs, decide_true, Bool.not_false, Bool.and_true,
        Bool.true_and, decide_eq_false_iff_not] at hgives
      exact Int.not_le.mp hgives
    | teardown => exact .teardownCb hlive.startable (h.obedient.sound.links d hd) hdelete

/-- A device keeps its data, and is live or on its way out as before; a live device
does not go down. -/
structure Carried (sl sl' : Slot) : Prop where
  before : ∀ d', sl'.device = some d' → ∃ d, sl.device = some d ∧ d.delete = d'.delete ∧
    d.data = d'.data ∧ (d'.delete = false → d'.state = .down → d.state = .down)
  after : ∀ d, sl.device = some d → sl'.device = none → d.delete = true

/-- The calls that are neither requests nor updates. -/
def plain : Call → Bool
  | .start | .stop | .destroy | .update _ => false
  | _ => true

theorem sameOrders_start (hauto : d.autostart = true) : SameOrders d (d.start env).wdev := by
  rw [Wdev.start]
  simp only
  split_ifs
  · exact ⟨rfl, rfl, rfl⟩
  · exact ⟨hauto.symm, rfl, rfl⟩
  · exact .trans (({ d with autostart := true }.reset.updateDisabledVifs env).configInit env)
      ⟨hauto.symm, rfl, rfl⟩ .setup
  · exact .trans ({ d with autostart := true }.reset.updateDisabledVifs env)
      ⟨hauto.symm, rfl, rfl⟩ .setup

namespace Carried

variable {sl : Slot} {n : Name}

/-- A method that keeps the orders of its device carries it on. -/
theorem after_method {r : Slot} {o : Outcome} (hd : sl.device = some d)
    (horders : SameOrders d o.wdev)
    (hdown : o.wdev.delete = false → o.wdev.state = .down → d.state = .down)
    (hdeleted : o.deleted = true → o.wdev.delete = true) : Carried sl (r.after o) := by
  refine ⟨fun d' hd' => ?_, fun d₁ hd₁ hnone => ?_⟩
  · obtain ⟨rfl, -⟩ := Slot.device_after hd'
    exact ⟨d, hd, horders.delete.symm, horders.data.symm, hdown⟩
  · obtain rfl : d = d₁ := Option.some.inj (hd.symm.trans hd₁)
    simp only [Slot.after] at hnone
    split_ifs at hnone with hdel
    exact horders.delete ▸ hdeleted hdel

theorem call {c : Call} (hd : sl.device = some d) (hc : plain c = true ∨ c = .start ∧ d.autostart = true) :
    Carried sl (sl.apply env n (.call c)) := by
  simp only [Slot.apply, hd]
  have hshift := shift_call env c d
  refine after_method hd ?_ (fun _ => hshift.down) hshift.delete
  rcases hc with hplain | ⟨rfl, hauto⟩
  · refine .call ?_ ?_ ?_ ?_
    · rintro rfl
      simp [plain] at hplain
    · rintro rfl
      simp [plain] at hplain
    · rintro rfl
      simp [plain] at hplain
    · rintro data rfl
      simp [plain] at hplain
  · exact sameOrders_start hauto

/-- The end of a teardown script leaves a live device in `setup`. -/
theorem called {r : Slot} {op : Op} (hready : sl.Ready) (hdevice : r.device = sl.device) :
    Carried sl (r.called env op) := by
  cases hd : sl.device with
  | none =>
    rw [Slot.called, hdevice, hd]
    exact ⟨fun d' hd' => absurd hd' (by simp [hdevice, hd]), fun d₁ hd₁ => absurd hd₁ (by simp [hd])⟩
  | some d =>
    rw [Slot.called, hdevice, hd]
    cases op with
    | setup =>
      have hshift := shift_setupCb env d
      exact after_method hd .setupCb (fun _ => hshift.down) hshift.delete
    | teardown =>
      have hlinks := hready.obedient.sound.links d hd
      refine after_method hd .teardownCb (fun hdelete hs => ?_) (fun hdeleted => ?_)
      · -- A live device can always be set up again.
        have hd0 : d.delete = false := SameOrders.teardownCb.delete.symm.trans hdelete
        have hstart := (hready.live d hd hd0).startable
        have hunlinked : Startable d.unlinked := hstart.of_eq rfl hstart.unfailed rfl rfl rfl
        simp only [Wireless.callback, teardownCb_of_linkable hlinks] at hs
        simp [hd0, (hunlinked.queued_setup (.inr rfl)).2] at hs
      · exact (shift_teardownCb hlinks).delete hdeleted

theorem run {op : Op} {spawned : Bool} (hready : sl.Ready) :
    Carried sl (sl.apply env n (.run op spawned)) := by
  cases spawned with
  | true =>
    refine ⟨fun d' hd' => ?_, fun d hd hnone => ?_⟩
    · obtain ⟨d, hd, rfl⟩ := Option.map_eq_some_iff.mp hd'
      split_ifs <;> exact ⟨d, hd, rfl, rfl, fun _ => id⟩
    · simp [Slot.apply, hd] at hnone
  | false => exact called hready rfl

theorem ended {sc : Script} (hready : sl.Ready) : Carried sl (sl.apply env n (.ended sc)) :=
  called hready rfl

end Carried

/-- Whether a task is more than a round of `run_next_handler`. -/
def Task.planned : Task → Bool
  | .runNext => false
  | _ => true

/-- What is left of a reload or another loop over the devices. -/
def Wireless.plan (s : Wireless) : List Task := s.agenda.filter Task.planned

/-- The tasks of the first half of a reload. -/
def Task.changes : Task → Bool
  | .remove _ | .place _ _ => true
  | _ => false

/-- The tasks of a loop over the devices. -/
def Task.loops : Task → Bool
  | .ifAutostart _ .start => true
  | .ifAutostart _ c => plain c
  | _ => false

/-- A plan is a reload up to its `config_start`, or a loop over the devices. -/
def Phased (plan : List Task) : Prop :=
  (∃ changes, plan = changes ++ [.configStart] ∧ ∀ t ∈ changes, t.changes = true) ∨
    ∀ t ∈ plan, t.loops = true

/-- What is still to be done for the last reload. -/
structure Plan (s : Wireless) : Prop where
  phased : Phased s.plan
  place : ∀ n data, .place n data ∈ s.plan → s.target.get? n = some data
  remove : ∀ n, .remove n ∈ s.plan → s.target.get? n = none
  absent : ∀ n data, s.target.get? n = some data → s.devices.get? n = none →
    .place n data ∈ s.plan
  live : ∀ n d, s.devices.get? n = some d → d.delete = false →
    s.target.get? n = some d.data ∨ (∃ data, .place n data ∈ s.plan) ∨ .remove n ∈ s.plan
  dropped : ∀ n d, s.devices.get? n = some d → d.delete = true →
    ∀ data, s.target.get? n = some data → .place n data ∈ s.plan
  down : ∀ n d, s.devices.get? n = some d → d.delete = false → d.state = .down →
    .configStart ∈ s.plan ∨ .ifAutostart n .start ∈ s.plan

namespace Phased

variable {plan : List Task} {task : Task}

theorem tail (h : Phased (task :: plan)) (hne : task ≠ .configStart) : Phased plan := by
  rcases h with ⟨changes, heq, hall⟩ | hall
  · cases changes with
    | nil => exact absurd (List.cons.inj heq).1 hne
    | cons t ts =>
      exact .inl ⟨ts, (List.cons.inj heq).2, fun u hu => hall u (List.mem_cons_of_mem _ hu)⟩
  · exact .inr fun u hu => hall u (List.mem_cons_of_mem _ hu)

theorem start_mem (h : Phased (task :: plan)) (hchange : task.changes = true) :
    .configStart ∈ plan := by
  rcases h with ⟨changes, heq, -⟩ | hall
  · cases changes with
    | nil =>
      obtain ⟨rfl, -⟩ := List.cons.inj heq
      simp [Task.changes] at hchange
    | cons t ts => simp [(List.cons.inj heq).2]
  · have hloop := hall task List.mem_cons_self
    cases task <;> simp [Task.changes, Task.loops] at hchange hloop

theorem nil_of_start (h : Phased (.configStart :: plan)) : plan = [] := by
  rcases h with ⟨changes, heq, hall⟩ | hall
  · cases changes with
    | nil => exact (List.cons.inj heq).2
    | cons t ts =>
      obtain ⟨rfl, -⟩ := List.cons.inj heq
      exact absurd (hall _ List.mem_cons_self) (by simp [Task.changes])
  · exact absurd (hall _ List.mem_cons_self) (by simp [Task.loops])

/-- A loop over the devices makes only plain calls and starts. -/
theorem loop {n : Name} {c : Call} (h : Phased (.ifAutostart n c :: plan)) :
    plain c = true ∨ c = .start := by
  have hloop : (Task.ifAutostart n c).loops = true := by
    rcases h with ⟨changes, heq, hall⟩ | hall
    · cases changes with
      | nil => exact absurd (List.cons.inj heq).1 (by simp)
      | cons t ts =>
        obtain ⟨rfl, -⟩ := List.cons.inj heq
        exact absurd (hall _ List.mem_cons_self) (by simp [Task.changes])
    · exact hall _ List.mem_cons_self
  cases c <;> simp [Task.loops, plain] at hloop ⊢

end Phased

section

variable {s : Wireless} {n : Name}

theorem plan_put (o : Outcome) (reported : Bool) : (s.put n o reported).plan = s.plan := by
  simp only [Wireless.put, Wireless.plan]
  split_ifs <;> rfl

theorem plan_call (c : Call) : (s.call env n c).plan = s.plan := by
  rw [Wireless.call]
  cases s.devices.get? n with
  | none => rfl
  | some d => exact plan_put _ _

theorem target_call (c : Call) : (s.call env n c).target = s.target := by
  rw [Wireless.call]
  cases s.devices.get? n <;> rfl

theorem plan_runHandlerCb (s : Wireless) (env : Env) (n : Name) (op : Op) (reported : Bool) :
    (s.runHandlerCb env n op reported).plan = s.plan ∧
      (s.runHandlerCb env n op reported).target = s.target := by
  rw [Wireless.runHandlerCb]
  cases s.cur with
  | none => exact ⟨rfl, rfl⟩
  | some cur =>
    simp only
    split_ifs
    · exact ⟨rfl, rfl⟩
    · cases s.devices.get? n with
      | none => exact ⟨rfl, rfl⟩
      | some d => exact ⟨plan_put _ _, rfl⟩

theorem plan_dispatch (op : Op) (spawned : Bool) :
    (s.dispatch env spawned n op).plan = s.plan ∧
      (s.dispatch env spawned n op).target = s.target := by
  cases spawned with
  | true => exact ⟨rfl, rfl⟩
  | false =>
    exact plan_runHandlerCb { s with cur := some (n, op), queue := s.queue.erase n } env n op false

end

theorem Carried.refl (sl : Slot) : Carried sl sl :=
  ⟨fun d' hd' => ⟨d', hd', rfl, rfl, fun _ => id⟩,
    fun _ hd hnone => absurd (hd.symm.trans hnone) (by simp)⟩

/-- A start takes a live device out of the state `down`. -/
theorem start_ne_down (h : Startable d) (hdelete : d.delete = false) :
    (d.start env).wdev.state ≠ .down := by
  have hd : Startable { d with autostart := true }.reset :=
    h.of_eq h.autostart.symm rfl rfl rfl rfl
  rw [Wdev.start, if_neg (by simp [hdelete])]
  simp only
  split_ifs with hstate hchange
  · exact hstate
  · have hinit : Startable (({ d with autostart := true }.reset.updateDisabledVifs env).configInit
      env) := .configInit rfl rfl
    rw [(hinit.queued_setup (.inr (of_not_not hstate))).2]
    decide
  · rw [((hd.updateDisabledVifs (by simpa using hchange)).queued_setup
      (.inr (of_not_not hstate))).2]
    decide

section

variable {s t : Wireless} {e : Event}

/-- A step that changes no plan for a device and carries all devices on. -/
theorem Plan.of_carried (h : Plan s) (htarget : t.target = s.target)
    (hcarried : ∀ n, Carried (s.slot n) (t.slot n)) (hphased : Phased t.plan)
    (hchanges : ∀ task : Task, task.changes = true → (task ∈ t.plan ↔ task ∈ s.plan))
    (hdown : ∀ n d', t.devices.get? n = some d' → d'.delete = false → d'.state = .down →
      .configStart ∈ s.plan ∨ .ifAutostart n .start ∈ s.plan →
      .configStart ∈ t.plan ∨ .ifAutostart n .start ∈ t.plan) : Plan t where
  phased := hphased
  place n data hmem := htarget ▸ h.place n data ((hchanges _ rfl).mp hmem)
  remove n hmem := htarget ▸ h.remove n ((hchanges _ rfl).mp hmem)
  absent n data htgt hnone := by
    rw [htarget] at htgt
    refine (hchanges _ rfl).mpr ?_
    cases hd : s.devices.get? n with
    | none => exact h.absent n data htgt hd
    | some d => exact h.dropped n d hd ((hcarried n).after d hd hnone) data htgt
  live n d' hd' hdelete := by
    obtain ⟨d, hd, hdel, hdata, -⟩ := (hcarried n).before d' hd'
    rw [htarget, ← hdata]
    rcases h.live n d hd (hdel.trans hdelete) with htgt | ⟨data, hplace⟩ | hremove
    · exact .inl htgt
    · exact .inr (.inl ⟨data, (hchanges _ rfl).mpr hplace⟩)
    · exact .inr (.inr ((hchanges _ rfl).mpr hremove))
  dropped n d' hd' hdelete data htgt := by
    obtain ⟨d, hd, hdel, -⟩ := (hcarried n).before d' hd'
    rw [htarget] at htgt
    exact (hchanges _ rfl).mpr (h.dropped n d hd (hdel.trans hdelete) data htgt)
  down n d' hd' hdelete hs := by
    obtain ⟨d, hd, hdel, -, hkeep⟩ := (hcarried n).before d' hd'
    exact hdown n d' hd' hdelete hs (h.down n d hd (hdel.trans hdelete) (hkeep hdelete hs))

theorem Plan.of_same (h : Plan s) (htarget : t.target = s.target) (hplan : t.plan = s.plan)
    (hcarried : ∀ n, Carried (s.slot n) (t.slot n)) : Plan t :=
  h.of_carried htarget hcarried (hplan ▸ h.phased) (fun _ _ => by rw [hplan])
    fun _ _ _ _ _ hpending => hplan ▸ hpending

/-- The deed of one device carries all devices on, if it carries this one on. -/
theorem carried_all (hp : Procs s) (hst : step s e = some t)
    (hdeed : ∀ n a, deed s e = some (n, a) → Carried (s.slot n) ((s.slot n).apply e.env n a))
    (m : Name) : Carried (s.slot m) (t.slot m) := by
  rw [step_slot hp hst]
  cases ha : deed s e with
  | none => exact .refl _
  | some na =>
    simp only
    split_ifs with hm
    · exact hm ▸ hdeed na.1 na.2 ha
    · exact .refl _

end

section

variable {s t : Wireless} {e : Event} {n : Name}

/-- A device of the plan has been removed or placed. -/
theorem Plan.of_changed {task : Task} (h : Plan s) (hplan : s.plan = task :: t.plan)
    (htask : task = .remove n ∨ ∃ data, task = .place n data) (htarget : t.target = s.target)
    (hothers : ∀ m, m ≠ n → t.devices.get? m = s.devices.get? m)
    (hn : (t.target.get? n = none ∧ ∀ d, t.devices.get? n = some d → d.delete = true) ∨
      ∃ d, t.devices.get? n = some d ∧ d.delete = false ∧ t.target.get? n = some d.data) :
    Plan t := by
  have hphased : Phased (task :: t.plan) := hplan ▸ h.phased
  have hchanges : task.changes = true := by
    rcases htask with rfl | ⟨data, rfl⟩ <;> rfl
  have hmem : ∀ u, u ∈ t.plan → u ∈ s.plan := fun u hu => hplan ▸ List.mem_cons_of_mem _ hu
  -- The task concerns no other device.
  have hplace : ∀ m data, m ≠ n → .place m data ∈ s.plan → .place m data ∈ t.plan := by
    intro m data hm hu
    rw [hplan] at hu
    refine (List.mem_cons.mp hu).resolve_left fun heq => hm ?_
    rcases htask with rfl | ⟨data', rfl⟩
    · simp at heq
    · exact (Task.place.inj heq).1
  have hremove : ∀ m, m ≠ n → .remove m ∈ s.plan → .remove m ∈ t.plan := by
    intro m hm hu
    rw [hplan] at hu
    refine (List.mem_cons.mp hu).resolve_left fun heq => hm ?_
    rcases htask with rfl | ⟨data', rfl⟩
    · exact Task.remove.inj heq
    · simp at heq
  refine ⟨hphased.tail fun heq => by simp [heq, Task.changes] at hchanges, ?_, ?_, ?_, ?_, ?_, ?_⟩
  · exact fun m data hu => htarget ▸ h.place m data (hmem _ hu)
  · exact fun m hu => htarget ▸ h.remove m (hmem _ hu)
  · intro m data htgt hnone
    by_cases hm : m = n
    · subst hm
      rcases hn with ⟨hno, -⟩ | ⟨d, hd, -⟩
      · exact absurd (hno.symm.trans htgt) (by simp)
      · exact absurd (hd.symm.trans hnone) (by simp)
    · exact hplace m data hm (h.absent m data (htarget ▸ htgt) (hothers m hm ▸ hnone))
  · intro m d hd hdelete
    by_cases hm : m = n
    · subst hm
      rcases hn with ⟨-, hall⟩ | ⟨d', hd', -, htgt⟩
      · exact absurd (hall d hd) (by simp [hdelete])
      · obtain rfl : d' = d := Option.some.inj (hd'.symm.trans hd)
        exact .inl htgt
    · rcases h.live m d (hothers m hm ▸ hd) hdelete with htgt | ⟨data, hu⟩ | hu
      · exact .inl (htarget ▸ htgt)
      · exact .inr (.inl ⟨data, hplace m data hm hu⟩)
      · exact .inr (.inr (hremove m hm hu))
  · intro m d hd hdelete data htgt
    by_cases hm : m = n
    · subst hm
      rcases hn with ⟨hno, -⟩ | ⟨d', hd', hlive, -⟩
      · exact absurd (hno.symm.trans htgt) (by simp)
      · obtain rfl : d' = d := Option.some.inj (hd'.symm.trans hd)
        exact absurd hlive (by simp [hdelete])
    · exact hplace m data hm (h.dropped m d (hothers m hm ▸ hd) hdelete data (htarget ▸ htgt))
  · exact fun _ _ _ _ _ => .inl (hphased.start_mem hchanges)

theorem devices_of_ne {a : Deed} (hp : Procs s) (hst : step s e = some t)
    (ha : ∀ m a', deed s e = some (m, a') → m = n ∧ a' = a) (m : Name) (hm : m ≠ n) :
    t.devices.get? m = s.devices.get? m := by
  have hslot := step_slot hp hst m
  cases hd : deed s e with
  | none =>
    rw [hd] at hslot
    exact congrArg Slot.device hslot
  | some na =>
    rw [hd] at hslot
    simp only at hslot
    rw [if_neg fun heq => hm (heq.trans (ha na.1 na.2 hd).1)] at hslot
    exact congrArg Slot.device hslot

/-- The deeds of the runs in which the last configuration wins. -/
def steady (_ : Env) (sl : Slot) (a : Deed) : Bool :=
  unnamed a && !lateUp sl a && !readds sl a && !givesUp sl a

/-- A device is destroyed because the configuration does not have it. -/
theorem plan_remove {rest : List Task} {pick : Name} {spawned : Bool} (hp : Procs s) (h : Plan s)
    (hag : s.agenda = .remove n :: rest)
    (hst : step s ⟨.next pick spawned, env⟩ = some t) : Plan t := by
  have hplan : s.plan = .remove n :: rest.filter Task.planned := by
    rw [Wireless.plan, hag]
    rfl
  have ht : t = { s with agenda := rest }.call env n .destroy := by
    simp only [step, Wireless.next, hag] at hst
    exact (Option.some.inj hst).symm
  have htarget : t.target = s.target := by rw [ht, target_call]
  have htplan : t.plan = rest.filter Task.planned := by rw [ht, plan_call]; rfl
  have hdeed : deed s ⟨.next pick spawned, env⟩ = calling s n .destroy := by simp [deed, hag]
  have hnone : s.target.get? n = none := h.remove n (by simp [hplan])
  refine h.of_changed (hplan.trans (by rw [htplan])) (.inl rfl) htarget
    (devices_of_ne (a := .call .destroy) hp hst ?_) (.inl ⟨htarget ▸ hnone, ?_⟩)
  · intro m a' ha
    rw [hdeed] at ha
    obtain ⟨-, -, heq⟩ := Option.map_eq_some_iff.mp ha
    exact ⟨(Prod.mk.inj heq).1.symm, (Prod.mk.inj heq).2.symm⟩
  · intro d' hd'
    rw [ht, Wireless.call] at hd'
    cases hd : s.devices.get? n with
    | none => simp [hd] at hd'
    | some d =>
      simp only [hd, Wireless.put] at hd'
      split_ifs at hd' with hdeleted
      · simp at hd'
      · rw [Table.get?_set_self] at hd'
        exact Option.some.inj hd' ▸ d.flags_destroy.2

end

/-- An update of a live device leaves it live, with the new data. -/
theorem update_call (env : Env) (data : DevData) (hdelete : d.delete = false) :
    (d.update env (some data)).deleted = false ∧ (d.update env (some data)).wdev.delete = false ∧
      (d.update env (some data)).wdev.data = data := by
  have horders : (d.update env (some data)).wdev.delete = false ∧
      (d.update env (some data)).wdev.data = data := by
    rw [Wdev.update]
    split_ifs with hsame
    · exact ⟨hdelete, (Option.some.inj hsame).symm⟩
    · have hcheck : SameOrders (d.withData (some data)) ((d.withData (some data)).check env).wdev :=
        .check
      exact ⟨hcheck.delete, hcheck.data⟩
  refine ⟨?_, horders⟩
  by_contra hdeleted
  -- Only a device that is to be deleted is deleted.
  have hdel := (shift_call env (.update (some data)) d).delete (by simpa [Call.run] using hdeleted)
  exact absurd (horders.1.symm.trans hdel) (by simp)

section

variable {s t : Wireless} {e : Event} {n : Name} {pick : Name} {spawned : Bool} {rest : List Task}

/-- A device of the configuration is updated or created. -/
theorem plan_place {data : DevData} (hp : Procs s) (h : Plan s)
    (hag : s.agenda = .place n data :: rest)
    (hok : eachDeed steady s ⟨.next pick spawned, env⟩ = true)
    (hst : step s ⟨.next pick spawned, env⟩ = some t) : Plan t := by
  have hplan : s.plan = .place n data :: rest.filter Task.planned := by
    rw [Wireless.plan, hag]
    rfl
  have htgt : s.target.get? n = some data := h.place n data (by simp [hplan])
  simp only [step, Wireless.next, hag] at hst
  cases hd : s.devices.get? n with
  | none =>
    simp only [hd, Option.some.injEq] at hst
    subst hst
    refine h.of_changed (hplan.trans rfl) (.inr ⟨data, rfl⟩) rfl (fun m hm => ?_)
      (.inr ⟨.new env n data, by simp [Wireless.create], rfl, htgt⟩)
    simp [Wireless.create, Table.get?_set_ne hm]
  | some d =>
    simp only [hd, Option.some.injEq] at hst
    have hdeed : deed s ⟨.next pick spawned, env⟩ = some (n, .call (.update (some data))) := by
      simp [deed, hag, hd]
    have hdelete : d.delete = false := by
      have hsteady := eachDeed_apply hok hdeed
      simp only [steady, readds, Wireless.slot, hd, Bool.and_eq_true, Bool.not_eq_true'] at hsteady
      exact hsteady.1.2
    obtain ⟨hdeleted, hdelete', hdata'⟩ := update_call env data hdelete
    have hdev : t.devices.get? n = some (d.update env (some data)).wdev := by
      rw [← hst, Wireless.call]
      simp [hd, Wireless.put, Call.run, hdeleted]
    have htarget : t.target = s.target := by rw [← hst, target_call]
    have htplan : t.plan = rest.filter Task.planned := by rw [← hst, plan_call]; rfl
    refine h.of_changed (hplan.trans (by rw [htplan])) (.inr ⟨data, rfl⟩) htarget (fun m hm => ?_)
      (.inr ⟨_, hdev, hdelete', by rw [htarget, htgt, hdata']⟩)
    rw [← hst, Wireless.call]
    simp [hd, Wireless.put, Call.run, hdeleted, Table.get?_set_ne hm]

/-- The devices are about to be started one after the other. -/
theorem plan_configStart (h : Plan s) (hag : s.agenda = .configStart :: rest)
    (hst : step s ⟨.next pick spawned, env⟩ = some t) : Plan t := by
  have hplan : s.plan = .configStart :: rest.filter Task.planned := by
    rw [Wireless.plan, hag]
    rfl
  have hrest : rest.filter Task.planned = [] := (hplan ▸ h.phased).nil_of_start
  simp only [step, Wireless.next, hag, Option.some.injEq] at hst
  subst hst
  have htplan : ({ s with agenda := s.devices.keys.map (.ifAutostart · .start) ++ rest } :
      Wireless).plan = s.devices.keys.map (.ifAutostart · .start) := by
    rw [Wireless.plan, List.filter_append, hrest, List.append_nil, List.filter_eq_self]
    intro task htask
    obtain ⟨n, -, rfl⟩ := List.mem_map.mp htask
    rfl
  refine h.of_carried rfl (fun _ => .refl _) ?_ (fun task htask => ?_) (fun n d hd _ _ _ => ?_)
  · rw [htplan]
    refine .inr fun task htask => ?_
    obtain ⟨n, -, rfl⟩ := List.mem_map.mp htask
    rfl
  · rw [htplan, hplan, hrest, List.mem_singleton]
    constructor
    · intro hmem
      obtain ⟨n, -, rfl⟩ := List.mem_map.mp hmem
      simp [Task.changes] at htask
    · rintro rfl
      simp [Task.changes] at htask
  · rw [htplan]
    exact .inr (List.mem_map.mpr ⟨n, Table.mem_keys_iff_isSome.mpr (by simp [hd]), rfl⟩)

/-- A device of the loop is called, or left out. -/
theorem plan_ifAutostart {c : Call} (hp : Procs s) (hready : ∀ n, (s.slot n).Ready) (h : Plan s)
    (hag : s.agenda = .ifAutostart n c :: rest)
    (hst : step s ⟨.next pick spawned, env⟩ = some t) : Plan t := by
  have hplan : s.plan = .ifAutostart n c :: rest.filter Task.planned := by
    rw [Wireless.plan, hag]
    rfl
  have hcall : plain c = true ∨ c = .start := (hplan ▸ h.phased).loop
  have hphased : Phased (rest.filter Task.planned) := (hplan ▸ h.phased).tail (by simp)
  have hst' := hst
  simp only [step, Wireless.next, hag] at hst'
  -- What follows from the devices after the step.
  have hfinish : t.target = s.target → t.plan = rest.filter Task.planned →
      (∀ m, Carried (s.slot m) (t.slot m)) →
      (c = .start → ∀ d', t.devices.get? n = some d' → d'.delete = false → d'.state ≠ .down) →
      Plan t := by
    intro htarget htplan hcarried hstart
    refine h.of_carried htarget hcarried (htplan ▸ hphased) (fun task htask => ?_)
      (fun m d' hd' hdelete hs hpending => ?_)
    · rw [htplan, hplan, List.mem_cons, or_iff_right]
      rintro rfl
      simp [Task.changes] at htask
    · rw [hplan] at hpending
      rw [htplan]
      rcases hpending with hu | hu
      · exact .inl ((List.mem_cons.mp hu).resolve_left (by simp))
      · refine .inr ((List.mem_cons.mp hu).resolve_left fun heq => ?_)
        obtain ⟨rfl, rfl⟩ := Task.ifAutostart.inj heq
        exact hstart rfl d' hd' hdelete hs
  cases hd : s.devices.get? n with
  | none =>
    simp only [hd, Option.some.injEq] at hst'
    subst hst'
    exact hfinish rfl rfl (fun _ => .refl _) fun _ d' hd' => absurd hd' (by simp [hd])
  | some d =>
    simp only [hd] at hst'
    split_ifs at hst' with hauto
    · have ht := (Option.some.inj hst').symm
      have hdeed : deed s ⟨.next pick spawned, env⟩ = some (n, .call c) := by
        simp [deed, hag, hd, hauto]
      refine hfinish (by rw [ht, target_call]) (by rw [ht, plan_call]; rfl)
        (carried_all hp hst fun m a ha => ?_) (fun hstart d' hd' hdelete => ?_)
      · rw [hdeed] at ha
        obtain ⟨rfl, rfl⟩ := Prod.mk.inj (Option.some.inj ha)
        exact .call hd (hcall.imp_right fun hc => ⟨hc, hauto⟩)
      · -- A live device is started.
        subst hstart
        rw [ht, Wireless.call] at hd'
        simp only [hd, Wireless.put] at hd'
        split_ifs at hd'
        · simp at hd'
        · rw [Table.get?_set_self] at hd'
          obtain rfl := Option.some.inj hd'
          have hbefore : d.delete = false := (sameOrders_start hauto).delete.symm.trans hdelete
          exact start_ne_down ((hready n).live d hd hbefore).startable hbefore
    · obtain rfl := Option.some.inj hst'
      refine hfinish rfl rfl (fun _ => .refl _) fun _ d' hd' hdelete => ?_
      -- A device without `autostart` is on its way out.
      obtain rfl : d = d' := Option.some.inj (hd.symm.trans hd')
      exact absurd ((hready n).live d hd hdelete).startable.autostart hauto

theorem plan_next (hp : Procs s) (hready : ∀ n, (s.slot n).Ready) (h : Plan s)
    (hok : eachDeed steady s ⟨.next pick spawned, env⟩ = true)
    (hst : step s ⟨.next pick spawned, env⟩ = some t) : Plan t := by
  cases hag : s.agenda with
  | nil => simp [step, Wireless.next, hag] at hst
  | cons task rest =>
    cases task with
    | runNext =>
      have hplan : s.plan = rest.filter Task.planned := by
        rw [Wireless.plan, hag]
        rfl
      by_cases hbusy : s.cur ≠ none ∨ s.queue.entries = []
      · have hnext : s.next env pick spawned = some t := hst
        rw [next_of_busy hag hbusy] at hnext
        obtain rfl := Option.some.inj hnext
        exact h.of_same rfl hplan.symm fun _ => .refl _
      · push Not at hbusy
        obtain ⟨q, qs, hq⟩ := List.exists_cons_of_ne_nil hbusy.2
        have hst' := hst
        simp only [step, Wireless.next, hag, hbusy.1, hq] at hst'
        obtain ⟨op, hop, ht⟩ := Option.map_eq_some_iff.mp hst'
        have hdeed : deed s ⟨.next pick spawned, env⟩ = some (pick, .run op spawned) := by
          simp [deed, hag, hbusy.1, hop]
        refine h.of_same (ht ▸ (plan_dispatch op spawned).2) (ht ▸ (plan_dispatch op spawned).1)
          (carried_all hp hst fun m a ha => ?_)
        rw [hdeed] at ha
        obtain ⟨rfl, rfl⟩ := Prod.mk.inj (Option.some.inj ha)
        exact .run (hready pick)
    | remove n => exact plan_remove hp h hag hst
    | place n data => exact plan_place hp h hag hok hst
    | configStart => exact plan_configStart h hag hst
    | ifAutostart n c => exact plan_ifAutostart hp hready h hag hst

end

/-- What may happen: reloads, interface checks and the work of the handlers, but no
request to start, stop, change or create a single device. -/
def handled : Act → Bool
  | .call _ c => plain c
  | .new _ _ => false
  | _ => true

section

variable {s t : Wireless} {e : Event}

/-- A reload plans a change for every device. -/
theorem plan_reload (h : Plan s) (hag : s.agenda = []) (devices : Table Name DevData) :
    Plan { s with agenda := reloadTasks s devices, target := devices } := by
  have hplan : ({ s with agenda := reloadTasks s devices, target := devices } : Wireless).plan =
      ((s.devices.keys.filter (· ∉ devices.keys)).map .remove ++
        devices.entries.map fun e => .place e.1 e.2) ++ [.configStart] := by
    rw [Wireless.plan, reloadTasks, List.filter_eq_self]
    intro task htask
    simp only [List.mem_append, List.mem_map, List.mem_singleton] at htask
    rcases htask with (⟨n, -, rfl⟩ | ⟨e, -, rfl⟩) | rfl <;> rfl
  have hplace : ∀ n data, devices.get? n = some data →
      Task.place n data ∈ ((s.devices.keys.filter (· ∉ devices.keys)).map Task.remove ++
        devices.entries.map fun e => Task.place e.1 e.2) ++ [Task.configStart] := by
    intro n data hget
    simp only [List.mem_append, List.mem_map]
    exact .inl (.inr ⟨(n, data), Table.get?_eq_some.mp hget, rfl⟩)
  refine ⟨hplan ▸ .inl ⟨_, rfl, fun task htask => ?_⟩, ?_, ?_, ?_, ?_, ?_, ?_⟩
  · rcases List.mem_append.mp htask with hu | hu
    · obtain ⟨n, -, rfl⟩ := List.mem_map.mp hu
      rfl
    · obtain ⟨e, -, rfl⟩ := List.mem_map.mp hu
      rfl
  · intro n data hu
    rw [hplan] at hu
    simp only [List.mem_append, List.mem_map, List.mem_singleton, reduceCtorEq, and_false,
      exists_false, false_or, or_false] at hu
    obtain ⟨e, he, heq⟩ := hu
    obtain ⟨rfl, rfl⟩ := Task.place.inj heq
    exact Table.get?_eq_some.mpr he
  · intro n hu
    rw [hplan] at hu
    simp only [List.mem_append, List.mem_map, List.mem_singleton, reduceCtorEq, and_false,
      exists_false, or_false] at hu
    obtain ⟨m, hm, heq⟩ := hu
    obtain rfl := Task.remove.inj heq
    exact Table.get?_eq_none.mpr (by simpa using (List.mem_filter.mp hm).2)
  · exact fun n data hget _ => hplan ▸ hplace n data hget
  · intro n d hd _
    cases hget : devices.get? n with
    | some data => exact .inr (.inl ⟨data, hplan ▸ hplace n data hget⟩)
    | none =>
      -- The configuration does not have the device.
      refine .inr (.inr (hplan ▸ ?_))
      simp only [List.mem_append, List.mem_map, List.mem_filter]
      have hkey : n ∈ s.devices.keys := Table.mem_keys_iff_isSome.mpr (by simp [hd])
      exact .inl (.inl ⟨n, ⟨hkey, by simpa using Table.get?_eq_none.mp hget⟩, rfl⟩)
  · exact fun n _ _ _ data hget => hplan ▸ hplace n data hget
  · exact fun _ _ _ _ _ => .inl (hplan ▸ by simp)

/-- A loop over the devices that makes plain calls. -/
theorem plan_loop (h : Plan s) (hag : s.agenda = []) {c : Call} (hc : plain c = true) :
    Plan { s with agenda := s.devices.keys.map (.ifAutostart · c) } := by
  have hnil : s.plan = [] := by rw [Wireless.plan, hag]; rfl
  have hmem : ∀ task ∈ s.devices.keys.map (Task.ifAutostart · c), ∃ n, task = .ifAutostart n c := by
    intro task htask
    obtain ⟨n, -, rfl⟩ := List.mem_map.mp htask
    exact ⟨n, rfl⟩
  have hplan : ({ s with agenda := s.devices.keys.map (.ifAutostart · c) } : Wireless).plan =
      s.devices.keys.map (.ifAutostart · c) := by
    rw [Wireless.plan, List.filter_eq_self]
    intro task htask
    obtain ⟨n, rfl⟩ := hmem task htask
    rfl
  refine h.of_carried rfl (fun _ => .refl _) ?_ (fun task htask => ?_) (fun _ _ _ _ _ hpending => ?_)
  · rw [hplan]
    refine .inr fun task htask => ?_
    obtain ⟨n, rfl⟩ := hmem task htask
    cases c <;> simp [Task.loops, plain] at hc ⊢
  · rw [hplan, hnil]
    constructor
    · intro hu
      obtain ⟨n, rfl⟩ := hmem task hu
      simp [Task.changes] at htask
    · intro hu
      simp at hu
  · simp [hnil] at hpending

theorem plan_react (hp : Procs s) (hready : ∀ n, (s.slot n).Ready) (h : Plan s)
    (hag : s.agenda = []) (hact : handled e.act = true) (hst : step s e = some t) : Plan t := by
  obtain ⟨act, env⟩ := e
  have hreact : react s env act = some t := by
    cases act with
    | next pick spawned => simp [step, Wireless.next, hag] at hst
    | _ => simpa [step, hag] using hst
  cases act with
  | next pick spawned => simp [react] at hreact
  | call n c =>
    obtain rfl := Option.some.inj hreact
    refine h.of_same (target_call c) (plan_call c) (carried_all hp hst fun m a ha => ?_)
    obtain ⟨d, hd, heq⟩ := Option.map_eq_some_iff.mp (show calling s n c = some (m, a) from ha)
    obtain ⟨rfl, rfl⟩ := Prod.mk.inj heq
    exact .call hd (.inl hact)
  | new name data => simp [handled] at hact
  | reload devices => exact Option.some.inj hreact ▸ plan_reload h hag devices
  | checkInterfaces => exact Option.some.inj hreact ▸ plan_loop h hag rfl
  | hotplug dev add => exact Option.some.inj hreact ▸ plan_loop h hag rfl
  | exit i =>
    obtain ⟨sc, hsc, ht⟩ := Option.map_eq_some_iff.mp hreact
    have hcb := plan_runHandlerCb { s with scripts := s.scripts.eraseIdx i } env sc.name sc.op
      sc.reported
    refine h.of_same (ht ▸ hcb.2) (ht ▸ hcb.1) (carried_all hp hst fun m a ha => ?_)
    obtain ⟨sc', -, heq⟩ := Option.map_eq_some_iff.mp
      (show s.scripts[i]?.map (fun sc => (sc.name, Deed.ended sc)) = some (m, a) from ha)
    obtain ⟨rfl, rfl⟩ := Prod.mk.inj heq
    exact .ended (hready _)
  | timeout =>
    rw [react] at hreact
    cases htime : s.timeout with
    | none => simp [htime] at hreact
    | some cur =>
      cases hl : s.scripts.getLast? with
      | none => simp [hl] at hreact
      | some sc =>
        have ht : ({ s with scripts := s.scripts.dropLast } : Wireless).runHandlerCb env cur.1 cur.2
            sc.reported = t := by
          simpa [htime, hl] using hreact
        have hcb := plan_runHandlerCb { s with scripts := s.scripts.dropLast } env cur.1 cur.2
          sc.reported
        refine h.of_same (ht ▸ hcb.2) (ht ▸ hcb.1) (carried_all hp hst fun m a ha => ?_)
        obtain ⟨sc', -, heq⟩ := Option.map_eq_some_iff.mp
          (show s.scripts.getLast?.map (fun sc => (sc.name, Deed.ended sc)) = some (m, a) from ha)
        obtain ⟨rfl, rfl⟩ := Prod.mk.inj heq
        exact .ended (hready _)
  | timer =>
    rw [react] at hreact
    split_ifs at hreact
    obtain rfl := Option.some.inj hreact
    refine h.of_same rfl ?_ fun _ => .refl _
    rw [Wireless.plan, Wireless.plan, hag]
    rfl

end

section

variable {s t : Wireless} {e : Event}

/-- Nothing that may happen tells a device to stop. -/
theorem deed_ne_stop {n : Name} {a : Deed} (h : Plan s) (hact : handled e.act = true)
    (ha : deed s e = some (n, a)) : a ≠ .call .stop := by
  rintro rfl
  obtain ⟨act, env⟩ := e
  cases act with
  | next pick spawned =>
    cases hag : s.agenda with
    | nil => simp [deed, hag] at ha
    | cons task rest =>
      cases task with
      | runNext =>
        cases hcur : s.cur <;> simp [deed, hag, hcur] at ha
      | remove m =>
        cases hd : s.devices.get? m <;> simp [deed, calling, hag, hd] at ha
      | place m data =>
        cases hd : s.devices.get? m <;> simp [deed, hag, hd] at ha
      | configStart => simp [deed, hag] at ha
      | ifAutostart m c =>
        have hplan : s.plan = .ifAutostart m c :: rest.filter Task.planned := by
          rw [Wireless.plan, hag]
          rfl
        cases hd : s.devices.get? m with
        | none => simp [deed, hag, hd] at ha
        | some d =>
          simp only [deed, hag, hd, Option.ite_none_right_eq_some, Option.some.injEq,
            Prod.mk.injEq, Deed.call.injEq] at ha
          obtain ⟨-, -, rfl⟩ := ha
          rcases (hplan ▸ h.phased).loop with hc | hc
          · simp [plain] at hc
          · simp at hc
  | call m c =>
    obtain ⟨d, -, heq⟩ := Option.map_eq_some_iff.mp (show calling s m c = some (n, .call .stop) from ha)
    simp only [Prod.mk.injEq, Deed.call.injEq] at heq
    rw [heq.2] at hact
    simp [handled, plain] at hact
  | new name data => simp [handled] at hact
  | reload devices => simp [deed] at ha
  | checkInterfaces => simp [deed] at ha
  | hotplug dev add => simp [deed] at ha
  | exit i => simp [deed] at ha
  | timeout => simp [deed] at ha
  | timer => simp [deed] at ha

/-- The last configuration wins: when nothing is left to do and no script runs or is
queued, its devices are the ones that are there, and each is up with it. -/
def Converged (s : Wireless) : Prop :=
  s.agenda = [] → s.Quiet →
    (∀ n, n ∈ s.devices.keys ↔ n ∈ s.target.keys) ∧
      ∀ n d, s.devices.get? n = some d → d.state = .up ∧ ∃ data bridges,
        s.target.get? n = some data ∧
          d.started = some (handlerConfig data d.disabledVifs bridges)

/-- A device that is there when nothing is left to do is live, and up. -/
theorem Plan.up (h : Plan s) (hready : ∀ n, (s.slot n).Ready) (hp : Procs s) (hag : s.agenda = [])
    (hquiet : s.Quiet) {n : Name} {d : Wdev} (hd : s.devices.get? n = some d) :
    s.target.get? n = some d.data ∧ d.state = .up ∧ ∃ bridges,
      d.started = some (handlerConfig d.data d.disabledVifs bridges) := by
  have hnil : s.plan = [] := by rw [Wireless.plan, hag]; rfl
  have hq : (s.slot n).queued = none := Table.entries_eq_nil.mp hquiet.2 n
  have hr : (s.slot n).running = none := by simp [Wireless.slot, hp.of_none hquiet.1]
  -- Without operations a device is up or down.
  have hstate : d.state = .up ∨ d.state = .down := by
    have hfits := (hready n).obedient.sound.fits d hd
    rw [hq, hr] at hfits
    cases hs : d.state <;> simp_all [Fits]
  have hdelete : d.delete = false := by
    by_contra hne
    have hobeys := (hready n).obedient.obeys d hd
    obtain ⟨hauto, hdown⟩ := hobeys.deleted (by simpa using hne)
    exact hstate.elim (hobeys.stopped hauto) hdown
  have hup : d.state = .up := by
    refine hstate.resolve_right fun hdown => ?_
    have hpending := h.down n d hd hdelete hdown
    simp [hnil] at hpending
  have hlive := (hready n).live d hd hdelete
  have hunchanged : d.configChange ≠ true := fun hc => by
    have hsetup := hlive.changed hup hc
    simp [hq, hr] at hsetup
  obtain ⟨bridges, hconfig⟩ := hlive.startable.config
  refine ⟨?_, hup, bridges, ?_⟩
  · simpa [hnil] using h.live n d hd hdelete
  · rcases hlive.current with hqueued | ht | hdown | hc | hstarted
    · simp [hq] at hqueued
    · simp [hup] at ht
    · simp [hup] at hdown
    · exact absurd hc hunchanged
    · exact hconfig ▸ hstarted

/-- The invariant of the runs in which the last configuration wins. -/
structure OnCourse (s : Wireless) : Prop where
  procs : Procs s
  ready : ∀ n, (s.slot n).Ready
  plan : Plan s

theorem OnCourse.initial : OnCourse .initial where
  procs := procs_initial
  ready _ := ⟨⟨.empty, by simp [Wireless.slot, Wireless.initial],
    by simp [Wireless.slot, Wireless.initial], by simp [Wireless.slot, Wireless.initial]⟩,
    by simp [Wireless.slot, Wireless.initial]⟩
  plan := by
    have hnil : Wireless.initial.plan = [] := rfl
    exact ⟨.inr (by simp [hnil]), by simp [hnil], by simp [hnil], by simp [Wireless.initial],
      by simp [Wireless.initial], by simp [Wireless.initial], by simp [Wireless.initial]⟩

/-- The steps of the runs in which the last configuration wins. -/
def onCourse (s : Wireless) (e : Event) : Bool := handled e.act && eachDeed steady s e

theorem OnCourse.step (h : OnCourse s) (hok : onCourse s e = true) (hst : step s e = some t) :
    OnCourse t := by
  obtain ⟨hact, hsteady⟩ := Bool.and_eq_true_iff.mp hok
  refine ⟨procs_step h.procs hst, fun m => ?_, ?_⟩
  · rw [step_slot h.procs hst]
    cases ha : deed s e with
    | none => exact h.ready m
    | some na =>
      simp only
      split_ifs with hm
      · have hgood := eachDeed_apply hsteady ha
        simp only [steady, Bool.and_eq_true, Bool.not_eq_true'] at hgood
        exact hm ▸ (h.ready na.1).apply (enabled_of_step h.procs hst ha) hgood.1.1.1 hgood.1.1.2
          hgood.1.2 hgood.2 (deed_ne_stop h.plan hact ha)
      · exact h.ready m
  · obtain ⟨act, env⟩ := e
    cases act with
    | next pick spawned => exact plan_next h.procs h.ready h.plan hsteady hst
    | _ =>
      cases hag : s.agenda with
      | nil => exact plan_react h.procs h.ready h.plan hag hact hst
      | cons task rest => simp [Netifd.step, hag] at hst

/-- The last configuration wins in every run without requests for single devices in
which no device is told an interface name of its own, no up notification is accepted
from a device that is to go, no device comes back before it is gone, and no setup
script fails to start, or ends in state `setup` when there are no retries left. -/
theorem reload_converges (h : Runs (onCourse · ·) s) : Converged s := by
  have hcourse : OnCourse s :=
    h.invariant (by rintro _ rfl; exact .initial) fun _ _ _ hs hok hst => hs.step hok hst
  intro hag hquiet
  have hup := fun n d hd => hcourse.plan.up hcourse.ready hcourse.procs hag hquiet (n := n) (d := d) hd
  refine ⟨fun n => ?_, fun n d hd => ?_⟩
  · rw [Table.mem_keys_iff_isSome, Table.mem_keys_iff_isSome]
    constructor
    · intro hsome
      obtain ⟨d, hd⟩ := Option.isSome_iff_exists.mp hsome
      simp [(hup n d hd).1]
    · intro hsome
      obtain ⟨data, hdata⟩ := Option.isSome_iff_exists.mp hsome
      by_contra hno
      have hplace := hcourse.plan.absent n data hdata (by simpa using hno)
      simp [Wireless.plan, hag] at hplace
  · obtain ⟨htarget, hstate, bridges, hstarted⟩ := hup n d hd
    exact ⟨hstate, d.data, bridges, htarget, hstarted⟩

/-- Every script starts and ends by itself, and a setup script has reported then. -/
def diligent (s : Wireless) (e : Event) : Bool :=
  match e.act with
  | .next _ spawned => spawned
  | .exit i => s.scripts[i]?.all fun sc => sc.op = .teardown || sc.reported
  | .timeout => false
  | _ => true

/-- A reload with one device, and the steps until its setup script runs. -/
def reloadEvents : List Event :=
  ⟨.reload (Table.set ∅ radio0 lanRadio), indexEnv 1⟩ ::
    List.replicate 5 ⟨.next radio0 true, indexEnv 1⟩

theorem reload_converges_radio0 : ∃ s, Runs (onCourse · ·) s ∧ s.agenda = [] ∧ s.Quiet ∧
    radio0 ∈ s.target.keys ∧ Converged s := by
  -- The setup script reports that the device is up and exits.
  have hrun : (runAll step onCourse .initial
      (reloadEvents ++ callEvents 1 .notifyUp 0 ++ [exitEvent])).map (fun s =>
        (s.agenda.isEmpty && s.cur.isNone && s.queue.entries.isEmpty, s.target.keys)) =
      some (true, [radio0]) := by decide +kernel
  obtain ⟨s, hs, heq⟩ := Option.map_eq_some_iff.mp hrun
  obtain ⟨hidle, hkeys⟩ := Prod.mk.inj heq
  rw [Bool.and_eq_true, Bool.and_eq_true, List.isEmpty_iff, Option.isNone_iff_eq_none,
    List.isEmpty_iff] at hidle
  have hreaches : Runs (onCourse · ·) s := reaches_runAll (fun _ _ h => h) (.start rfl) hs
  exact ⟨s, hreaches, hidle.1.1, ⟨hidle.1.2, hidle.2⟩, by simp [hkeys], reload_converges hreaches⟩

/-- The next reload does not have the device, whose setup script still runs. When it
reports that the device is up and exits, the device stays. -/
theorem not_reload_converges : ¬ ∀ s,
    Runs (fun s e => handled e.act = true ∧ diligent s e = true) s → Converged s := by
  intro h
  have hrun : (runAll step (fun s e => handled e.act && diligent s e) .initial
      (reloadEvents ++ ⟨.reload ∅, indexEnv 1⟩ ::
        List.replicate 3 ⟨.next radio0 true, indexEnv 1⟩ ++ callEvents 1 .notifyUp 0 ++
        [exitEvent])).map (fun s =>
          (s.agenda.isEmpty && s.cur.isNone && s.queue.entries.isEmpty, s.devices.keys,
            s.target.keys)) =
      some (true, [radio0], []) := by decide +kernel
  obtain ⟨s, hs, heq⟩ := Option.map_eq_some_iff.mp hrun
  obtain ⟨hidle, hkeys⟩ := Prod.mk.inj heq
  obtain ⟨hdevices, htarget⟩ := Prod.mk.inj hkeys
  rw [Bool.and_eq_true, Bool.and_eq_true, List.isEmpty_iff, Option.isNone_iff_eq_none,
    List.isEmpty_iff] at hidle
  have hreaches : Runs (fun s e => handled e.act = true ∧ diligent s e = true) s :=
    reaches_runAll (fun _ _ hok => by simpa using hok) (.start rfl) hs
  have hsame := (h s hreaches hidle.1.1 ⟨hidle.1.2, hidle.2⟩).1 radio0
  rw [hdevices, htarget] at hsame
  exact absurd (hsame.mp (by simp)) (by simp)

end

end NeonWrt.Netifd
