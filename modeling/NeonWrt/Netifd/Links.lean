import NeonWrt.Netifd.Accounting

/-!
# Links of a device

A device tells netifd that an interface joins its networks when it is up, and
that it leaves them when it has been torn down. What it takes down is what
`handler_data` lists at that moment, and every new configuration empties this
table: an interface that was announced before and not again stays announced.
In the runs in which the table still lists what is up at the end of a teardown,
nothing stays behind.
-/

namespace NeonWrt.Netifd

open NeonWrt.Lib

/-- Whether a link was last announced up, if it was ever announced. -/
def lastLink (net dev : Name) : List Effect → Option Bool
  | [] => none
  | .deviceSet _ _ :: effects => lastLink net dev effects
  | .link n i _ up :: effects =>
    match lastLink net dev effects with
    | some later => some later
    | none => if n = net ∧ i = dev then some up else none

variable {net dev : Name} {effects later : List Effect} {up : Bool}

theorem lastLink_append : lastLink net dev (effects ++ later) =
    (lastLink net dev later).or (lastLink net dev effects) := by
  induction effects with
  | nil => simp [lastLink]
  | cons e es ih =>
    cases e with
    | deviceSet d settings => simpa [lastLink] using ih
    | link n i vlan up =>
      rw [List.cons_append, lastLink, ih, lastLink]
      cases lastLink net dev later <;> cases lastLink net dev es <;> simp

theorem lastLink_append_ne {b : Bool} (h : lastLink net dev effects ≠ some b)
    (hlater : lastLink net dev later ≠ some b) : lastLink net dev (effects ++ later) ≠ some b := by
  rw [lastLink_append]
  cases hl : lastLink net dev later with
  | none => simpa using h
  | some last => exact fun heq => hlater (hl.trans heq)

theorem lastLink_eq_none :
    lastLink net dev effects = none ↔ ∀ vlan up, Effect.link net dev vlan up ∉ effects := by
  induction effects with
  | nil => simp [lastLink]
  | cons e es ih =>
    cases e with
    | deviceSet d settings => simpa [lastLink] using ih
    | link n i vlan up =>
      rw [lastLink]
      cases hl : lastLink net dev es with
      | some later =>
        obtain ⟨v, u, hmem⟩ : ∃ v u, Effect.link net dev v u ∈ es := by
          by_contra hno
          push Not at hno
          exact absurd (ih.mpr hno) (by simp [hl])
        simp only [reduceCtorEq, false_iff]
        exact fun h => h v u (List.mem_cons_of_mem _ hmem)
      | none =>
        have hno := ih.mp hl
        split_ifs with heq
        · simp only [reduceCtorEq, false_iff]
          exact fun h => h vlan up (by simp [heq.1, heq.2])
        · simp only [true_iff]
          intro v u hmem
          rcases List.mem_cons.mp hmem with h | h
          · obtain ⟨rfl, rfl, -⟩ := Effect.link.inj h
            exact heq ⟨rfl, rfl⟩
          · exact hno v u h

/-- A log that takes links only one way says nothing else. -/
theorem lastLink_ne (b : Bool) (h : ∀ n i vlan u, Effect.link n i vlan u ∈ effects → u = b) :
    lastLink net dev effects ≠ some !b := by
  induction effects with
  | nil => simp [lastLink]
  | cons e es ih =>
    have hes := ih fun n i vlan u hmem => h n i vlan u (List.mem_cons_of_mem _ hmem)
    cases e with
    | deviceSet d settings =>
      rw [lastLink]
      exact hes
    | link n i vlan u =>
      obtain rfl := h n i vlan u List.mem_cons_self
      rw [lastLink]
      cases hl : lastLink net dev es with
      | some later => exact fun heq => hes (hl.trans heq)
      | none => split_ifs <;> simp

theorem mem_handleLink {data : HandlerData} {n i : Name} {vlan : List Name} {u : Bool}
    {told : List Effect} (h : handleLink dev data up = some told) :
    Effect.link n i vlan u ∈ told ↔
      i = dev ∧ u = up ∧ ∃ config, data.config = some config ∧ n ∈ config.network ∧
        vlan = config.networkVlan := by
  obtain ⟨config, hconfig, rfl⟩ := Option.map_eq_some_iff.mp h
  have hset : ∀ settings, Effect.link n i vlan u ∉
      (if up = true then [Effect.deviceSet dev settings] else []) := by
    intro settings
    split_ifs <;> simp
  rw [List.mem_append]
  simp only [hset, false_or, List.mem_map, Effect.link.injEq, hconfig, Option.some.injEq]
  constructor
  · rintro ⟨net, hnet, rfl, rfl, rfl, rfl⟩
    exact ⟨rfl, rfl, config, rfl, hnet, rfl⟩
  · rintro ⟨rfl, rfl, _, rfl, hnet, rfl⟩
    exact ⟨n, hnet, rfl, rfl, rfl, rfl⟩

/-- Whether an entry of `handler_data` names a network and an interface. -/
def names (net dev : Name) (data : HandlerData) : Bool :=
  data.ifname = some dev && data.config.any fun config => net ∈ config.network

/-- Whether `handler_data` names a network and an interface. -/
def lists (net dev : Name) (entries : List (Name × HandlerData)) : Bool :=
  entries.any fun e => names net dev e.2

/-- A loop over `handler_data` that gets to its end announces every link that is listed. -/
theorem mem_linkAll (net dev : Name) {entries : List (Name × HandlerData)}
    (h : (linkAll up entries).2 = true) :
    (∀ n i vlan u, Effect.link n i vlan u ∈ (linkAll up entries).1 → u = up) ∧
      (lists net dev entries = true → ∃ vlan, Effect.link net dev vlan up ∈ (linkAll up entries).1) := by
  induction entries with
  | nil => simp [linkAll, lists]
  | cons e es ih =>
    obtain ⟨key, data⟩ := e
    rw [linkAll] at h ⊢
    cases hif : data.ifname with
    | none =>
      simp only [hif] at h ⊢
      refine ⟨(ih h).1, fun hl => (ih h).2 ?_⟩
      simpa [lists, names, hif] using hl
    | some ifname =>
      cases hlink : handleLink ifname data up with
      | none => simp [hif, hlink] at h
      | some told =>
        simp only [hif, hlink] at h ⊢
        obtain ⟨hway, hlisted⟩ := ih h
        refine ⟨fun n i vlan u hmem => ?_, fun hl => ?_⟩
        · rcases List.mem_append.mp hmem with hm | hm
          · exact ((mem_handleLink hlink).mp hm).2.1
          · exact hway n i vlan u hm
        · rw [lists, List.any_cons, Bool.or_eq_true] at hl
          rcases hl with hl | hl
          · -- The first entry names it.
            simp only [names, hif, Option.some.injEq, Bool.and_eq_true, decide_eq_true_eq] at hl
            obtain ⟨rfl, hconfig⟩ := hl
            obtain ⟨config, hc, hnet⟩ : ∃ config, data.config = some config ∧
                net ∈ config.network := by
              simpa [Option.any_eq_true] using hconfig
            exact ⟨config.networkVlan, List.mem_append_left _ ((mem_handleLink hlink).mpr
              ⟨rfl, rfl, config, hc, hnet, rfl⟩)⟩
          · obtain ⟨vlan, hmem⟩ := hlisted hl
            exact ⟨vlan, List.mem_append_right _ hmem⟩

theorem mem_of_lastLink (h : lastLink net dev effects = some up) :
    ∃ vlan, Effect.link net dev vlan up ∈ effects := by
  induction effects with
  | nil => simp [lastLink] at h
  | cons e es ih =>
    cases e with
    | deviceSet d settings =>
      obtain ⟨vlan, hmem⟩ := ih (by simpa [lastLink] using h)
      exact ⟨vlan, List.mem_cons_of_mem _ hmem⟩
    | link n i vlan u =>
      rw [lastLink] at h
      cases hl : lastLink net dev es with
      | some last =>
        rw [hl] at h
        obtain ⟨v, hmem⟩ := ih (hl.trans h)
        exact ⟨v, List.mem_cons_of_mem _ hmem⟩
      | none =>
        simp only [hl] at h
        split_ifs at h with heq
        obtain ⟨rfl, rfl⟩ := heq
        obtain rfl := Option.some.inj h
        exact ⟨vlan, List.mem_cons_self⟩

/-- The networks and interfaces that were last announced up. -/
def ups (effects : List Effect) : List (Name × Name) :=
  (effects.filterMap fun
    | .link net dev _ true => some (net, dev)
    | _ => none).filter fun p => lastLink p.1 p.2 effects = some true

theorem mem_ups : (net, dev) ∈ ups effects ↔ lastLink net dev effects = some true := by
  rw [ups, List.mem_filter]
  simp only [decide_eq_true_eq, and_iff_right_iff_imp]
  intro h
  obtain ⟨vlan, hmem⟩ := mem_of_lastLink h
  exact List.mem_filterMap.mpr ⟨_, hmem, rfl⟩

/-- A device that is down has taken all its links down. -/
def Settled (d : Wdev) : Prop :=
  d.state = .down → ∀ net dev, lastLink net dev d.effects ≠ some true

/-- A teardown script has ended. -/
def endsTeardown : Deed → Bool
  | .run .teardown false => true
  | .ended sc => sc.op = .teardown
  | _ => false

/-- At the end of a teardown script `handler_data` does not list a link that is up. -/
def forgets (sl : Slot) (a : Deed) : Bool :=
  match sl.device with
  | some d => endsTeardown a &&
      (ups d.effects).any fun p => !lists p.1 p.2 d.handlerData.entries
  | none => false

/-- A network device that appears joins a network through a device that is down. -/
def joinsDown (sl : Slot) : Deed → Bool
  | .call (.hotplug dev true) =>
    match sl.device with
    | some d => d.state = .down &&
        (d.hotplugEntries dev).any fun e => e.2.config.any fun config => config.network ≠ []
    | none => false
  | _ => false

namespace Wdev

variable (d : Wdev) (env : Env)

theorem effects_setup : d.setup.wdev.effects = d.effects := by
  obtain heq | ⟨-, heq⟩ := d.setup_cases
  · rw [heq]; rfl
  · rw [heq]; rfl

theorem effects_teardown : d.teardown.wdev.effects = d.effects := by
  obtain heq | ⟨-, heq⟩ := d.teardown_cases
  · rw [heq]; rfl
  · rw [heq]; rfl

theorem effects_check : (d.check env).wdev.effects = d.effects := by
  rw [check]
  split_ifs
  · rfl
  · exact effects_setup _

theorem effects_start : (d.start env).wdev.effects = d.effects := by
  rw [start]
  simp only
  split_ifs
  · rfl
  · rfl
  · exact effects_setup _
  · exact effects_setup _

theorem effects_stop : d.stop.wdev.effects = d.effects := by
  rw [stop]
  cases d.state with
  | up => exact effects_teardown _
  | _ => rfl

end Wdev

/-- Only an accepted up notification and `hotplug` announce anything. -/
theorem effects_call {env : Env} {c : Call} {d : Wdev}
    (hup : c = .notifyUp → d.state ≠ .setup) (hplug : ∀ dev add, c ≠ .hotplug dev add) :
    (c.run env d).wdev.effects = d.effects := by
  cases c with
  | start => exact d.effects_start env
  | stop => exact d.effects_stop
  | destroy =>
    simp only [Call.run, Wdev.destroy]
    split_ifs
    · exact Wdev.effects_stop _
    · rfl
  | update data =>
    simp only [Call.run, Wdev.update]
    split_ifs
    · rfl
    · rw [Wdev.effects_check]
      cases data <;> rfl
  | check => exact d.effects_check env
  | retrySetup =>
    simp only [Call.run, Wdev.retrySetup]
    split_ifs
    · rfl
    · rfl
    · exact d.effects_start env
  | notifyUp => rw [Call.run, d.markUp_of_ne (hup rfl)]; rfl
  | setData vif vlan ifname =>
    simp only [Call.run, Wdev.setData]
    cases d.dataTarget vif vlan <;> rfl
  | procAdd proc =>
    simp only [Call.run, Wdev.procAdd]
    split_ifs <;> rfl
  | setRetry retry => rfl
  | hotplug dev add => exact absurd rfl (hplug dev add)
  | procCheck alive =>
    simp only [Call.run, Wdev.procCheck]
    split_ifs
    · rfl
    · exact d.effects_teardown
    · rfl

theorem hotplug_way {d : Wdev} {add : Bool} {n i : Name} {vlan : List Name} {u : Bool}
    (h : Effect.link n i vlan u ∈
      (d.hotplugEntries dev).flatMap fun e => (handleLink dev e.2 add).getD []) :
    u = add ∧ ∃ e ∈ d.hotplugEntries dev, ∃ config, e.2.config = some config ∧
      n ∈ config.network := by
  obtain ⟨e, he, hmem⟩ := List.mem_flatMap.mp h
  cases hlink : handleLink dev e.2 add with
  | none => simp [hlink] at hmem
  | some told =>
    rw [hlink, Option.getD_some] at hmem
    obtain ⟨-, hu, config, hc, hnet, -⟩ := (mem_handleLink hlink).mp hmem
    exact ⟨hu, e, he, config, hc, hnet⟩

namespace Settled

variable {d : Wdev} {env : Env}

theorem of_state (h : d.state ≠ .down) : Settled d := fun hs => absurd hs h

theorem of_effects {d' : Wdev} (h : Settled d) (hstate : d'.state = .down → d.state = .down)
    (heffects : d'.effects = d.effects) : Settled d' := by
  intro hs net dev
  rw [heffects]
  exact h (hstate hs) net dev

/-- Nothing joins through a device that is down, and what leaves is not up. -/
theorem hotplug {sl : Slot} {i : Name} {add : Bool} (h : Settled d) (hd : sl.device = some d)
    (hjoin : joinsDown sl (.call (.hotplug i add)) = false) :
    Settled (d.hotplug i add).wdev := by
  intro hs net dev
  have hdown : d.state = .down := hs
  refine lastLink_append_ne (h hdown net dev) ?_
  cases add with
  | false =>
    exact lastLink_ne false fun n j vlan u hmem => (hotplug_way hmem).1
  | true =>
    have hnone : ∀ vlan u, Effect.link net dev vlan u ∉
        (d.hotplugEntries i).flatMap fun e => (handleLink i e.2 true).getD [] := by
      intro vlan u hmem
      obtain ⟨-, e, he, config, hc, hnet⟩ := hotplug_way hmem
      have hjoins : joinsDown sl (.call (.hotplug i true)) = true := by
        simp only [joinsDown, hd, hdown, decide_true, Bool.true_and, List.any_eq_true]
        exact ⟨e, he, by simpa [hc] using List.ne_nil_of_mem hnet⟩
      exact absurd hjoins (by simp [hjoin])
    simp [lastLink_eq_none.mpr hnone]

theorem call {sl : Slot} {c : Call} (h : Settled d) (hd : sl.device = some d)
    (hjoin : joinsDown sl (.call c) = false) : Settled (c.run env d).wdev := by
  -- No call takes a device down at once.
  have hstate : (c.run env d).wdev.state = .down → d.state = .down := (shift_call env c d).down
  by_cases hup : c = .notifyUp ∧ d.state = .setup
  · obtain ⟨rfl, hsetup⟩ := hup
    exact of_state fun hs => by simp [hstate hs] at hsetup
  · by_cases hplug : ∃ i add, c = .hotplug i add
    · obtain ⟨i, add, rfl⟩ := hplug
      exact h.hotplug hd hjoin
    · refine h.of_effects hstate (effects_call (fun hc hs => hup ⟨hc, hs⟩) ?_)
      exact fun i add hc => hplug ⟨i, add, hc⟩

theorem setupCb (h : Settled d) : Settled (d.setupCb env).wdev := by
  by_cases hs : d.state = .setup
  · -- The failure sends the device to its teardown.
    refine of_state ?_
    rw [Wdev.setupCb, if_neg (by simp [hs]), d.countFailure.teardown_of (.inl (by simpa using hs))]
    simp
  · rw [Wdev.setupCb, if_pos hs]
    split_ifs with hup
    · exact h.of_effects (d.configInit env).shift_setup.down (Wdev.effects_setup _)
    · exact h

/-- A teardown takes down every link that is up, if it is listed. -/
theorem teardownCb (hlinks : Linkable d)
    (hlisted : ∀ p ∈ ups d.effects, lists p.1 p.2 d.handlerData.entries = true) :
    Settled d.teardownCb.wdev := by
  have hok := hlinks.ok false
  have hway := fun net dev => mem_linkAll net dev hok
  have hdown : ∀ net dev,
      lastLink net dev (d.effects ++ (linkAll false d.handlerData.entries).1) ≠ some true := by
    intro net dev heq
    rw [lastLink_append] at heq
    have hlater : lastLink net dev (linkAll false d.handlerData.entries).1 ≠ some true :=
      lastLink_ne false (hway net dev).1
    cases hl : lastLink net dev (linkAll false d.handlerData.entries).1 with
    | some last => exact hlater (hl.trans (by simpa [hl] using heq))
    | none =>
      -- A link that is up was listed, so the teardown spoke of it.
      have hup : lastLink net dev d.effects = some true := by simpa [hl] using heq
      obtain ⟨vlan, hmem⟩ := (hway net dev).2 (hlisted _ (mem_ups.mpr hup))
      exact lastLink_eq_none.mp hl vlan false hmem
  intro _ net dev
  rw [teardownCb_of_linkable hlinks]
  split_ifs
  · exact hdown net dev
  · rw [Wdev.effects_setup]
    exact hdown net dev

end Settled

/-- The device of a slot has settled its links when it is down. -/
structure Slot.Settled (sl : Slot) : Prop where
  sound : sl.Sound
  settled : ∀ d, sl.device = some d → Netifd.Settled d

/-- A method that leaves its device settled leaves the slot settled. -/
theorem Slot.Settled.after {sl : Slot} {o : Outcome} (hsound : (sl.after o).Sound)
    (h : Netifd.Settled o.wdev) : (sl.after o).Settled := by
  refine ⟨hsound, fun d hd => ?_⟩
  simp only [Slot.after] at hd
  split_ifs at hd
  exact Option.some.inj hd ▸ h

theorem Slot.Settled.apply {sl : Slot} {env : Env} {n : Name} {a : Deed} (h : sl.Settled)
    (hen : sl.Enabled a) (hunnamed : unnamed a = true) (hforget : forgets sl a = false)
    (hjoin : joinsDown sl a = false) : (sl.apply env n a).Settled := by
  have hsound : (sl.apply env n a).Sound := h.sound.apply hen hunnamed
  -- The table still lists what is up when a teardown script ends.
  have hlisted : ∀ d, sl.device = some d → endsTeardown a = true →
      ∀ p ∈ ups d.effects, lists p.1 p.2 d.handlerData.entries = true := by
    intro d hd hends p hp
    by_contra hno
    have hforgets : forgets sl a = true := by
      simp only [forgets, hd, hends, Bool.true_and, List.any_eq_true]
      exact ⟨p, hp, by simpa using hno⟩
    exact absurd hforgets (by simp [hforget])
  have hcalled : ∀ {op : Op} {r : Slot}, r.device = sl.device → (r.called env op).Sound →
      (op = .teardown → endsTeardown a = true) → (r.called env op).Settled := by
    intro op r hdevice hr hends
    cases hd : sl.device with
    | none =>
      rw [Slot.called, hdevice, hd] at hr ⊢
      exact ⟨hr, fun d hd' => by simp [hdevice, hd] at hd'⟩
    | some d =>
      rw [Slot.called, hdevice, hd] at hr ⊢
      refine .after hr ?_
      cases op with
      | setup => exact (h.settled d hd).setupCb
      | teardown => exact .teardownCb (h.sound.links d hd) (hlisted d hd (hends rfl))
  cases a with
  | call c =>
    obtain ⟨d, hd⟩ := Option.isSome_iff_exists.mp hen
    simp only [Slot.apply, hd] at hsound ⊢
    exact .after hsound ((h.settled d hd).call hd hjoin)
  | create data =>
    refine ⟨hsound, fun d hd => Option.some.inj hd ▸ fun _ net dev => ?_⟩
    simp [Wdev.new, Wdev.configInit, Wdev.updateDisabledVifs, lastLink]
  | run op spawned =>
    cases spawned with
    | true =>
      refine ⟨hsound, fun d' hd' => ?_⟩
      obtain ⟨d, hd, rfl⟩ := Option.map_eq_some_iff.mp hd'
      split_ifs <;> exact (h.settled d hd).of_effects id rfl
    | false => exact hcalled rfl hsound fun hop => hop ▸ rfl
  | ended sc => exact hcalled rfl hsound fun hop => by simp [endsTeardown, hop]

/-- Of a device that is down and has no operation, no link stays announced. -/
def LinksBalanced (s : Wireless) : Prop :=
  ∀ n d, s.devices.get? n = some d → d.state = .down →
    s.queue.get? n = none → (∀ sc ∈ s.scripts, sc.name ≠ n) →
    ∀ net dev, (∃ vlan, Effect.link net dev vlan true ∈ d.effects) →
      lastLink net dev d.effects = some false

/-- The deeds of the runs that keep links balanced. -/
def careful (_ : Env) (sl : Slot) (a : Deed) : Bool :=
  unnamed a && !forgets sl a && !joinsDown sl a

variable {s : Wireless}

/-- Links are balanced in every run in which `handler_data` lists, whenever a teardown
script ends, every link of the device that is up, no link comes up by `hotplug` through
a device that is down, and no device is told an interface name of its own. -/
theorem links_balanced (h : Runs (eachDeed careful · ·) s) : LinksBalanced s := by
  have hsettled : ∀ n, (s.slot n).Settled := by
    refine slots_invariant (P := fun _ sl => sl.Settled) (fun _ => ?_) ?_ h
    · exact ⟨.empty, by simp [Slot.empty]⟩
    · intro s e n a hok ha hen hsettled
      have hcareful := eachDeed_apply hok ha
      simp only [careful, Bool.and_eq_true, Bool.not_eq_true'] at hcareful
      exact hsettled.apply hen hcareful.1.1 hcareful.1.2 hcareful.2
  rintro n d hd hs - - net dev ⟨vlan, hmem⟩
  have hne := (hsettled n).settled d hd hs net dev
  cases hl : lastLink net dev d.effects with
  | none => exact absurd hmem (lastLink_eq_none.mp hl vlan true)
  | some up =>
    cases up with
    | false => rfl
    | true => exact absurd hl hne

/-- The device is up, and the interface of its setup script is in the network. -/
def linkedEvents : List Event :=
  ⟨.new radio0 lanRadio, indexEnv 1⟩ :: callEvents 1 .start 2 ++
    callEvents 1 (.setData (some 1) none (some (ascii "phy0-ap0"))) 0 ++
    callEvents 1 .notifyUp 0 ++ [exitEvent]

/-- The link that the setup script brings up. -/
def lanLink (up : Bool) : Effect := .link (ascii "lan") (ascii "phy0-ap0") [] up

theorem links_balanced_radio0 : ∃ s d, Runs (eachDeed careful · ·) s ∧
    s.devices.get? radio0 = some d ∧ d.state = .down ∧ lanLink true ∈ d.effects ∧
    LinksBalanced s := by
  -- The device is stopped, and its teardown script exits.
  have hrun : (runAll step (eachDeed careful) .initial
      (linkedEvents ++ callEvents 1 .stop 2 ++ [exitEvent])).map (fun s =>
        (s.devices.get? radio0).map fun d => (d.state, decide (lanLink true ∈ d.effects))) =
      some (some (WState.down, true)) := by decide +kernel
  obtain ⟨s, hs, hdevice⟩ := Option.map_eq_some_iff.mp hrun
  obtain ⟨d, hd, heq⟩ := Option.map_eq_some_iff.mp hdevice
  obtain ⟨hdown, hmem⟩ := Prod.mk.inj heq
  have hreaches : Runs (eachDeed careful · ·) s := runs_of_events hs
  exact ⟨s, d, hreaches, hd, hdown, of_decide_eq_true hmem, links_balanced hreaches⟩

/-- The network gets another interface index while the device is up, which empties
`handler_data`. The device is stopped before it is up again, and the link stays. -/
theorem not_links_balanced : ¬ ∀ s, Runs (fun _ _ => True) s → LinksBalanced s := by
  intro h
  have hrun : (runAll step (fun _ _ => true) .initial
      (linkedEvents ++ callEvents 2 .check 2 ++ callEvents 2 .stop 0 ++
        exitEvent :: List.replicate 2 ⟨.next radio0 true, indexEnv 1⟩ ++ [exitEvent])).map (fun s =>
        (s.queue.entries.isEmpty && s.scripts.isEmpty, (s.devices.get? radio0).map fun d =>
          (d.state, decide (lanLink true ∈ d.effects),
            lastLink (ascii "lan") (ascii "phy0-ap0") d.effects))) =
      some (true, some (.down, true, some true)) := by decide +kernel
  obtain ⟨s, hs, heq⟩ := Option.map_eq_some_iff.mp hrun
  obtain ⟨hquiet, hdevice⟩ := Prod.mk.inj heq
  rw [Bool.and_eq_true, List.isEmpty_iff, List.isEmpty_iff] at hquiet
  obtain ⟨d, hd, hlinks⟩ := Option.map_eq_some_iff.mp hdevice
  obtain ⟨hdown, hrest⟩ := Prod.mk.inj hlinks
  obtain ⟨hmem, hlast⟩ := Prod.mk.inj hrest
  have hreaches : Runs (fun _ _ => True) s := reaches_runAll (fun _ _ _ => trivial) (.start rfl) hs
  have hfalse := h s hreaches radio0 d hd hdown (Table.entries_eq_nil.mp hquiet.1 radio0)
    (fun sc hsc => absurd hsc (by simp [hquiet.2])) _ _ ⟨[], of_decide_eq_true hmem⟩
  exact absurd (hlast.symm.trans hfalse) (by decide)

end NeonWrt.Netifd
