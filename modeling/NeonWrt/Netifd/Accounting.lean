import NeonWrt.Netifd.Slots

/-!
# Accounting for handler scripts

Which operations are queued and running for a device follows from its state, and
a failed setup is counted when its script has ended. A configuration check can
put a device that is already up back into the state `setup` while its script
still runs; the end of that script then counts as a failure although it had
reported that the device is up. The runs without such a check keep their books
right.
-/

namespace NeonWrt.Netifd

open NeonWrt.Lib

/-- What a method can do to the state of its device and the queue. -/
inductive Shift (d : Wdev) : Outcome → Prop
  | keep {d' : Wdev} : d'.state = d.state → Shift d d'.keep
  | setup {d' : Wdev} : d.state = .up ∨ d.state = .down → d'.state = .setup →
      Shift d ⟨d', some .setup, false, false⟩
  | teardown {d' : Wdev} (counted : Bool) : d.state = .setup ∨ d.state = .up →
      d'.state = .teardown → Shift d ⟨d', some .teardown, false, counted⟩
  | up {d' : Wdev} : d.state = .setup → d'.state = .up → Shift d d'.keep
  | gone {d' : Wdev} : d.state = .down → d'.delete = true → Shift d { d'.keep with deleted := true }

theorem Shift.of_state {d d₁ : Wdev} {o : Outcome} (h : Shift d₁ o) (hstate : d₁.state = d.state) :
    Shift d o := by
  cases h with
  | keep h' => exact .keep (h'.trans hstate)
  | setup hfrom hto => exact .setup (hstate ▸ hfrom) hto
  | teardown counted hfrom hto => exact .teardown counted (hstate ▸ hfrom) hto
  | up hfrom hto => exact .up (hstate ▸ hfrom) hto
  | gone hfrom hdelete => exact .gone (hstate ▸ hfrom) hdelete

/-- No method takes a device down that is not down already. -/
theorem Shift.down {d : Wdev} {o : Outcome} (h : Shift d o) (hs : o.wdev.state = .down) :
    d.state = .down := by
  cases h with
  | keep heq => exact heq ▸ hs
  | setup _ hto => simp [hto] at hs
  | teardown _ _ hto => simp [hto] at hs
  | up _ hto => simp [Wdev.keep, hto] at hs
  | gone hfrom _ => exact hfrom

/-- Only a device that is to be deleted is deleted. -/
theorem Shift.delete {d : Wdev} {o : Outcome} (h : Shift d o) (ho : o.deleted = true) :
    o.wdev.delete = true := by
  cases h with
  | gone _ hdelete => exact hdelete
  | _ => simp [Wdev.keep] at ho

namespace Wdev

variable (d : Wdev) (env : Env)

/-- `setup` does something only to a device that may start. -/
theorem setup_cases : d.setup = d.keep ∨
    ((d.state = .up ∨ d.state = .down) ∧ d.autostart = true ∧ d.retrySetupFailed = false) ∧
      d.setup = ⟨{ d.procReset with configChange := false, state := .setup }, some .setup,
        false, false⟩ := by
  rw [setup]
  split_ifs with hstate hauto
  · exact .inl rfl
  · exact .inl rfl
  · refine .inr ⟨⟨?_, ?_⟩, rfl⟩
    · by_contra hne
      exact hstate (not_or.mp hne)
    · simpa using hauto

theorem teardown_of (h : d.state = .setup ∨ d.state = .up) :
    d.teardown = ⟨{ { d with cancelSetup := false }.procReset with state := .teardown },
      some .teardown, false, false⟩ := by
  rw [teardown]
  exact if_neg (by rcases h with h | h <;> simp [h])

theorem teardown_cases : d.teardown = { d with cancelSetup := false }.keep ∨
    (d.state = .setup ∨ d.state = .up) ∧
      d.teardown = ⟨{ { d with cancelSetup := false }.procReset with state := .teardown },
        some .teardown, false, false⟩ := by
  cases hs : d.state with
  | setup => exact .inr ⟨.inl rfl, d.teardown_of (.inl hs)⟩
  | up => exact .inr ⟨.inr rfl, d.teardown_of (.inr hs)⟩
  | down => exact .inl (by simp [teardown, hs])
  | teardown => exact .inl (by simp [teardown, hs])

theorem shift_setup : Shift d d.setup := by
  obtain heq | ⟨⟨hfrom, -⟩, heq⟩ := d.setup_cases
  · exact heq ▸ .keep rfl
  · exact heq ▸ .setup hfrom rfl

theorem shift_teardown : Shift d d.teardown := by
  obtain heq | ⟨hfrom, heq⟩ := d.teardown_cases
  · exact heq ▸ .keep rfl
  · exact heq ▸ .teardown false hfrom rfl

theorem shift_check : Shift d (d.check env) := by
  rw [check]
  split_ifs
  · exact .keep rfl
  · exact (shift_setup _).of_state rfl

theorem shift_start : Shift d (d.start env) := by
  rw [start]
  simp only
  split_ifs
  · exact .keep rfl
  · exact .keep rfl
  · exact (shift_setup _).of_state rfl
  · exact (shift_setup _).of_state rfl

theorem shift_stop : Shift d d.stop := by
  rw [stop]
  cases hs : d.state with
  | setup => exact .keep hs.symm
  | up => exact (shift_teardown _).of_state hs.symm
  | down => exact .keep hs.symm
  | teardown => exact .keep hs.symm

/-- An up notification sets up the links and the state, unless a link raises an
exception. -/
theorem markUp_of_setup (h : d.state = .setup) : d.markUp =
    (if (linkAll true d.handlerData.entries).2 then
      { d with
        effects := d.effects ++ (linkAll true d.handlerData.entries).1
        state := .up }
    else { d with effects := d.effects ++ (linkAll true d.handlerData.entries).1 }).keep := by
  rw [markUp, if_neg (by simp [h])]

theorem markUp_of_ne (h : d.state ≠ .setup) : d.markUp = d.keep := by
  rw [markUp, if_pos h]

theorem shift_markUp : Shift d d.markUp := by
  by_cases h : d.state = .setup
  · rw [d.markUp_of_setup h]
    split_ifs
    · exact .up h rfl
    · exact .keep rfl
  · rw [d.markUp_of_ne h]
    exact .keep rfl

theorem shift_setData (vif vlan : Option ℕ) (ifname : Option Name) :
    Shift d (d.setData vif vlan ifname) := by
  rw [setData]
  cases d.dataTarget vif vlan with
  | none => exact .keep rfl
  | some target => exact .keep rfl

end Wdev

theorem shift_call (env : Env) (c : Call) (d : Wdev) : Shift d (c.run env d) := by
  cases c with
  | start => exact d.shift_start env
  | stop => exact d.shift_stop
  | destroy =>
    simp only [Call.run, Wdev.destroy]
    split_ifs with hstate
    · exact (Wdev.shift_stop _).of_state rfl
    · exact .gone (of_not_not hstate) rfl
  | update data =>
    simp only [Call.run, Wdev.update]
    split_ifs
    · exact .keep rfl
    · exact (Wdev.shift_check _ env).of_state (by cases data <;> rfl)
  | check => exact d.shift_check env
  | retrySetup =>
    simp only [Call.run, Wdev.retrySetup]
    split_ifs
    · exact .keep rfl
    · exact .keep rfl
    · exact d.shift_start env
  | notifyUp => exact d.shift_markUp
  | setData vif vlan ifname => exact d.shift_setData vif vlan ifname
  | procAdd proc =>
    simp only [Call.run, Wdev.procAdd]
    split_ifs <;> exact .keep rfl
  | setRetry retry => exact .keep rfl
  | hotplug dev add => exact .keep rfl
  | procCheck alive =>
    simp only [Call.run, Wdev.procCheck]
    split_ifs
    · exact .keep rfl
    · exact d.shift_teardown
    · exact .keep rfl

@[simp] theorem Wdev.state_countFailure (d : Wdev) : d.countFailure.state = d.state := by
  rw [countFailure]
  split_ifs <;> rfl

theorem shift_setupCb (env : Env) (d : Wdev) : Shift d (d.setupCb env) := by
  rw [Wdev.setupCb]
  split_ifs with hstate hup
  · exact (Wdev.shift_setup _).of_state rfl
  · exact .keep rfl
  · -- The failure is counted, and the device torn down.
    have hsetup : d.state = .setup := of_not_not hstate
    rw [d.countFailure.teardown_of (.inl (by simpa using hsetup))]
    exact .teardown true (.inl hsetup) rfl

/-- Only the device itself has no configuration. -/
theorem Wdev.dataTarget_none (d : Wdev) {vif vlan : Option ℕ} {key : Name} {type : DataType}
    (h : d.dataTarget vif vlan = some (key, type, none)) : vif = none ∧ vlan = none := by
  cases vif with
  | none =>
    cases vlan with
    | none => exact ⟨rfl, rfl⟩
    | some j => simp [dataTarget] at h
  | some i =>
    cases vlan with
    | none => simp [dataTarget, Option.bind_eq_some_iff] at h
    | some j => simp [dataTarget, Option.bind_eq_some_iff] at h

/-- Every entry with an interface name has a configuration. -/
def Linkable (d : Wdev) : Prop :=
  ∀ key data, d.handlerData.get? key = some data → data.config = none → data.ifname = none

/-- Data for the device itself that names an interface. -/
def namesDevice : Call → Bool
  | .setData none none (some _) => true
  | _ => false

/-- No device is told an interface name of its own. -/
def unnamed : Deed → Bool
  | .call c => !namesDevice c
  | _ => true

theorem linkAll_ok {up : Bool} {entries : List (Name × HandlerData)}
    (h : ∀ e ∈ entries, e.2.config = none → e.2.ifname = none) :
    (linkAll up entries).2 = true := by
  induction entries with
  | nil => rfl
  | cons e es ih =>
    obtain ⟨key, data⟩ := e
    have hes := ih fun e he => h e (List.mem_cons_of_mem _ he)
    rw [linkAll]
    cases hif : data.ifname with
    | none => exact hes
    | some ifname =>
      cases hc : data.config with
      | none => exact absurd (h _ List.mem_cons_self hc) (by simp [hif])
      | some config => simpa [handleLink, hc] using hes

namespace Linkable

variable {d : Wdev}

theorem ok (h : Linkable d) (up : Bool) : (linkAll up d.handlerData.entries).2 = true :=
  linkAll_ok fun e he => h e.1 e.2 (Table.get?_eq_some.mpr he)

theorem of_eq {d' : Wdev} (h : Linkable d) (heq : d'.handlerData = d.handlerData) :
    Linkable d' := by
  rw [Linkable, heq]
  exact h

/-- Only the entry of the device itself stays. -/
theorem configInit (h : Linkable d) (env : Env) : Linkable (d.configInit env) := by
  intro key data hget
  rw [Wdev.configInit] at hget
  cases hd : d.handlerData.get? d.name with
  | none => simp [hd] at hget
  | some e =>
    simp only [hd, Table.get?_set] at hget
    split_ifs at hget with hk
    · exact Option.some.inj hget ▸ h _ e hd
    · simp at hget

theorem setup (h : Linkable d) : Linkable d.setup.wdev := by
  obtain heq | ⟨-, heq⟩ := d.setup_cases
  · exact heq ▸ h
  · exact heq ▸ h

theorem teardown (h : Linkable d) : Linkable d.teardown.wdev := by
  obtain heq | ⟨-, heq⟩ := d.teardown_cases
  · exact heq ▸ h
  · exact heq ▸ h

theorem check (h : Linkable d) (env : Env) : Linkable (d.check env).wdev := by
  rw [Wdev.check]
  split_ifs
  · exact h
  · exact setup (configInit h env)

theorem start (h : Linkable d) (env : Env) : Linkable (d.start env).wdev := by
  rw [Wdev.start]
  simp only
  split_ifs
  · exact h
  · exact h
  · exact setup (configInit h env)
  · exact setup h

theorem stop (h : Linkable d) : Linkable d.stop.wdev := by
  rw [Wdev.stop]
  cases d.state with
  | up => exact teardown h
  | _ => exact h

theorem setData (h : Linkable d) {vif vlan : Option ℕ} {ifname : Option Name}
    (hc : ¬ namesDevice (.setData vif vlan ifname)) : Linkable (d.setData vif vlan ifname).wdev := by
  rw [Wdev.setData]
  cases ht : d.dataTarget vif vlan with
  | none => exact h
  | some target =>
    obtain ⟨key, type, config⟩ := target
    intro k data hget hconfig
    simp only [Wdev.keep, Table.get?_set] at hget
    split_ifs at hget
    · obtain rfl := Option.some.inj hget
      obtain rfl : config = none := hconfig
      obtain ⟨rfl, rfl⟩ := d.dataTarget_none ht
      cases ifname with
      | none => rfl
      | some ifname => exact absurd rfl hc
    · exact h k data hget hconfig

theorem call (h : Linkable d) (env : Env) {c : Call} (hc : ¬ namesDevice c) :
    Linkable (c.run env d).wdev := by
  cases c with
  | start => exact start h env
  | stop => exact stop h
  | destroy =>
    simp only [Call.run, Wdev.destroy]
    split_ifs
    · exact stop h
    · exact h
  | update data =>
    simp only [Call.run, Wdev.update]
    split_ifs
    · exact h
    · cases data with
      | none => exact check (d := d.withData none) h env
      | some data => exact check (d := d.withData (some data)) h env
  | check => exact check h env
  | retrySetup =>
    simp only [Call.run, Wdev.retrySetup]
    split_ifs
    · exact h
    · exact h
    · exact start h env
  | notifyUp =>
    simp only [Call.run, Wdev.markUp]
    split_ifs
    · exact h
    · exact h
    · exact h
  | setData vif vlan ifname => exact setData h hc
  | procAdd proc =>
    simp only [Call.run, Wdev.procAdd]
    split_ifs <;> exact h
  | setRetry retry => exact h
  | hotplug dev add => exact h
  | procCheck alive =>
    simp only [Call.run, Wdev.procCheck]
    split_ifs
    · exact h
    · exact teardown h
    · exact h

theorem setupCb (h : Linkable d) (env : Env) : Linkable (d.setupCb env).wdev := by
  rw [Wdev.setupCb]
  split_ifs
  · exact setup (configInit h env)
  · exact h
  · refine teardown (of_eq h ?_)
    rw [Wdev.countFailure]
    split_ifs <;> rfl

/-- After its links were taken down a device has no interfaces. -/
theorem teardownCb (h : Linkable d) : Linkable d.teardownCb.wdev := by
  have hempty : ∀ d' : Wdev, d'.handlerData = ∅ → Linkable d' := by
    intro d' hd' key data hget
    rw [hd'] at hget
    exact absurd hget (by simp)
  simp only [Wdev.teardownCb, h.ok false]
  split_ifs
  · exact absurd ‹_› (by decide)
  · exact hempty _ rfl
  · exact setup (hempty _ rfl)

theorem new (env : Env) (name : Name) (data : DevData) : Linkable (.new env name data) := by
  refine configInit (d := Wdev.updateDisabledVifs _ env) ?_ env
  intro key data hget
  exact absurd hget (by simp [Wdev.updateDisabledVifs])

end Linkable

/-- The operations queued and running that a state allows. While a setup script
runs, the setup can be queued again, or the teardown instead of it. -/
def Fits : WState → Option Op → Option Op → Prop
  | .down, queued, running => queued = none ∧ running = none
  | .setup, queued, running =>
    queued = some .setup ∧ running ≠ some .teardown ∨ queued = none ∧ running = some .setup
  | .up, queued, running => queued ≠ some .teardown ∧ running ≠ some .teardown
  | .teardown, queued, running =>
    queued = some .teardown ∧ running ≠ some .teardown ∨ queued = none ∧ running = some .teardown

/-- The operations of a device fit its state, and without the device there are none. -/
structure Slot.Sound (sl : Slot) : Prop where
  links : ∀ d, sl.device = some d → Linkable d
  fits : ∀ d, sl.device = some d → Fits d.state sl.queued (sl.running.map (·.op))
  gone : sl.device = none → sl.queued = none ∧ sl.running = none

namespace Fits

variable {queued running : Option Op} {d : Wdev} {o : Outcome}

theorem shift (h : Shift d o) (hfits : Fits d.state queued running) (ho : o.deleted = false) :
    Fits o.wdev.state (match o.queued with | some op => some op | none => queued) running := by
  cases h with
  | keep hstate => simpa [Wdev.keep, hstate] using hfits
  | setup hfrom hto =>
    rcases hfrom with hs | hs
    · rw [hs] at hfits
      simp [Fits, hto, hfits.2]
    · rw [hs] at hfits
      simp [Fits, hto, hfits.2]
  | teardown counted hfrom hto =>
    rcases hfrom with hs | hs
    · rw [hs] at hfits
      rcases hfits with ⟨-, hr⟩ | ⟨-, hr⟩
      · simp [Fits, hto, hr]
      · simp [Fits, hto, hr]
    · rw [hs] at hfits
      simp [Fits, hto, hfits.2]
  | up hfrom hto =>
    rw [hfrom] at hfits
    rcases hfits with ⟨hq, hr⟩ | ⟨hq, hr⟩
    · simp [Fits, Wdev.keep, hto, hq, hr]
    · simp [Fits, Wdev.keep, hto, hq, hr]
  | gone hfrom hdelete => simp at ho

/-- Only a device without operations is deleted. -/
theorem of_deleted (h : Shift d o) (hfits : Fits d.state queued running) (ho : o.deleted = true) :
    o.queued = none ∧ queued = none ∧ running = none := by
  cases h with
  | gone hfrom hdelete =>
    rw [hfrom] at hfits
    exact ⟨rfl, hfits⟩
  | _ => simp [Wdev.keep] at ho

end Fits

/-- A slot stays sound under a method that is a shift. -/
theorem Slot.Sound.after (sl : Slot) {d : Wdev} {o : Outcome}
    (h : Shift d o) (hlinks : Linkable o.wdev)
    (hfits : Fits d.state sl.queued (sl.running.map (·.op))) : (sl.after o).Sound := by
  cases ho : o.deleted with
  | false =>
    refine ⟨fun d' hd' => ?_, fun d' hd' => ?_, fun hnone => ?_⟩
    · simp only [Slot.after, ho, Bool.false_eq_true, if_false, Option.some.injEq] at hd'
      exact hd' ▸ hlinks
    · simp only [Slot.after, ho, Bool.false_eq_true, if_false, Option.some.injEq] at hd'
      exact hd' ▸ hfits.shift h ho
    · simp [Slot.after, ho] at hnone
  | true =>
    obtain ⟨hoq, hq, hr⟩ := hfits.of_deleted h ho
    refine ⟨fun d' hd' => ?_, fun d' hd' => ?_, fun _ => ?_⟩
    · simp [Slot.after, ho] at hd'
    · simp [Slot.after, ho] at hd'
    · exact ⟨by simp [Slot.after, hoq, hq], by simpa [Slot.after] using hr⟩

/-- The end of a setup script, which has left the queue or the running script. -/
theorem Slot.Sound.setupCb {sl : Slot} {d : Wdev} (env : Env)
    (hlinks : Linkable d) (hrun : sl.running = none)
    (hfits : d.state = .setup ∨ Fits d.state sl.queued none) :
    (sl.after (d.setupCb env)).Sound := by
  by_cases hs : d.state = .setup
  · -- The teardown takes the place of whatever was queued.
    have heq : d.setupCb env = { d.countFailure.teardown with counted := true } := by
      rw [Wdev.setupCb, if_neg (by simp [hs])]
    have hfits' : Fits d.state (some .setup) (sl.running.map (·.op)) := by simp [Fits, hs, hrun]
    have hafter := Slot.Sound.after { sl with queued := some .setup }
      (shift_setupCb env d) (hlinks.setupCb env) hfits'
    rw [heq, d.countFailure.teardown_of (.inl (by simpa using hs))] at hafter ⊢
    exact hafter
  · refine .after _ (shift_setupCb env d) (hlinks.setupCb env) ?_
    rw [hrun]
    exact hfits.resolve_left hs

/-- A device whose links were taken down. -/
def Wdev.unlinked (d : Wdev) : Wdev :=
  { d with
    effects := d.effects ++ (linkAll false d.handlerData.entries).1
    handlerData := ∅
    state := .down }

/-- At the end of a teardown script the device is down before anything else happens. -/
theorem teardownCb_of_linkable {d : Wdev} (hlinks : Linkable d) : d.teardownCb =
    if d.delete then { d.unlinked.keep with deleted := true } else d.unlinked.setup := by
  simp only [Wdev.teardownCb, hlinks.ok false]
  rfl

theorem shift_teardownCb {d : Wdev} (hlinks : Linkable d) : Shift d.unlinked d.teardownCb := by
  rw [teardownCb_of_linkable hlinks]
  split_ifs with hdelete
  · exact .gone rfl hdelete
  · exact d.unlinked.shift_setup

theorem Slot.Sound.teardownCb {sl : Slot} {d : Wdev} (hlinks : Linkable d)
    (hq : sl.queued = none) (hrun : sl.running = none) :
    (sl.after d.teardownCb).Sound := by
  refine .after _ (shift_teardownCb hlinks) hlinks.teardownCb ?_
  simp [Fits, Wdev.unlinked, hq, hrun]

/-- A report does not change the operation of a script. -/
theorem Call.map_op_report (c : Call) (running : Option Script) :
    (running.map c.report).map (·.op) = running.map (·.op) := by
  cases running with
  | none => rfl
  | some sc =>
    cases c with
    | notifyUp =>
      simp only [Option.map_some, Call.report]
      split_ifs <;> rfl
    | _ => rfl

/-- No deed makes a slot unsound, unless it names an interface of the device itself. -/
theorem Slot.Sound.apply {sl : Slot} {env : Env} {n : Name} {a : Deed} (h : sl.Sound)
    (hen : sl.Enabled a) (hok : unnamed a = true) : (sl.apply env n a).Sound := by
  cases a with
  | call c =>
    obtain ⟨d, hd⟩ := Option.isSome_iff_exists.mp hen
    have hfits := h.fits d hd
    simp only [Slot.apply, hd]
    refine .after _ (shift_call env c d) ((h.links d hd).call env (by simpa [unnamed] using hok)) ?_
    rwa [Call.map_op_report]
  | create data =>
    obtain ⟨hq, hr⟩ := h.gone hen
    refine ⟨fun d hd => ?_, fun d hd => ?_, fun hnone => absurd hnone (by simp [Slot.apply])⟩
    · exact Option.some.inj hd ▸ .new env n data
    · exact Option.some.inj hd ▸ ⟨hq, by simp [Slot.apply, hr]⟩
  | run op spawned =>
    obtain ⟨hq, hr⟩ := hen
    cases hd : sl.device with
    | none => exact absurd (h.gone hd).1 (by simp [hq])
    | some d =>
      have hfits := h.fits d hd
      rw [hq, hr, Option.map_none] at hfits
      cases spawned with
      | true =>
        refine ⟨fun d' hd' => ?_, fun d' hd' => ?_, fun hnone => ?_⟩
        · simp only [Slot.apply, hd, Option.map_some, Option.some.injEq] at hd'
          subst hd'
          split_ifs <;> exact h.links d hd
        · simp only [Slot.apply, hd, Option.map_some, Option.some.injEq] at hd'
          have hstate : d'.state = d.state := by
            subst hd'
            split_ifs <;> rfl
          rw [hstate]
          cases hs : d.state <;> cases op <;> simp_all [Fits, Slot.apply]
        · simp [Slot.apply, hd] at hnone
      | false =>
        simp only [Slot.apply, Slot.called, hd]
        cases op with
        | setup =>
          refine .setupCb env (h.links d hd) hr ?_
          cases hs : d.state <;> simp_all [Fits]
        | teardown => exact .teardownCb (h.links d hd) rfl hr
  | ended sc =>
    have hr : sl.running = some sc := hen
    cases hd : sl.device with
    | none => exact absurd (h.gone hd).2 (by simp [hr])
    | some d =>
      have hfits := h.fits d hd
      rw [hr, Option.map_some] at hfits
      simp only [Slot.apply, Slot.called, hd]
      cases hop : sc.op with
      | setup =>
        refine .setupCb env (h.links d hd) rfl ?_
        rw [hop] at hfits
        cases hs : d.state <;> simp_all [Fits]
      | teardown =>
        refine .teardownCb (h.links d hd) ?_ rfl
        rw [hop] at hfits
        cases hs : d.state <;> simp_all [Fits]

/-- The deed of a step meets a condition on the slot of its device. -/
def eachDeed (good : Env → Slot → Deed → Bool) (s : Wireless) (e : Event) : Bool :=
  match deed s e with
  | some (n, a) => good e.env (s.slot n) a
  | none => true

theorem eachDeed_apply {good : Env → Slot → Deed → Bool} {s : Wireless} {e : Event} {n : Name}
    {a : Deed} (h : eachDeed good s e = true) (ha : deed s e = some (n, a)) :
    good e.env (s.slot n) a = true := by
  rw [eachDeed, ha] at h
  exact h

theorem Slot.Sound.empty : Slot.empty.Sound :=
  ⟨fun _ hd => absurd hd (by simp [Slot.empty]), fun _ hd => absurd hd (by simp [Slot.empty]),
    fun _ => ⟨rfl, rfl⟩⟩

/-- Slots stay sound. -/
theorem reaches_sound {good : Env → Slot → Deed → Bool}
    (hgood : ∀ env sl a, good env sl a = true → unnamed a = true) {s : Wireless}
    (h : Runs (eachDeed good · ·) s) (n : Name) : (s.slot n).Sound :=
  slots_invariant (P := fun _ sl => sl.Sound) (fun _ => .empty)
    (fun _ _ _ _ hok ha hen hs => hs.apply hen (hgood _ _ _ (eachDeed_apply hok ha))) h n

/-- A configuration check that finds a change. -/
def reconfigures (env : Env) (d : Wdev) : Call → Bool
  | .check => (d.updateDisabledVifs env).configChange
  | .update data => data ≠ some d.data
  | _ => false

/-- A configuration check that sends a device which is up back to `setup` although
the script that reported it up still runs. -/
def restarts (env : Env) (sl : Slot) : Deed → Bool
  | .call c =>
    match sl.device, sl.running with
    | some d, some sc =>
      d.state = .up && d.autostart && sc.op = .setup && sc.reported && reconfigures env d c
    | _, _ => false
  | _ => false

/-- The script of a device in state `setup` has not reported yet. -/
structure Slot.Honest (sl : Slot) : Prop where
  sound : sl.Sound
  fresh : ∀ d sc, sl.device = some d → sl.running = some sc → d.state = .setup →
    sc.reported = false

namespace Wdev

variable (d : Wdev) (env : Env)

theorem queued_setup (h : d.setup.queued ≠ none) :
    (d.state = .up ∨ d.state = .down) ∧ d.autostart = true := by
  obtain heq | ⟨⟨hstate, hauto, -⟩, -⟩ := d.setup_cases
  · exact absurd (heq ▸ rfl) h
  · exact ⟨hstate, hauto⟩

theorem queued_teardown : d.teardown.queued ≠ some .setup := by
  obtain heq | ⟨-, heq⟩ := d.teardown_cases
  · simp [heq, keep]
  · simp [heq]

theorem queued_stop : d.stop.queued ≠ some .setup := by
  rw [stop]
  cases d.state with
  | up => exact queued_teardown _
  | _ => simp [keep]

theorem queued_check (h : (d.check env).queued = some .setup) :
    (d.updateDisabledVifs env).configChange = true ∧ (d.state = .up ∨ d.state = .down) ∧
      d.autostart = true := by
  rw [check] at h
  split_ifs at h with hchange
  · simp [keep] at h
  · have hq := queued_setup ((d.updateDisabledVifs env).configInit env) (by simp [h])
    exact ⟨by simpa using hchange, hq⟩

theorem queued_start (h : (d.start env).queued = some .setup) : d.state = .down := by
  by_contra hne
  have hkeep : (d.start env).queued = none := by
    rw [start]
    split_ifs
    · rfl
    · simp [hne, reset, keep]
  simp [hkeep] at h

end Wdev

/-- A call queues a setup for a device that is down, or after a check that found
a change. -/
theorem queued_call {env : Env} {c : Call} {d : Wdev} (h : (c.run env d).queued = some .setup) :
    d.state = .down ∨ d.state = .up ∧ d.autostart = true ∧ reconfigures env d c = true := by
  cases c with
  | start => exact .inl (d.queued_start env h)
  | stop => exact absurd h d.queued_stop
  | destroy =>
    simp only [Call.run, Wdev.destroy] at h
    split_ifs at h
    · exact absurd h (Wdev.queued_stop _)
    · simp [Wdev.keep] at h
  | update data =>
    simp only [Call.run, Wdev.update] at h
    split_ifs at h with hsame
    · simp [Wdev.keep] at h
    · obtain ⟨-, hstate, hauto⟩ := Wdev.queued_check _ env h
      have hw : (d.withData data).state = d.state ∧ (d.withData data).autostart = d.autostart := by
        cases data <;> exact ⟨rfl, rfl⟩
      rw [hw.1] at hstate
      rw [hw.2] at hauto
      exact hstate.symm.imp_right fun hup => ⟨hup, hauto, by simpa [reconfigures] using hsame⟩
  | check =>
    obtain ⟨hchange, hstate, hauto⟩ := d.queued_check env h
    exact hstate.symm.imp_right fun hup => ⟨hup, hauto, hchange⟩
  | retrySetup =>
    simp only [Call.run, Wdev.retrySetup] at h
    split_ifs at h
    · simp [Wdev.keep] at h
    · simp [Wdev.keep] at h
    · exact .inl (d.queued_start env h)
  | notifyUp =>
    simp only [Call.run, Wdev.markUp] at h
    split_ifs at h <;> simp [Wdev.keep] at h
  | setData vif vlan ifname =>
    simp only [Call.run, Wdev.setData] at h
    cases ht : d.dataTarget vif vlan <;> simp [ht, Wdev.keep] at h
  | procAdd proc =>
    simp only [Call.run, Wdev.procAdd] at h
    split_ifs at h <;> simp [Wdev.keep] at h
  | setRetry retry => simp [Call.run, Wdev.setRetry, Wdev.keep] at h
  | hotplug dev add => simp [Call.run, Wdev.hotplug, Wdev.keep] at h
  | procCheck alive =>
    simp only [Call.run, Wdev.procCheck] at h
    split_ifs at h
    · simp [Wdev.keep] at h
    · exact absurd h d.queued_teardown
    · simp [Wdev.keep] at h

/-- What a call that is no such check leaves in state `setup`. -/
theorem setup_of_call {env : Env} {c : Call} {d : Wdev} (hlinks : Linkable d)
    (h : (c.run env d).wdev.state = .setup) :
    d.state = .down ∨ (d.state = .up ∧ d.autostart = true ∧ reconfigures env d c = true) ∨
      d.state = .setup ∧ c ≠ .notifyUp := by
  have hshift := shift_call env c d
  have hqueued := @queued_call env c d
  by_cases hup : c = .notifyUp
  · -- An up notification does not leave a device in `setup`.
    subst hup
    by_cases hs : d.state = .setup
    · simp [Call.run, d.markUp_of_setup hs, hlinks.ok, Wdev.keep] at h
    · exact absurd (by simpa [Call.run, d.markUp_of_ne hs, Wdev.keep] using h) hs
  generalize c.run env d = o at hshift hqueued h
  cases hshift with
  | keep hstate => exact .inr (.inr ⟨hstate ▸ h, hup⟩)
  | setup hfrom hto => exact (hqueued rfl).imp_right .inl
  | teardown counted hfrom hto => simp [hto] at h
  | up hfrom hto => simp [Wdev.keep, hto] at h
  | gone hfrom hdelete => exact .inl hfrom

theorem Call.report_of_ne {c : Call} (h : c ≠ .notifyUp) (sc : Script) : c.report sc = sc := by
  cases c with
  | notifyUp => exact absurd rfl h
  | _ => rfl

theorem ne_of_reconfigures {env : Env} {d : Wdev} {c : Call}
    (h : reconfigures env d c = true) : c ≠ .notifyUp := by
  rintro rfl
  exact absurd h (by simp [reconfigures])

/-- A slot without a script is honest as soon as it is sound. -/
theorem Slot.Honest.of_none {sl : Slot} (h : sl.Sound) (hr : sl.running = none) : sl.Honest :=
  ⟨h, fun _ _ _ hsc => absurd hsc (by simp [hr])⟩

/-- A call keeps a slot honest, unless it restarts the setup of a script that has reported. -/
theorem Slot.Honest.call {sl : Slot} {env : Env} {n : Name} {c : Call} (h : sl.Honest)
    (hen : sl.Enabled (.call c)) (hunnamed : unnamed (.call c) = true)
    (hrestart : restarts env sl (.call c) = false) : (sl.apply env n (.call c)).Honest := by
  refine ⟨h.sound.apply hen hunnamed, fun d' sc' hd' hsc' hs => ?_⟩
  obtain ⟨d, hd⟩ := Option.isSome_iff_exists.mp hen
  simp only [Slot.apply, hd, Slot.after] at hd' hsc'
  split_ifs at hd'
  obtain rfl := Option.some.inj hd'
  obtain ⟨sc, hsc, rfl⟩ := Option.map_eq_some_iff.mp hsc'
  have hfits := h.sound.fits d hd
  rw [hsc, Option.map_some] at hfits
  rcases setup_of_call (h.sound.links d hd) hs with hdown | ⟨hup, hauto, hrec⟩ | ⟨hsetup, hne⟩
  · -- A device that is down has no script.
    rw [hdown] at hfits
    exact absurd hfits.2 (by simp)
  · rw [hup] at hfits
    have hop : sc.op = .setup := by
      cases hop : sc.op with
      | setup => rfl
      | teardown => exact absurd (congrArg some hop) hfits.2
    rw [Call.report_of_ne (ne_of_reconfigures hrec)]
    simpa [restarts, hd, hsc, hup, hauto, hop, hrec] using hrestart
  · rw [Call.report_of_ne hne]
    exact h.fresh d sc hd hsc hsetup

theorem Slot.Honest.apply {sl : Slot} {env : Env} {n : Name} {a : Deed} (h : sl.Honest)
    (hen : sl.Enabled a) (hunnamed : unnamed a = true) (hrestart : restarts env sl a = false) :
    (sl.apply env n a).Honest := by
  have hsound : (sl.apply env n a).Sound := h.sound.apply hen hunnamed
  cases a with
  | call c => exact h.call hen hunnamed hrestart
  | create data => exact .of_none hsound (h.sound.gone hen).2
  | run op spawned =>
    cases spawned with
    | true => exact ⟨hsound, fun _ sc _ hsc _ => Option.some.inj hsc ▸ rfl⟩
    | false =>
      refine .of_none hsound ?_
      rw [Slot.apply, Slot.called]
      cases sl.device <;> exact hen.2
  | ended sc =>
    refine .of_none hsound ?_
    rw [Slot.apply, Slot.called]
    cases sl.device <;> rfl

/-- The retry counter is what it was. -/
def Kept (d d' : Wdev) : Prop := d'.retry = d.retry ∧ d'.retrySetupFailed = d.retrySetupFailed

/-- The retry counter starts anew. -/
def Renewed (d : Wdev) : Prop := d.retry = some defaultRetry ∧ d.retrySetupFailed = false

/-- A method that counts no failure. -/
structure Uncounted (d : Wdev) (o : Outcome) : Prop where
  counted : o.counted = false
  retry : Kept d o.wdev ∨ Renewed o.wdev

namespace Uncounted

variable {d : Wdev} {env : Env}

theorem keep {d' : Wdev} (h : Kept d d' ∨ Renewed d') : Uncounted d d'.keep := ⟨rfl, h⟩

theorem of_kept {d₁ : Wdev} {o : Outcome} (h : Uncounted d₁ o) (hkept : Kept d d₁ ∨ Renewed d₁) :
    Uncounted d o := by
  refine ⟨h.counted, ?_⟩
  rcases h.retry with h' | h'
  · rcases hkept with hk | hk
    · exact .inl ⟨h'.1.trans hk.1, h'.2.trans hk.2⟩
    · exact .inr ⟨h'.1.trans hk.1, h'.2.trans hk.2⟩
  · exact .inr h'

theorem setup : Uncounted d d.setup := by
  obtain heq | ⟨-, heq⟩ := d.setup_cases
  · exact heq ▸ keep (.inl ⟨rfl, rfl⟩)
  · exact heq ▸ ⟨rfl, .inl ⟨rfl, rfl⟩⟩

theorem teardown : Uncounted d d.teardown := by
  obtain heq | ⟨-, heq⟩ := d.teardown_cases
  · exact heq ▸ keep (.inl ⟨rfl, rfl⟩)
  · exact heq ▸ ⟨rfl, .inl ⟨rfl, rfl⟩⟩

theorem check : Uncounted d (d.check env) := by
  rw [Wdev.check]
  split_ifs
  · exact keep (.inl ⟨rfl, rfl⟩)
  · exact setup.of_kept (.inl ⟨rfl, rfl⟩)

theorem start : Uncounted d (d.start env) := by
  rw [Wdev.start]
  simp only
  split_ifs
  · exact keep (.inl ⟨rfl, rfl⟩)
  · exact keep (.inr ⟨rfl, rfl⟩)
  · exact setup.of_kept (.inr ⟨rfl, rfl⟩)
  · exact setup.of_kept (.inr ⟨rfl, rfl⟩)

theorem stop : Uncounted d d.stop := by
  rw [Wdev.stop]
  cases d.state with
  | up => exact teardown.of_kept (.inl ⟨rfl, rfl⟩)
  | _ => exact keep (.inl ⟨rfl, rfl⟩)

/-- Only `SET_RETRY` sets the counter to another value. -/
theorem call {c : Call} (hc : ∀ retry, c ≠ .setRetry retry) : Uncounted d (c.run env d) := by
  have hkeep : Uncounted d d.keep := keep (.inl ⟨rfl, rfl⟩)
  cases c with
  | start => exact start
  | stop => exact stop
  | destroy =>
    simp only [Call.run, Wdev.destroy]
    split_ifs
    · exact stop.of_kept (.inl ⟨rfl, rfl⟩)
    · exact ⟨rfl, .inl ⟨rfl, rfl⟩⟩
  | update data =>
    simp only [Call.run, Wdev.update]
    split_ifs
    · exact hkeep
    · refine check.of_kept (.inr ?_)
      cases data <;> exact ⟨rfl, rfl⟩
  | check => exact check
  | retrySetup =>
    simp only [Call.run, Wdev.retrySetup]
    split_ifs
    · exact hkeep
    · exact hkeep
    · exact start
  | notifyUp =>
    simp only [Call.run, Wdev.markUp]
    split_ifs <;> exact keep (.inl ⟨rfl, rfl⟩)
  | setData vif vlan ifname =>
    simp only [Call.run, Wdev.setData]
    cases d.dataTarget vif vlan <;> exact keep (.inl ⟨rfl, rfl⟩)
  | procAdd proc =>
    simp only [Call.run, Wdev.procAdd]
    split_ifs <;> exact keep (.inl ⟨rfl, rfl⟩)
  | setRetry retry => exact absurd rfl (hc retry)
  | hotplug dev add => exact keep (.inl ⟨rfl, rfl⟩)
  | procCheck alive =>
    simp only [Call.run, Wdev.procCheck]
    split_ifs
    · exact hkeep
    · exact teardown
    · exact hkeep

theorem setupCb (env : Env) (h : d.state ≠ .setup) : Uncounted d (d.setupCb env) := by
  rw [Wdev.setupCb, if_pos h]
  split_ifs
  · exact setup.of_kept (.inl ⟨rfl, rfl⟩)
  · exact keep (.inl ⟨rfl, rfl⟩)

theorem teardownCb : Uncounted d d.teardownCb := by
  rw [Wdev.teardownCb]
  simp only
  split_ifs
  · exact keep (.inl ⟨rfl, rfl⟩)
  · exact ⟨rfl, .inl ⟨rfl, rfl⟩⟩
  · exact setup.of_kept (.inl ⟨rfl, rfl⟩)

end Uncounted

/-- A setup script of a device ends in a step; `reported` is whether it had
reported that the device is up. -/
def SetupEnded (n : Name) (reported : Bool) (a : Option (Name × Deed)) : Prop :=
  a = some (n, .run .setup false) ∧ reported = false ∨
    ∃ sc, a = some (n, .ended sc) ∧ sc.op = .setup ∧ sc.reported = reported

variable {s t : Wireless} {e : Event} {n : Name}

theorem counted_call (env : Env) (c : Call) (d : Wdev) : (c.run env d).counted = false := by
  by_cases hc : ∃ retry, c = .setRetry retry
  · obtain ⟨retry, rfl⟩ := hc
    rfl
  · exact (Uncounted.call fun retry h => hc ⟨retry, h⟩).counted

/-- A failed setup is one that ends in state `setup`. -/
theorem counted_callback (env : Env) (op : Op) (d : Wdev) :
    (Wireless.callback env op d).counted = decide (op = .setup ∧ d.state = .setup) := by
  cases op with
  | setup =>
    by_cases hs : d.state = .setup
    · simp [Wireless.callback, Wdev.setupCb, hs]
    · simpa [Wireless.callback, hs] using (Uncounted.setupCb env hs).counted
  | teardown => simpa [Wireless.callback] using (Uncounted.teardownCb (d := d)).counted

theorem counted_runHandlerCb (env : Env) {op : Op} (reported : Bool) {d : Wdev}
    (hcur : s.cur = some (n, op)) (hd : s.devices.get? n = some d) :
    (s.runHandlerCb env n op reported).counted =
      if op = .setup ∧ d.state = .setup then s.counted ++ [(n, reported)] else s.counted := by
  rw [Wireless.runHandlerCb, hcur]
  simp [hd, Wireless.put, counted_callback]

theorem counted_runHandlerCb_none {env : Env} {op : Op} {reported : Bool}
    (hcur : s.cur = some (n, op)) (hd : s.devices.get? n = none) :
    (s.runHandlerCb env n op reported).counted = s.counted := by
  rw [Wireless.runHandlerCb, hcur]
  simp [hd]

/-- When a failure is counted. -/
structure Counts (s : Wireless) (e : Event) (t : Wireless) (n : Name) (reported : Bool) : Prop where
  ended : SetupEnded n reported (deed s e)
  setup : ∃ d, s.devices.get? n = some d ∧ d.state = .setup
  counted : t.counted = s.counted ++ [(n, reported)]

theorem counts_or_of_cb (env : Env) {op : Op} (reported : Bool) {r : Wireless}
    (hcur : r.cur = some (n, op)) (hdev : r.devices = s.devices) (hcount : r.counted = s.counted)
    (hended : op = .setup → SetupEnded n reported (deed s e)) :
    (r.runHandlerCb env n op reported).counted = s.counted ∧
        (∀ d, s.devices.get? n = some d → ¬ (op = .setup ∧ d.state = .setup)) ∨
      Counts s e (r.runHandlerCb env n op reported) n reported := by
  cases hd : s.devices.get? n with
  | none =>
    exact .inl ⟨(counted_runHandlerCb_none hcur (hdev ▸ hd)).trans hcount, fun d h => by simp at h⟩
  | some d =>
    have hcounted := counted_runHandlerCb env reported hcur (hdev ▸ hd)
    split_ifs at hcounted with hfail
    · exact .inr ⟨hended hfail.1, ⟨d, hd, hfail.2⟩, hcount ▸ hcounted⟩
    · exact .inl ⟨hcounted.trans hcount, fun d' hd' => Option.some.inj hd' ▸ hfail⟩

/-- The end of a setup script in state `setup`. -/
def Fails (d : Wdev) (a : Deed) : Prop :=
  d.state = .setup ∧ (a = .run .setup false ∨ ∃ sc, a = .ended sc ∧ sc.op = .setup)

/-- A step counts the failed setup of its deed, if there is one. -/
theorem counted_step (hp : Procs s) (h : step s e = some t) :
    (t.counted = s.counted ∧
        ∀ n d a, deed s e = some (n, a) → s.devices.get? n = some d → ¬ Fails d a) ∨
      ∃ n reported, Counts s e t n reported := by
  have hshape := shape_of_step hp h
  generalize ha : deed s e = a at hshape
  cases hshape with
  | idle agenda target => exact .inl ⟨rfl, by simp⟩
  | @call n d c agenda hd =>
    refine .inl ⟨?_, fun m d' a hm _ hf => ?_⟩
    · simp [Wireless.call, hd, Wireless.put, counted_call]
    · obtain ⟨rfl, rfl⟩ := Prod.mk.inj (Option.some.inj hm)
      simpa using hf.2
  | create data agenda hd =>
    refine .inl ⟨rfl, fun m d' a hm _ hf => ?_⟩
    obtain ⟨rfl, rfl⟩ := Prod.mk.inj (Option.some.inj hm)
    simpa using hf.2
  | @run n op spawned hcur hop =>
    cases spawned with
    | true =>
      refine .inl ⟨rfl, fun m d' a hm _ hf => ?_⟩
      obtain ⟨rfl, rfl⟩ := Prod.mk.inj (Option.some.inj hm)
      simpa using hf.2
    | false =>
      rcases counts_or_of_cb (s := s) (e := e) e.env false
        (r := { s with cur := some (n, op), queue := s.queue.erase n }) rfl rfl rfl
        (fun hop => .inl ⟨hop ▸ ha, rfl⟩) with ⟨hcount, hno⟩ | hcounts
      · refine .inl ⟨hcount, fun m d a hm hd hf => ?_⟩
        obtain ⟨rfl, rfl⟩ := Prod.mk.inj (Option.some.inj hm)
        exact hno d hd ⟨by simpa using hf.2, hf.1⟩
      · exact .inr ⟨n, false, hcounts⟩
  | @ended sc hsc hcur =>
    rcases counts_or_of_cb (s := s) (e := e) e.env sc.reported
      (r := { s with scripts := [] }) hcur rfl rfl
      (fun hop => .inr ⟨sc, ha, hop, rfl⟩) with ⟨hcount, hno⟩ | hcounts
    · refine .inl ⟨hcount, fun m d a hm hd hf => ?_⟩
      obtain ⟨rfl, rfl⟩ := Prod.mk.inj (Option.some.inj hm)
      exact hno d hd ⟨by simpa using hf.2, hf.1⟩
    · exact .inr ⟨_, _, hcounts⟩

theorem retry_apply {sl : Slot} {env : Env} {a : Deed} {d d' : Wdev} (hen : sl.Enabled a)
    (hd : sl.device = some d) (hd' : (sl.apply env n a).device = some d') :
    Kept d d' ∨ Renewed d' ∨
      (∃ retry, a = .call (.setRetry retry) ∧ d'.retrySetupFailed = d.retrySetupFailed) ∨
      Fails d a := by
  -- What a method that counts nothing leaves.
  have hmethod : ∀ {o : Outcome} {r : Slot}, Uncounted d o → (r.after o).device = some d' →
      Kept d d' ∨ Renewed d' := by
    intro o r ho hafter
    rw [Slot.after] at hafter
    simp only at hafter
    split_ifs at hafter
    exact Option.some.inj hafter ▸ ho.retry
  have hcallback : ∀ {op : Op} {r : Slot}, r.device = some d →
      (r.called env op).device = some d' → ¬ (op = .setup ∧ d.state = .setup) →
      Kept d d' ∨ Renewed d' := by
    intro op r hr hcalled hne
    rw [Slot.called, hr] at hcalled
    cases op with
    | setup => exact hmethod (Uncounted.setupCb env fun hs => hne ⟨rfl, hs⟩) hcalled
    | teardown => exact hmethod Uncounted.teardownCb hcalled
  cases a with
  | call c =>
    rw [Slot.apply] at hd'
    simp only [hd] at hd'
    by_cases hc : ∃ retry, c = .setRetry retry
    · obtain ⟨retry, rfl⟩ := hc
      exact .inr (.inr (.inl ⟨retry, rfl, Option.some.inj hd' ▸ rfl⟩))
    · exact (hmethod (Uncounted.call fun retry h => hc ⟨retry, h⟩) hd').imp_right .inl
  | create data => exact absurd (hen.symm.trans hd) (by simp)
  | run op spawned =>
    cases spawned with
    | true =>
      simp only [Slot.apply, hd, Option.map_some, Option.some.injEq] at hd'
      subst hd'
      split_ifs <;> exact .inl ⟨rfl, rfl⟩
    | false =>
      by_cases hfail : op = .setup ∧ d.state = .setup
      · exact .inr (.inr (.inr ⟨hfail.2, .inl (hfail.1 ▸ rfl)⟩))
      · exact (hcallback (r := { sl with queued := none }) hd hd' hfail).imp_right .inl
  | ended sc =>
    by_cases hfail : sc.op = .setup ∧ d.state = .setup
    · exact .inr (.inr (.inr ⟨hfail.2, .inr ⟨sc, rfl, hfail.1⟩⟩))
    · exact (hcallback (r := { sl with running := none }) hd hd' hfail).imp_right .inl

/-- The books of a state: one script at most, and the teardowns and the devices
that are down as they should be. -/
structure Accounted (s : Wireless) : Prop where
  one : s.scripts.length ≤ 1
  teardown : ∀ n d, s.devices.get? n = some d → d.state = .teardown →
    Xor' (s.queue.get? n = some .teardown) (∃ reported, ⟨n, .teardown, reported⟩ ∈ s.scripts)
  down : ∀ n d, s.devices.get? n = some d → d.state = .down →
    s.queue.get? n = none ∧ ∀ sc ∈ s.scripts, sc.name ≠ n

/-- The books of a step: a failure is only counted, and the retry counter only
decreased, when a setup script ends that had not reported. -/
structure Booked (s : Wireless) (e : Event) (t : Wireless) : Prop where
  counted : t.counted = s.counted ∨
    ∃ n, SetupEnded n false (deed s e) ∧ t.counted = s.counted ++ [(n, false)]
  retry : ∀ n d d', s.devices.get? n = some d → t.devices.get? n = some d' →
    Kept d d' ∨ Renewed d' ∨
      (∃ retry, deed s e = some (n, .call (.setRetry retry)) ∧
        d'.retrySetupFailed = d.retrySetupFailed) ∨
      SetupEnded n false (deed s e) ∧ t.counted = s.counted ++ [(n, false)]

/-- Sound slots and one script at most make the books of a state. -/
theorem Accounted.of_sound (hp : Procs s) (h : ∀ n, (s.slot n).Sound) : Accounted s where
  one := by
    cases hsc : s.scripts with
    | nil => simp
    | cons sc scs =>
      have honly := (hp.of_mem (show sc ∈ s.scripts by simp [hsc])).1
      simp [← hsc, honly]
  teardown := by
    intro n d hd hs
    have hfits := (h n).fits d hd
    rw [hs] at hfits
    -- The script of the slot is the script that runs.
    have hrun : (∃ reported, ⟨n, .teardown, reported⟩ ∈ s.scripts) ↔
        (s.slot n).running.map (·.op) = some .teardown := by
      constructor
      · rintro ⟨reported, hmem⟩
        simp [Wireless.slot, (hp.of_mem hmem).1]
      · intro hop
        obtain ⟨sc, hsc, hsop⟩ := Option.map_eq_some_iff.mp hop
        have hname : sc.name = n := by simpa using List.find?_some hsc
        refine ⟨sc.reported, ?_⟩
        rw [← hsop, ← hname]
        exact List.mem_of_find?_eq_some hsc
    rw [hrun]
    rcases hfits with ⟨hq, hr⟩ | ⟨hq, hr⟩
    · exact .inl ⟨hq, hr⟩
    · refine .inr ⟨hr, ?_⟩
      have hnone : s.queue.get? n = none := hq
      simp [hnone]
  down := by
    intro n d hd hs
    have hfits := (h n).fits d hd
    rw [hs] at hfits
    refine ⟨hfits.1, fun sc hsc hname => ?_⟩
    have hrun := hfits.2
    simp [Wireless.slot, (hp.of_mem hsc).1, hname] at hrun

/-- A failure that is counted is that of a script that had not reported. -/
theorem Counts.unreported {reported : Bool} (hp : Procs s) (h : ∀ n, (s.slot n).Honest)
    (hst : step s e = some t) (hc : Counts s e t n reported) : reported = false := by
  obtain ⟨d, hd, hs⟩ := hc.setup
  rcases hc.ended with ⟨-, hrep⟩ | ⟨sc, hdeed, -, hrep⟩
  · exact hrep
  · exact hrep ▸ (h n).fresh d sc hd (enabled_of_step hp hst hdeed) hs

theorem Booked.of_honest (hp : Procs s) (h : ∀ n, (s.slot n).Honest)
    (hst : step s e = some t) : Booked s e t := by
  have hcounted := counted_step hp hst
  refine ⟨?_, fun n d d' hd hd' => ?_⟩
  · rcases hcounted with ⟨hcount, -⟩ | ⟨n, reported, hcounts⟩
    · exact .inl hcount
    · obtain rfl := hcounts.unreported hp h hst
      exact .inr ⟨n, hcounts.ended, hcounts.counted⟩
  · have hslot := step_slot hp hst n
    -- A slot that stays as it is has the same device.
    have hsame : t.slot n = s.slot n → Kept d d' := by
      intro heq
      have hdev : t.devices.get? n = s.devices.get? n := congrArg Slot.device heq
      obtain rfl : d' = d := Option.some.inj ((hd'.symm.trans hdev).trans hd)
      exact ⟨rfl, rfl⟩
    cases ha : deed s e with
    | none =>
      rw [ha] at hslot
      exact .inl (hsame hslot)
    | some na =>
      obtain ⟨m, a⟩ := na
      rw [ha] at hslot
      simp only at hslot
      split_ifs at hslot with hm
      · subst hm
        have hen := enabled_of_step hp hst ha
        have happly : ((s.slot n).apply e.env n a).device = some d' := hslot ▸ hd'
        rcases retry_apply hen hd happly with hk | hr | ⟨retry, rfl, hf⟩ | hfails
        · exact .inl hk
        · exact .inr (.inl hr)
        · exact .inr (.inr (.inl ⟨retry, rfl, hf⟩))
        · rcases hcounted with ⟨-, hno⟩ | ⟨m, reported, hcounts⟩
          · exact absurd hfails (hno n d a ha hd)
          · obtain rfl := hcounts.unreported hp h hst
            have hmn : m = n := by
              rcases hcounts.ended with ⟨hm, -⟩ | ⟨sc, hm, -⟩
              · exact congrArg Prod.fst (Option.some.inj (hm.symm.trans ha))
              · exact congrArg Prod.fst (Option.some.inj (hm.symm.trans ha))
            rw [← ha]
            exact .inr (.inr (.inr (hmn ▸ ⟨hcounts.ended, hcounts.counted⟩)))
      · exact .inl (hsame hslot)

/-- The deeds of the runs that keep their books right. -/
def fair (env : Env) (sl : Slot) (a : Deed) : Bool := unnamed a && !restarts env sl a

/-- The books are right in every run in which no device is told an interface name of
its own, and no configuration check finds a change for a device that is up and whose
setup script has reported this but still runs. -/
theorem accounting (h : Runs (eachDeed fair · ·) s) :
    Accounted s ∧ ∀ e t, step s e = some t → Booked s e t := by
  have hp := reaches_procs h
  have hhonest : ∀ n, (s.slot n).Honest := by
    refine slots_invariant (P := fun _ sl => sl.Honest) (fun _ => .of_none .empty rfl) ?_ h
    intro s e n a hok ha hen hhonest
    have hfair := eachDeed_apply hok ha
    simp only [fair, Bool.and_eq_true, Bool.not_eq_true'] at hfair
    exact hhonest.apply hen hfair.1 hfair.2
  exact ⟨.of_sound hp fun n => (hhonest n).sound, fun e t hst => .of_honest hp hhonest hst⟩

/-- A device with an access point in the network `lan`. -/
def lanRadio : DevData where
  config := ascii "channel 36"
  vif := [{
    name := ascii "default_radio0"
    config := ⟨[ascii "lan"], [], ascii "ap", false, false, false, none, ascii "ssid OpenWrt"⟩
    vlan := []
    sta := [] }]

/-- All networks are enabled, and have one interface index. -/
def indexEnv (ifindex : ℕ) : Env := ⟨fun _ => some ⟨true, ifindex⟩, fun _ => some (ascii "br-lan")⟩

/-- The name of the device. -/
def radio0 : Name := ascii "radio0"

/-- A call of the device, and the steps until the next event. -/
def callEvents (ifindex : ℕ) (c : Call) (rounds : ℕ) : List Event :=
  ⟨.call radio0 c, indexEnv ifindex⟩ ::
    List.replicate rounds ⟨.next radio0 true, indexEnv ifindex⟩

/-- The device is created and started, and its setup script reports that it is up. -/
def upEvents : List Event :=
  ⟨.new radio0 lanRadio, indexEnv 1⟩ :: callEvents 1 .start 2 ++ callEvents 1 .notifyUp 0

/-- The setup script of the device exits. -/
def exitEvent : Event := ⟨.exit 0, indexEnv 1⟩

theorem runs_of_events {good : Env → Slot → Deed → Bool} {events : List Event}
    (h : runAll step (eachDeed good) .initial events = some s) : Runs (eachDeed good · ·) s :=
  reaches_runAll (fun _ _ h => h) (.start rfl) h

theorem accounting_up : ∃ s, Runs (eachDeed fair · ·) s ∧ s.scripts = [⟨radio0, .setup, true⟩] ∧
    Accounted s ∧ ∀ e t, step s e = some t → Booked s e t := by
  have hrun : (runAll step (eachDeed fair) .initial upEvents).map (·.scripts) =
      some [⟨radio0, .setup, true⟩] := by decide +kernel
  obtain ⟨s, hs, hscripts⟩ := Option.map_eq_some_iff.mp hrun
  have hreaches : Runs (eachDeed fair · ·) s := runs_of_events hs
  exact ⟨s, hreaches, hscripts, accounting hreaches⟩

theorem reaches_sound_up : ∃ s, Runs (eachDeed (fun _ _ a => unnamed a) · ·) s ∧
    s.scripts = [⟨radio0, .setup, true⟩] ∧ (s.slot radio0).Sound := by
  have hrun : (runAll step (eachDeed fun _ _ a => unnamed a) .initial upEvents).map (·.scripts) =
      some [⟨radio0, .setup, true⟩] := by decide +kernel
  obtain ⟨s, hs, hscripts⟩ := Option.map_eq_some_iff.mp hrun
  have hreaches := runs_of_events hs
  exact ⟨s, hreaches, hscripts, reaches_sound (fun _ _ _ h => h) hreaches radio0⟩

/-- The network gets another interface index after the device is up. When the setup
script exits, its failure is counted although it has reported. -/
theorem not_accounting : ¬ ∀ s, Runs (fun _ _ => True) s →
    Accounted s ∧ ∀ e t, step s e = some t → Booked s e t := by
  intro h
  have hrun : (runAll step (fun _ _ => true) .initial (upEvents ++ callEvents 2 .check 1)).map
      (fun s => (s.counted, (step s exitEvent).map (·.counted))) =
        some ([], some [(radio0, true)]) := by decide +kernel
  obtain ⟨s, hs, heq⟩ := Option.map_eq_some_iff.mp hrun
  obtain ⟨hbefore, hafter⟩ := Prod.mk.inj heq
  obtain ⟨t, ht, hcounted⟩ := Option.map_eq_some_iff.mp hafter
  have hreaches : Runs (fun _ _ => True) s := reaches_runAll (fun _ _ _ => trivial) (.start rfl) hs
  rcases ((h s hreaches).2 _ t ht).counted with hsame | ⟨n, -, hgrown⟩
  · rw [hcounted, hbefore] at hsame
    exact absurd hsame (by simp)
  · rw [hcounted, hbefore] at hgrown
    exact absurd hgrown (by simp)

end NeonWrt.Netifd
