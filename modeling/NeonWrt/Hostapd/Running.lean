import NeonWrt.Hostapd.Supplicant

/-!
# Running interfaces

The lists of the phys agree with the supplicant if the interfaces that are there
are those marked as running, each under the phy whose list holds it and with the
configuration of the list. A run keeps that up exactly as long as three things do
not happen. A configuration gives an interface twice that is running: its old
entry is lost, and the interface stays on without one. A phy starts an interface
that is running in the list of another phy: both claim it. And a phy starts an
interface although it opens under another name than it is kept by, as one does
that was first set up with a radio number and then without one under the full
name.
-/

namespace NeonWrt.Hostapd.Wpas

open NeonWrt.Lib

namespace State

/-- An entry that is marked as running in the list of a phy. -/
def RunningIn (s : State) (key ifname : Bytes) (iface : Iface) : Prop :=
  ∃ phy, s.config.get? key = some phy ∧ phy.data.get? ifname = some iface ∧ iface.running = true

/-- The lists agree with the supplicant. -/
structure Agrees (s : State) : Prop where
  present : ∀ ifname, ifname ∈ s.interfaces.map (·.iface) ↔ ∃ key iface, s.RunningIn key ifname iface
  mapped : ∀ key ifname iface, s.RunningIn key ifname iface → s.ifacePhy.get? ifname = some key
  configured : ∀ key ifname iface, s.RunningIn key ifname iface →
    ∀ c ∈ s.interfaces, c.iface = ifname → c.Same iface.config

/-- The interfaces that a phy would start run nowhere else, and the phy opens under
the name it is kept by. -/
def Startable (s : State) (key : Bytes) : Prop :=
  ∀ phy, s.config.get? key = some phy → ∀ ifname iface, phy.data.get? ifname = some iface →
    iface.running = false →
      phydevName phy = key ∧ ∀ key' iface', ¬ s.RunningIn key' ifname iface'

/-- The condition on a step: a configuration does not repeat what is running, and
what is started may be started. -/
def Fine (s : State) : Call → Prop
  | .configSet readfile phy radio config _ =>
    ∀ key configList, phyName phy radio = some key → config = some configList →
      ∀ ifname iface, s.RunningIn key ifname iface →
        ((configValues readfile configList).map (·.1)).count ifname ≤ 1
  | .phySetState opens phy radio stop =>
    ∀ key, phyName phy radio = some key → stop = some false → opens = true → s.Startable key
  | .timer opens => ∀ key timers, s.timers = key :: timers → opens = true → s.Startable key

/-- What a step keeps up: the agreement, with each interface only once in the
supplicant, and each entry under its own name. -/
structure Ok (s : State) : Prop extends Agrees s where
  nodup : (s.interfaces.map (·.iface)).Nodup
  keyed : ∀ key phy ifname iface, s.config.get? key = some phy →
    phy.data.get? ifname = some iface → iface.config.iface = ifname

end State

theorem IfaceConfig.Same.refl (c : IfaceConfig) : c.Same c := ⟨rfl, .refl _⟩

theorem IfaceConfig.Same.trans {a b c : IfaceConfig} (hab : a.Same b) (hbc : b.Same c) : a.Same c :=
  ⟨hab.1.trans hbc.1, hab.2.trans hbc.2⟩

theorem IfaceConfig.same_of_isEqual {a b : IfaceConfig} (h : a.isEqual b = true) : a.Same b := by
  rw [IfaceConfig.isEqual, Bool.and_eq_true, beq_iff_eq] at h
  exact ⟨h.1, sameReads_of_isEqual h.2⟩

/-- An interface of the list is running under the name. -/
def Stops (l : List Iface) (ifname : Bytes) : Prop :=
  ∃ iface ∈ l, iface.running = true ∧ iface.config.iface = ifname

instance (l : List Iface) (ifname : Bytes) : Decidable (Stops l ifname) :=
  inferInstanceAs (Decidable (∃ iface ∈ l, iface.running = true ∧ iface.config.iface = ifname))

theorem stops_cons {e : Iface} {l : List Iface} {n : Bytes} :
    Stops (e :: l) n ↔ (e.running = true ∧ e.config.iface = n) ∨ Stops l n := by
  simp [Stops]

/-- Interfaces stopped one after the other. -/
def stopAll (l : List Iface) (w : Wpas) : Wpas := l.foldl (fun w iface => (ifaceStop iface w).1) w

theorem mem_eraseP_iface {l : List IfaceConfig} (hnodup : (l.map (·.iface)).Nodup) {n : Bytes}
    {c : IfaceConfig} : c ∈ l.eraseP (·.iface = n) ↔ c ∈ l ∧ c.iface ≠ n := by
  induction l with
  | nil => simp
  | cons d l ih =>
    rw [List.map_cons, List.nodup_cons] at hnodup
    by_cases hd : d.iface = n
    · rw [List.eraseP_cons_of_pos (by simpa using hd), List.mem_cons]
      constructor
      -- no later entry has the name of the one that is erased
      · intro hc
        refine ⟨Or.inr hc, fun hcn => hnodup.1 ?_⟩
        exact List.mem_map.mpr ⟨c, hc, hcn.trans hd.symm⟩
      · rintro ⟨rfl | hc, hcn⟩
        · exact absurd hd hcn
        · exact hc
    · rw [List.eraseP_cons_of_neg (by simpa using hd), List.mem_cons, List.mem_cons, ih hnodup.2]
      constructor
      · rintro (rfl | ⟨hc, hcn⟩)
        · exact ⟨Or.inl rfl, hd⟩
        · exact ⟨Or.inr hc, hcn⟩
      · rintro ⟨rfl | hc, hcn⟩
        · exact Or.inl rfl
        · exact Or.inr ⟨hc, hcn⟩

theorem ifacePhy_ifaceStop (e : Iface) (w : Wpas) (n : Bytes) :
    (ifaceStop e w).1.ifacePhy.get? n =
      if e.running = true ∧ e.config.iface = n then none else w.ifacePhy.get? n := by
  rw [ifaceStop]
  cases hrun : e.running with
  | false => simp
  | true =>
    simp only [Bool.not_true, Bool.false_eq_true, if_false, true_and, Wpas.removeIface,
      Table.get?_erase, eq_comm]

theorem interfaces_ifaceStop (e : Iface) (w : Wpas) :
    (ifaceStop e w).1.interfaces =
      if e.running then w.interfaces.eraseP (·.iface = e.config.iface) else w.interfaces := by
  rw [ifaceStop]
  cases e.running <;> rfl

theorem ifacePhy_stopAll (l : List Iface) (w : Wpas) (n : Bytes) :
    (stopAll l w).ifacePhy.get? n = if Stops l n then none else w.ifacePhy.get? n := by
  induction l generalizing w with
  | nil => simp [stopAll, Stops]
  | cons e l ih =>
    change (stopAll l (ifaceStop e w).1).ifacePhy.get? n = _
    rw [ih, ifacePhy_ifaceStop]
    -- a later stop of the name hides what the first one does
    by_cases hl : Stops l n
    · rw [if_pos hl, if_pos (stops_cons.mpr (Or.inr hl))]
    · rw [if_neg hl, if_congr (stops_cons.trans (or_iff_left hl)) rfl rfl]

theorem interfaces_stopAll (l : List Iface) {w : Wpas}
    (hnodup : (w.interfaces.map (·.iface)).Nodup) :
    ((stopAll l w).interfaces.map (·.iface)).Nodup ∧
      ∀ c, c ∈ (stopAll l w).interfaces ↔ c ∈ w.interfaces ∧ ¬ Stops l c.iface := by
  induction l generalizing w with
  | nil => simpa [stopAll, Stops] using hnodup
  | cons e l ih =>
    change ((stopAll l (ifaceStop e w).1).interfaces.map (·.iface)).Nodup ∧
      ∀ c, c ∈ (stopAll l (ifaceStop e w).1).interfaces ↔ _
    have hstop := interfaces_ifaceStop e w
    by_cases hrun : e.running = true
    · rw [if_pos hrun] at hstop
      -- one entry is gone, and no other has its name
      obtain ⟨hnodup', hmem⟩ := @ih (ifaceStop e w).1 (by
        rw [hstop]
        exact (List.eraseP_sublist.map _).nodup hnodup)
      refine ⟨hnodup', fun c => ?_⟩
      rw [hmem, hstop, mem_eraseP_iface hnodup, stops_cons, not_or, and_assoc]
      simp [hrun, eq_comm]
    · rw [if_neg hrun] at hstop
      obtain ⟨hnodup', hmem⟩ := @ih (ifaceStop e w).1 (hstop ▸ hnodup)
      refine ⟨hnodup', fun c => ?_⟩
      rw [hmem, hstop, stops_cons, not_or]
      simp [hrun]

/-- An interface of the list is not running under the name. -/
def Starts (l : List Iface) (ifname : Bytes) : Prop :=
  ∃ iface ∈ l, iface.running = false ∧ iface.config.iface = ifname

instance (l : List Iface) (ifname : Bytes) : Decidable (Starts l ifname) :=
  inferInstanceAs (Decidable (∃ iface ∈ l, iface.running = false ∧ iface.config.iface = ifname))

theorem starts_cons {e : Iface} {l : List Iface} {n : Bytes} :
    Starts (e :: l) n ↔ (e.running = false ∧ e.config.iface = n) ∨ Starts l n := by
  simp [Starts]

/-- Interfaces started one after the other. -/
def startAll (phydev : Bytes) (l : List Iface) (w : Wpas) : Wpas :=
  l.foldl (fun w iface => (ifaceStart phydev iface w).1) w

theorem ifacePhy_startAll (phydev : Bytes) (l : List Iface) (w : Wpas) (n : Bytes) :
    (startAll phydev l w).ifacePhy.get? n =
      if Starts l n then some phydev else w.ifacePhy.get? n := by
  induction l generalizing w with
  | nil => simp [startAll, Starts]
  | cons e l ih =>
    change (startAll phydev l (ifaceStart phydev e w).1).ifacePhy.get? n = _
    rw [ih]
    by_cases hl : Starts l n
    · rw [if_pos hl, if_pos (starts_cons.mpr (Or.inr hl))]
    · rw [if_neg hl, if_congr (starts_cons.trans (or_iff_left hl)) rfl rfl, ifaceStart]
      cases hrun : e.running with
      | true => simp
      | false =>
        simp only [Bool.false_eq_true, if_false, true_and, Wpas.addIface, Table.get?_set, eq_comm]

theorem mem_interfaces_startAll (phydev : Bytes) (l : List Iface) (w : Wpas) (c : IfaceConfig) :
    c ∈ (startAll phydev l w).interfaces ↔
      c ∈ w.interfaces ∨ ∃ e ∈ l, e.running = false ∧ e.config = c := by
  induction l generalizing w with
  | nil => simp [startAll]
  | cons e l ih =>
    change c ∈ (startAll phydev l (ifaceStart phydev e w).1).interfaces ↔ _
    rw [ih, ifaceStart]
    cases hrun : e.running with
    -- an entry that is marked is not added again
    | true => simp [hrun]
    | false =>
      simp only [Bool.false_eq_true, if_false, Wpas.addIface, List.mem_cons, exists_eq_or_imp,
        hrun, true_and]
      rw [eq_comm, or_assoc, or_left_comm]

theorem nodup_interfaces_startAll (phydev : Bytes) {l : List Iface} {w : Wpas}
    (hl : (l.map (·.config.iface)).Nodup) (hw : (w.interfaces.map (·.iface)).Nodup)
    (hdisjoint : ∀ n, Starts l n → n ∉ w.interfaces.map (·.iface)) :
    ((startAll phydev l w).interfaces.map (·.iface)).Nodup := by
  induction l generalizing w with
  | nil => exact hw
  | cons e l ih =>
    change ((startAll phydev l (ifaceStart phydev e w).1).interfaces.map (·.iface)).Nodup
    rw [List.map_cons, List.nodup_cons] at hl
    have hrest : ∀ n, Starts l n → n ∉ w.interfaces.map (·.iface) :=
      fun n hn => hdisjoint n (starts_cons.mpr (Or.inr hn))
    rw [ifaceStart]
    cases hrun : e.running with
    | true => exact ih hl.2 hw hrest
    | false =>
      -- the new entry in front has a name of its own, and so have those that follow
      refine ih hl.2 ?_ ?_
      · have hnew := hdisjoint _ (starts_cons.mpr (Or.inl ⟨hrun, rfl⟩))
        exact List.nodup_cons.mpr ⟨hnew, hw⟩
      · rintro n ⟨e', he', hrun', rfl⟩ hmem
        rcases List.mem_cons.mp hmem with heq | hmem
        · exact hl.1 (List.mem_map.mpr ⟨e', he', heq⟩)
        · exact hrest _ ⟨e', he', hrun', rfl⟩ hmem

section Phy

variable {s : State} {key : Bytes} {phy : Phy}

/-- A name runs in the list of one phy at most. -/
theorem State.Agrees.key_unique (h : s.Agrees) {key key' n : Bytes} {e e' : Iface}
    (hrun : s.RunningIn key n e) (hrun' : s.RunningIn key' n e') : key = key' :=
  Option.some.inj ((h.mapped _ _ _ hrun).symm.trans (h.mapped _ _ _ hrun'))

/-- Only the list of the phy that is set changes. -/
theorem runningIn_set {w : Wpas} {timers : List Bytes} {key' n : Bytes} {e : Iface} :
    (State.mk w (s.config.set key phy) timers).RunningIn key' n e ↔
      if key' = key then phy.data.get? n = some e ∧ e.running = true else s.RunningIn key' n e := by
  rw [State.RunningIn]
  dsimp only
  rw [Table.get?_set]
  split_ifs with hkey
  · simp
  · rfl

/-- Interfaces of one phy are stopped, and its list keeps the others as they are. -/
theorem ok_of_stopAll (h : s.Ok) {l : List Iface} {timers : List Bytes}
    (hstops : ∀ n, Stops l n → ∃ e, s.RunningIn key n e)
    (hkept : ∀ n e, s.RunningIn key n e → ¬ Stops l n →
      ∃ e', phy.data.get? n = some e' ∧ e'.running = true)
    (hrunning : ∀ n e', phy.data.get? n = some e' → e'.running = true →
      ∃ e, s.RunningIn key n e ∧ ¬ Stops l n ∧ e.config.Same e'.config)
    (hkeyed : ∀ n e, phy.data.get? n = some e → e.config.iface = n) :
    (State.mk (stopAll l s.toWpas) (s.config.set key phy) timers).Ok := by
  obtain ⟨hnodup, hmem⟩ := interfaces_stopAll l h.nodup
  -- what runs afterwards ran before in the same list, and was not stopped
  have hbefore : ∀ key' n e',
      (State.mk (stopAll l s.toWpas) (s.config.set key phy) timers).RunningIn key' n e' →
        ∃ e, s.RunningIn key' n e ∧ ¬ Stops l n ∧ e.config.Same e'.config := by
    intro key' n e' hrun
    rw [runningIn_set] at hrun
    split_ifs at hrun with hkey
    · exact hkey ▸ hrunning n e' hrun.1 hrun.2
    · refine ⟨e', hrun, fun hstop => ?_, .refl _⟩
      obtain ⟨e, he⟩ := hstops n hstop
      exact hkey (h.toAgrees.key_unique hrun he)
  refine ⟨⟨fun n => ?_, fun key' n e' hrun => ?_, fun key' n e' hrun c hc hcn => ?_⟩, hnodup, ?_⟩
  -- present: what is not stopped is still marked in its list
  · constructor
    · intro hn
      obtain ⟨c, hc, rfl⟩ := List.mem_map.mp hn
      obtain ⟨hc, hstop⟩ := (hmem c).mp hc
      obtain ⟨key', e, he⟩ := (h.present _).mp (List.mem_map.mpr ⟨c, hc, rfl⟩)
      by_cases hkey : key' = key
      · subst hkey
        obtain ⟨e', he'⟩ := hkept _ e he hstop
        exact ⟨key', e', runningIn_set.mpr (by rwa [if_pos rfl])⟩
      · exact ⟨key', e, runningIn_set.mpr (by rwa [if_neg hkey])⟩
    · rintro ⟨key', e', hrun⟩
      obtain ⟨e, he, hstop, -⟩ := hbefore _ _ _ hrun
      obtain ⟨c, hc, rfl⟩ := List.mem_map.mp ((h.present n).mpr ⟨key', e, he⟩)
      exact List.mem_map.mpr ⟨c, (hmem c).mpr ⟨hc, hstop⟩, rfl⟩
  -- mapped: only stopped names lose their phy
  · obtain ⟨e, he, hstop, -⟩ := hbefore _ _ _ hrun
    dsimp only
    rw [ifacePhy_stopAll, if_neg hstop, h.mapped _ _ _ he]
  -- configured: the configuration it runs with has not been touched
  · obtain ⟨e, he, -, hsame⟩ := hbefore _ _ _ hrun
    exact (h.configured _ _ _ he c ((hmem c).mp hc).1 hcn).trans hsame
  · intro key' phy' n e hphy he
    dsimp only at hphy
    rw [Table.get?_set] at hphy
    split_ifs at hphy with hkey
    · exact hkeyed n e (Option.some.inj hphy ▸ he)
    · exact h.keyed key' phy' n e hphy he

/-- The entries of a list under their names. -/
theorem stops_entries (h : s.Ok) (hphy : s.config.get? key = some phy) {n : Bytes} :
    Stops (phy.data.entries.map (·.2)) n ↔ ∃ e, s.RunningIn key n e := by
  constructor
  · rintro ⟨e, he, hrun, rfl⟩
    obtain ⟨⟨k, e'⟩, hk, rfl⟩ := List.mem_map.mp he
    have hget := Table.get?_eq_some.mpr hk
    exact ⟨_, phy, hphy, by rwa [h.keyed key phy k _ hphy hget], hrun⟩
  · rintro ⟨e, phy', hphy', he, hrun⟩
    obtain rfl := Option.some.inj (hphy.symm.trans hphy')
    exact ⟨e, List.mem_map.mpr ⟨(n, e), Table.get?_eq_some.mp he, rfl⟩, hrun, h.keyed _ _ _ _ hphy he⟩

theorem starts_entries (h : s.Ok) (hphy : s.config.get? key = some phy) {n : Bytes} :
    Starts (phy.data.entries.map (·.2)) n ↔ ∃ e, phy.data.get? n = some e ∧ e.running = false := by
  constructor
  · rintro ⟨e, he, hrun, rfl⟩
    obtain ⟨⟨k, e'⟩, hk, rfl⟩ := List.mem_map.mp he
    have hget := Table.get?_eq_some.mpr hk
    exact ⟨_, by rwa [h.keyed key phy k _ hphy hget], hrun⟩
  · rintro ⟨e, he, hrun⟩
    exact ⟨e, List.mem_map.mpr ⟨(n, e), Table.get?_eq_some.mp he, rfl⟩, hrun, h.keyed _ _ _ _ hphy he⟩

/-- What a start makes of an entry. -/
def started (iface : Iface) : Iface := { iface with running := true }

theorem runningIn_started {w : Wpas} {timers : List Bytes} {data : Table Bytes Iface}
    (hphy : s.config.get? key = some phy)
    (hdata : ∀ n, data.get? n = (phy.data.get? n).map started) {key' n : Bytes} {e' : Iface} :
    (State.mk w (s.config.set key { phy with data := data }) timers).RunningIn key' n e' ↔
      s.RunningIn key' n e' ∨
        key' = key ∧ ∃ e, phy.data.get? n = some e ∧ e.running = false ∧ e' = started e := by
  rw [runningIn_set]
  by_cases hkey : key' = key
  · subst hkey
    rw [if_pos rfl, State.RunningIn, hdata]
    constructor
    -- an entry of the new list was running before or is started now
    · rintro ⟨hmap, -⟩
      obtain ⟨e, he, rfl⟩ := Option.map_eq_some_iff.mp hmap
      cases hrun : e.running with
      | true =>
        refine Or.inl ⟨phy, hphy, ?_, rfl⟩
        rw [he, started, ← hrun]
      | false => exact Or.inr ⟨rfl, e, he, hrun, rfl⟩
    · rintro (⟨phy', hphy', he, hrun⟩ | ⟨-, e, he, hrun, rfl⟩)
      · obtain rfl := Option.some.inj (hphy.symm.trans hphy')
        rw [he, Option.map_some, started, ← hrun]
        exact ⟨rfl, rfl⟩
      · rw [he]
        exact ⟨rfl, rfl⟩
  · rw [if_neg hkey]
    exact (or_iff_left fun h => hkey h.1).symm

/-- Interfaces of one phy are started that run nowhere else. -/
theorem ok_of_startAll (h : s.Ok) (hphy : s.config.get? key = some phy) {timers : List Bytes}
    {data : Table Bytes Iface} (hdata : ∀ n, data.get? n = (phy.data.get? n).map started)
    (hstart : s.Startable key) :
    (State.mk (startAll (phydevName phy) (phy.data.entries.map (·.2)) s.toWpas)
      (s.config.set key { phy with data := data }) timers).Ok := by
  have hnames : ∀ n, Starts (phy.data.entries.map (·.2)) n → n ∉ s.interfaces.map (·.iface) := by
    intro n hn hmem
    obtain ⟨e, he, hrun⟩ := (starts_entries h hphy).mp hn
    obtain ⟨key', e', he'⟩ := (h.present n).mp hmem
    exact (hstart phy hphy n e he hrun).2 key' e' he'
  -- a name that runs already is not started
  have hrunning : ∀ key' n e, s.RunningIn key' n e → ¬ Starts (phy.data.entries.map (·.2)) n :=
    fun key' n e hrun hn => hnames n hn ((h.present n).mpr ⟨key', e, hrun⟩)
  refine ⟨⟨fun n => ?_, fun key' n e' hrun => ?_, fun key' n e' hrun c hc hcn => ?_⟩, ?_, ?_⟩
  -- present: what ran before is still there, and what is started is new
  · simp only [runningIn_started hphy hdata]
    constructor
    · intro hn
      obtain ⟨c, hc, rfl⟩ := List.mem_map.mp hn
      rcases (mem_interfaces_startAll _ _ _ c).mp hc with hc | ⟨e, he, hrun, rfl⟩
      · obtain ⟨key', e, he⟩ := (h.present _).mp (List.mem_map.mpr ⟨c, hc, rfl⟩)
        exact ⟨key', e, Or.inl he⟩
      · obtain ⟨e', he', hrun'⟩ := (starts_entries h hphy).mp ⟨e, he, hrun, rfl⟩
        exact ⟨key, started e', Or.inr ⟨rfl, e', he', hrun', rfl⟩⟩
    · rintro ⟨key', e', hrun | ⟨-, e, he, hrun, -⟩⟩
      · obtain ⟨c, hc, rfl⟩ := List.mem_map.mp ((h.present n).mpr ⟨key', e', hrun⟩)
        exact List.mem_map.mpr ⟨c, (mem_interfaces_startAll _ _ _ c).mpr (Or.inl hc), rfl⟩
      · obtain ⟨d, hd, hoff, rfl⟩ := (starts_entries h hphy).mpr ⟨e, he, hrun⟩
        refine List.mem_map.mpr ⟨d.config, ?_, rfl⟩
        exact (mem_interfaces_startAll _ _ _ _).mpr (Or.inr ⟨d, hd, hoff, rfl⟩)
  · dsimp only
    rw [ifacePhy_startAll]
    rcases (runningIn_started hphy hdata).mp hrun with hold | ⟨rfl, e, he, hoff, rfl⟩
    · rw [if_neg (hrunning _ _ _ hold), h.mapped _ _ _ hold]
    · rw [if_pos ((starts_entries h hphy).mpr ⟨e, he, hoff⟩), (hstart phy hphy n e he hoff).1]
  -- configured: an entry of the supplicant is an old one or one that is started
  · rcases (mem_interfaces_startAll _ _ _ c).mp hc with hbefore | ⟨e, he, hoff, rfl⟩
    · rcases (runningIn_started hphy hdata).mp hrun with hold | ⟨rfl, e, he, hoff, rfl⟩
      · exact h.configured _ _ _ hold c hbefore hcn
      · have hstarts := (starts_entries h hphy).mpr ⟨e, he, hoff⟩
        exact (hnames n hstarts (List.mem_map.mpr ⟨c, hbefore, hcn⟩)).elim
    · have hstarts : Starts (phy.data.entries.map (·.2)) n := ⟨e, he, hoff, hcn⟩
      rcases (runningIn_started hphy hdata).mp hrun with hold | ⟨rfl, e', he', -, rfl⟩
      · exact absurd hstarts (hrunning _ _ _ hold)
      · -- the interface that was started is the one of the list
        obtain ⟨⟨k, d⟩, hk, rfl⟩ := List.mem_map.mp he
        have hget := Table.get?_eq_some.mpr hk
        have hkn : k = n := (h.keyed _ phy k d hphy hget).symm.trans hcn
        rw [hkn, he'] at hget
        obtain rfl := Option.some.inj hget
        exact .refl _
  -- the names of a list are its keys, so none repeats
  · refine nodup_interfaces_startAll _ ?_ h.nodup hnames
    have hkeys : (phy.data.entries.map (·.2)).map (·.config.iface) = phy.data.entries.map (·.1) := by
      rw [List.map_map]
      refine List.map_congr_left fun e he => ?_
      exact h.keyed key phy e.1 e.2 hphy (Table.get?_eq_some.mpr he)
    rw [hkeys]
    exact phy.data.nodup
  · intro key' phy' n e hphy' he
    dsimp only at hphy'
    rw [Table.get?_set] at hphy'
    split_ifs at hphy' with hkey
    · rw [← Option.some.inj hphy'] at he
      dsimp only at he
      rw [hdata] at he
      obtain ⟨d, hd, rfl⟩ := Option.map_eq_some_iff.mp he
      exact h.keyed key phy n d hphy hd
    · exact h.keyed key' phy' n e hphy' he

end Phy

variable {s : State}

theorem ifaceStart_snd (phydev : Bytes) (e : Iface) (w : Wpas) :
    (ifaceStart phydev e w).2 = started e := by
  rw [ifaceStart]
  cases hrun : e.running with
  | true => rw [if_pos rfl, started, ← hrun]
  | false => rfl

theorem visit_ifaceStart (phydev : Bytes) (data : Table Bytes Iface) (w : Wpas) :
    (data.visit (fun _ e w => ifaceStart phydev e w) w).1 =
        startAll phydev (data.entries.map (·.2)) w ∧
      ∀ n, (data.visit (fun _ e w => ifaceStart phydev e w) w).2.get? n =
        (data.get? n).map started := by
  constructor
  · rw [Table.visit_fst, startAll, List.foldl_map]
  · exact Table.get?_visit (g := fun _ => started) (fun _ e w => ifaceStart_snd phydev e w) data w

/-- What a stop makes of an entry. -/
def stopped (iface : Iface) : Iface := { iface with running := false }

theorem ifaceStop_snd (e : Iface) (w : Wpas) : (ifaceStop e w).2 = stopped e := by
  rw [ifaceStop]
  cases hrun : e.running with
  | true => rfl
  | false =>
    change e = stopped e
    rw [stopped, ← hrun]

theorem visit_ifaceStop (data : Table Bytes Iface) (w : Wpas) :
    (data.visit (fun _ e w => ifaceStop e w) w).1 = stopAll (data.entries.map (·.2)) w ∧
      ∀ n, (data.visit (fun _ e w => ifaceStop e w) w).2.get? n = (data.get? n).map stopped := by
  constructor
  · rw [Table.visit_fst, stopAll, List.foldl_map]
  · exact Table.get?_visit (g := fun _ => stopped) (fun _ e w => ifaceStop_snd e w) data w

/-- A step that leaves everything but the timers alone. -/
theorem State.Ok.setTimers (h : s.Ok) (timers : List Bytes) : { s with timers := timers }.Ok :=
  ⟨⟨h.present, h.mapped, h.configured⟩, h.nodup, h.keyed⟩

theorem startPending_ok (h : s.Ok) {opens : Bool} {key : Bytes}
    (hstart : opens = true → s.Startable key) : (startPending opens key s).Ok := by
  rw [startPending]
  cases hphy : s.config.get? key with
  | none => exact h
  | some phy =>
    cases opens with
    | false => exact h
    | true =>
      have hall := visit_ifaceStart (phydevName phy) phy.data s.toWpas
      dsimp only
      rw [if_neg (by decide), hall.1]
      exact ok_of_startAll h hphy hall.2 (hstart rfl)

theorem phySetState_ok (h : s.Ok) {opens : Bool} {phy : Option Bytes} {radio : Option ℤ}
    {stop : Option Bool} (hfine : s.Fine (.phySetState opens phy radio stop)) :
    (phySetState opens phy radio stop s).Ok := by
  unfold phySetState
  cases hkey : phyName phy radio with
  | none => exact h
  | some key =>
    cases stop with
    | none => exact h
    | some stop =>
      dsimp only
      cases hphy : s.config.get? key with
      | none => exact h
      | some p =>
        cases stop with
        | false => exact startPending_ok h fun hopens => hfine key hkey rfl hopens
        | true =>
          have hall := visit_ifaceStop p.data s.toWpas
          dsimp only
          rw [if_pos rfl, hall.1]
          -- stopping a phy stops all that runs in its list
          have hstops : ∀ n e, s.RunningIn key n e → Stops (p.data.entries.map (·.2)) n :=
            fun n e he => (stops_entries h hphy).mpr ⟨e, he⟩
          refine ok_of_stopAll h (fun n => (stops_entries h hphy).mp) ?_ ?_ ?_
          · exact fun n e he hn => (hn (hstops n e he)).elim
          · -- nothing is left running
            intro n e' he' hrun
            obtain ⟨e, -, rfl⟩ := Option.map_eq_some_iff.mp ((hall.2 n).symm.trans he')
            exact absurd hrun (by simp [stopped])
          · intro n e' he'
            obtain ⟨e, he, rfl⟩ := Option.map_eq_some_iff.mp ((hall.2 n).symm.trans he')
            exact h.keyed key p n e hphy he

/-- The interfaces that `iface_cb` stops. -/
def toStop (newIf oldIf : Option Iface) : List Iface :=
  match oldIf, newIf with
  | some old, some new => if old.config.isEqual new.config then [] else [old]
  | some old, none => [old]
  | none, _ => []

theorem ifaceCb_fst (newIf oldIf : Option Iface) (w : Wpas) :
    (ifaceCb newIf oldIf w).1 = stopAll (toStop newIf oldIf) w := by
  cases oldIf with
  | none => rfl
  | some old =>
    cases newIf with
    | none => rfl
    | some new =>
      rw [ifaceCb, toStop]
      split_ifs <;> rfl

/-- What `iface_cb` makes of a new entry. -/
def carried (oldIf : Option Iface) (new : Iface) : Iface :=
  match oldIf with
  | some old => if old.config.isEqual new.config then { new with running := old.running } else new
  | none => new

theorem ifaceCb_snd (new : Iface) (oldIf : Option Iface) (w : Wpas) :
    ((ifaceCb (some new) oldIf w).2).getD new = carried oldIf new := by
  cases oldIf with
  | none => rfl
  | some old =>
    rw [ifaceCb, carried]
    split_ifs <;> rfl

theorem config_carried (oldIf : Option Iface) (new : Iface) :
    (carried oldIf new).config = new.config := by
  cases oldIf with
  | none => rfl
  | some old =>
    rw [carried]
    split_ifs <;> rfl

/-- The interfaces that an update stops. -/
def updateStops (data : Table Bytes Iface) (values : List (Bytes × Iface)) : List Iface :=
  (split data values).data.entries.map (·.2) ++
    (split data values).new.entries.flatMap fun e =>
      toStop (some e.2) ((split data values).old.get? e.1).join

theorem vlistUpdate_ifaceCb (data : Table Bytes Iface) (values : List (Bytes × Iface)) (w : Wpas) :
    (vlistUpdate ifaceCb data values w).1 = stopAll (updateStops data values) w ∧
      ∀ n, (vlistUpdate ifaceCb data values w).2.get? n =
        ((split data values).new.get? n).map (carried ((split data values).old.get? n).join) := by
  constructor
  · have hdeleted : ∀ (l : List (Bytes × Iface)) (w : Wpas),
        l.foldl (fun w e => (ifaceCb none (some e.2) w).1) w = stopAll (l.map (·.2)) w := by
      intro l w
      rw [stopAll, List.foldl_map]
      rfl
    -- the deleted entries are stopped first, then those of the new list
    rw [vlistUpdate, Table.visit_fst, hdeleted, updateStops, stopAll, stopAll, List.foldl_append,
      List.foldl_flatMap]
    simp only [ifaceCb_fst, stopAll]
  · intro n
    rw [vlistUpdate, Table.get?_visit (g := fun k v => carried ((split data values).old.get? k).join v)]
    exact fun k v w => ifaceCb_snd v _ w

/-- An update stops the running interfaces that are not given, and those that are
given once with another configuration. -/
theorem stops_updateStops {data : Table Bytes Iface} {values : List (Bytes × Iface)}
    (hkeyed : ∀ n e, data.get? n = some e → e.config.iface = n) {n : Bytes} :
    Stops (updateStops data values) n ↔ ∃ e, data.get? n = some e ∧ e.running = true ∧
      (n ∉ values.map (·.1) ∨ ((values.map (·.1)).count n = 1 ∧
        ∃ v, (split data values).new.get? n = some v ∧ e.config.isEqual v.config = false)) := by
  constructor
  · rintro ⟨e, he, hrun, rfl⟩
    rcases List.mem_append.mp he with he | he
    -- an entry without a new value
    · obtain ⟨⟨k, d⟩, hk, rfl⟩ := List.mem_map.mp he
      have hget := Table.get?_eq_some.mpr hk
      rw [get?_split_data] at hget
      split_ifs at hget with hmem
      rw [hkeyed k d hget]
      exact ⟨d, hget, hrun, Or.inl hmem⟩
    -- a value that is compared with the entry it replaces
    · obtain ⟨⟨k, v⟩, hk, hstop⟩ := List.mem_flatMap.mp he
      have hnew := Table.get?_eq_some.mpr hk
      dsimp only at hstop
      rw [get?_split_old] at hstop
      split_ifs at hstop with hcount
      · cases hold : data.get? k with
        | none => simp [hold, toStop] at hstop
        | some d =>
          rw [hold, toStop] at hstop
          split_ifs at hstop with heq
          · simp at hstop
          · obtain rfl := List.mem_singleton.mp hstop
            rw [hkeyed k e hold]
            exact ⟨e, hold, hrun, Or.inr ⟨hcount, v, hnew, by simpa using heq⟩⟩
      · simp [toStop] at hstop
  · rintro ⟨e, he, hrun, hmem | ⟨hcount, v, hnew, hne⟩⟩
    · refine ⟨e, List.mem_append_left _ (List.mem_map.mpr ⟨(n, e), ?_, rfl⟩), hrun, hkeyed n e he⟩
      rw [← Table.get?_eq_some, get?_split_data, if_neg hmem, he]
    · refine ⟨e, List.mem_append_right _ (List.mem_flatMap.mpr ⟨(n, v), ?_, ?_⟩), hrun, hkeyed n e he⟩
      · exact Table.get?_eq_some.mp hnew
      · dsimp only
        rw [get?_split_old, if_pos hcount, he, toStop, hne]
        exact List.mem_singleton_self e

theorem of_mem_configValues {readfile : UcodeValue → UcodeValue} {configList : List IfaceConfig}
    {n : Bytes} {v : Iface} (h : (n, v) ∈ configValues readfile configList) :
    v.config.iface = n ∧ v.running = false := by
  obtain ⟨c, -, hc⟩ := List.mem_map.mp h
  obtain ⟨rfl, rfl⟩ := Prod.mk.inj hc
  exact ⟨rfl, rfl⟩

/-- The list of a phy, which is empty for a phy that is not there yet. -/
def State.listOf (s : State) (key : Bytes) : Table Bytes Iface :=
  ((s.config.get? key).map (·.data)).getD ∅

theorem runningIn_iff_listOf {key n : Bytes} {e : Iface} :
    s.RunningIn key n e ↔ (s.listOf key).get? n = some e ∧ e.running = true := by
  rw [State.RunningIn, State.listOf]
  cases s.config.get? key with
  | none => simp
  | some p => simp

theorem State.Ok.keyed_listOf (h : s.Ok) {key n : Bytes} {e : Iface}
    (he : (s.listOf key).get? n = some e) : e.config.iface = n := by
  rw [State.listOf] at he
  cases hp : s.config.get? key with
  | none => simp [hp] at he
  | some p => exact h.keyed key p n e hp (by simpa [hp] using he)

/-- What `set_config` does: it stops interfaces, and carries the marks of the others
over to the new list. -/
theorem setConfig_eq (readfile : UcodeValue → UcodeValue) (key name : Bytes) (radio : Option ℤ)
    (configList : List IfaceConfig) (s : State) :
    ∃ phy : Phy,
      setConfig readfile key name radio configList s =
        State.mk (stopAll (updateStops (s.listOf key) (configValues readfile configList)) s.toWpas)
          (s.config.set key phy) s.timers ∧
      ∀ n, phy.data.get? n =
        ((split (s.listOf key) (configValues readfile configList)).new.get? n).map
          (carried (if ((configValues readfile configList).map (·.1)).count n = 1
            then (s.listOf key).get? n else none)) := by
  have hlist : ((s.config.get? key).getD ⟨name, radio.filter (0 ≤ ·), ∅⟩).data = s.listOf key := by
    rw [State.listOf]
    cases s.config.get? key <;> rfl
  obtain ⟨hstop, hdata⟩ :=
    vlistUpdate_ifaceCb (s.listOf key) (configValues readfile configList) s.toWpas
  refine ⟨⟨((s.config.get? key).getD ⟨name, radio.filter (0 ≤ ·), ∅⟩).name, radio.filter (0 ≤ ·),
    (vlistUpdate ifaceCb (s.listOf key) (configValues readfile configList) s.toWpas).2⟩, ?_, fun n => ?_⟩
  · rw [setConfig, ← hstop, ← hlist]
  · rw [← get?_split_old]
    exact hdata n

theorem setConfig_ok (h : s.Ok) {readfile : UcodeValue → UcodeValue} {key name : Bytes}
    {radio : Option ℤ} {configList : List IfaceConfig}
    (hfine : ∀ n e, s.RunningIn key n e →
      ((configValues readfile configList).map (·.1)).count n ≤ 1) :
    (setConfig readfile key name radio configList s).Ok := by
  obtain ⟨phy, heq, hdata⟩ := setConfig_eq readfile key name radio configList s
  have hvalues := @of_mem_configValues readfile configList
  rw [heq]
  generalize configValues readfile configList = values at *
  refine ok_of_stopAll h ?_ ?_ ?_ ?_
  · intro n hn
    obtain ⟨e, he, hrun, -⟩ := (stops_updateStops fun _ _ => h.keyed_listOf).mp hn
    exact ⟨e, runningIn_iff_listOf.mpr ⟨he, hrun⟩⟩
  · intro n e he hn
    obtain ⟨hget, hrun⟩ := runningIn_iff_listOf.mp he
    rw [stops_updateStops fun _ _ => h.keyed_listOf] at hn
    have hmem : n ∈ values.map (·.1) := by
      by_contra hmem
      exact hn ⟨e, hget, hrun, Or.inl hmem⟩
    -- given at all and given at most once
    have hcount : (values.map (·.1)).count n = 1 :=
      le_antisymm (hfine n e he) (List.count_pos_iff.mpr hmem)
    obtain ⟨v, hv⟩ := Option.isSome_iff_exists.mp ((get?_split_new_isSome _ values n).mpr hmem)
    have hsame : e.config.isEqual v.config = true := by
      by_contra hne
      exact hn ⟨e, hget, hrun, Or.inr ⟨hcount, v, hv, by simpa using hne⟩⟩
    refine ⟨{ v with running := e.running }, ?_, hrun⟩
    rw [hdata, hv, if_pos hcount, hget, Option.map_some, carried, if_pos hsame]
  · intro n e' he' hrun
    obtain ⟨v, hv, rfl⟩ := Option.map_eq_some_iff.mp ((hdata n).symm.trans he')
    have hoff := (hvalues (mem_of_get?_split_new hv)).2
    -- an entry is running only if it was carried over
    split_ifs at hrun ⊢ with hcount
    · cases hget : (s.listOf key).get? n with
      | none => rw [hget, carried, hoff] at hrun; exact absurd hrun (by decide)
      | some e =>
        rw [hget, carried] at hrun
        split_ifs at hrun with hsame
        · refine ⟨e, runningIn_iff_listOf.mpr ⟨hget, hrun⟩, ?_, ?_⟩
          · rw [stops_updateStops fun _ _ => h.keyed_listOf]
            rintro ⟨d, hd, -, hmem | ⟨-, v', hv', hne⟩⟩
            · exact hmem ((get?_split_new_isSome _ values n).mp (by rw [hv]; rfl))
            · obtain rfl := Option.some.inj (hget.symm.trans hd)
              obtain rfl := Option.some.inj (hv.symm.trans hv')
              exact absurd hsame (by simp [hne])
          · rw [config_carried]
            exact IfaceConfig.same_of_isEqual hsame
        · rw [hoff] at hrun
          exact absurd hrun (by decide)
    · rw [carried, hoff] at hrun
      exact absurd hrun (by decide)
  · intro n e' he'
    obtain ⟨v, hv, rfl⟩ := Option.map_eq_some_iff.mp ((hdata n).symm.trans he')
    rw [config_carried]
    exact (hvalues (mem_of_get?_split_new hv)).1

/-- A running interface that is given twice stays on without an entry. -/
theorem not_agrees_setConfig (h : s.Ok) {readfile : UcodeValue → UcodeValue} {key name : Bytes}
    {radio : Option ℤ} {configList : List IfaceConfig} {n : Bytes} {e : Iface}
    (hrun : s.RunningIn key n e)
    (hcount : 1 < ((configValues readfile configList).map (·.1)).count n) :
    ¬ (setConfig readfile key name radio configList s).Agrees := by
  obtain ⟨phy, heq, hdata⟩ := setConfig_eq readfile key name radio configList s
  have hvalues := @of_mem_configValues readfile configList
  rw [heq]
  generalize configValues readfile configList = values at *
  intro hagrees
  -- a name given twice is neither missing nor compared, so nothing stops it
  have hstays : ¬ Stops (updateStops (s.listOf key) values) n := by
    rw [stops_updateStops fun _ _ => h.keyed_listOf]
    rintro ⟨d, -, -, hmem | ⟨hone, -⟩⟩
    · exact hmem (List.count_pos_iff.mp (by omega))
    · omega
  obtain ⟨c, hc, rfl⟩ := List.mem_map.mp ((h.present n).mpr ⟨key, e, hrun⟩)
  have hthere := ((interfaces_stopAll _ h.nodup).2 c).mpr ⟨hc, hstays⟩
  -- then some list would still have to say that it runs
  obtain ⟨key', e', hrun'⟩ := (hagrees.present c.iface).mp (List.mem_map.mpr ⟨c, hthere, rfl⟩)
  rw [runningIn_set] at hrun'
  split_ifs at hrun' with hkey
  · -- the new entry was never started
    obtain ⟨v, hv, rfl⟩ := Option.map_eq_some_iff.mp ((hdata _).symm.trans hrun'.1)
    have hon := hrun'.2
    rw [if_neg (by omega), carried, (hvalues (mem_of_get?_split_new hv)).2] at hon
    exact absurd hon (by decide)
  · exact hkey (h.toAgrees.key_unique hrun' hrun)

/-- A phy that starts what it may not start claims what it does not have. -/
theorem not_agrees_startPending (h : s.Ok) {key : Bytes} (hstart : ¬ s.Startable key) :
    ¬ (startPending true key s).Agrees := by
  rw [State.Startable] at hstart
  push Not at hstart
  obtain ⟨phy, hphy, n, e, he, hoff, hclaim⟩ := hstart
  have hall := visit_ifaceStart (phydevName phy) phy.data s.toWpas
  rw [startPending, hphy]
  dsimp only
  rw [if_neg (by decide), hall.1]
  intro hagrees
  have hrun := (@runningIn_started s key phy (startAll (phydevName phy) (phy.data.entries.map (·.2)) s.toWpas)
    s.timers _ hphy hall.2 key n (started e)).mpr (Or.inr ⟨rfl, e, he, hoff, rfl⟩)
  -- the supplicant now has the interface under the name the phy opens by
  have hmapped := hagrees.mapped _ _ _ hrun
  dsimp only at hmapped
  rw [ifacePhy_startAll, if_pos ((starts_entries h hphy).mpr ⟨e, he, hoff⟩)] at hmapped
  obtain ⟨key', e', hother⟩ := hclaim (Option.some.inj hmapped)
  -- so the other claim is one of the same list, where the entry was not running
  have hkey : key' = key :=
    hagrees.key_unique ((runningIn_started hphy hall.2).mpr (Or.inl hother)) hrun
  obtain ⟨phy', hphy', he', hon⟩ := hkey ▸ hother
  obtain rfl := Option.some.inj (hphy.symm.trans hphy')
  obtain rfl := Option.some.inj (he.symm.trans he')
  exact absurd hon (by simp [hoff])

theorem agrees_setTimers {timers : List Bytes} :
    ({ s with timers := timers } : State).Agrees ↔ s.Agrees :=
  ⟨fun h => ⟨h.present, h.mapped, h.configured⟩, fun h => ⟨h.present, h.mapped, h.configured⟩⟩

theorem step_ok (h : s.Ok) {a : Call} (hfine : s.Fine a) : (step s a).Ok := by
  cases a with
  | configSet readfile phy radio config defer =>
    rw [step, configSet]
    cases hkey : phyName phy radio with
    | none => exact h
    | some key =>
      cases config with
      | none => cases defer <;> exact h.setTimers _
      | some configList =>
        have hset : (setConfig readfile key (phy.getD []) radio configList s).Ok :=
          setConfig_ok h (hfine key configList hkey rfl)
        cases defer <;> exact hset.setTimers _
  | phySetState opens phy radio stop => exact phySetState_ok h hfine
  | timer opens =>
    rw [step]
    cases htimers : s.timers with
    | nil => exact h
    | cons key timers =>
      exact startPending_ok (h.setTimers timers) fun hopens => hfine key timers htimers hopens

/-- A step that is not fine ends the agreement. -/
theorem fine_of_agrees (h : s.Ok) {a : Call} (hagrees : (step s a).Agrees) : s.Fine a := by
  cases a with
  | configSet readfile phy radio config defer =>
    rintro key configList hkey rfl n e hrun
    by_contra hcount
    refine @not_agrees_setConfig s h readfile key (phy.getD []) radio configList n e hrun
      (not_le.mp hcount) ?_
    rw [step, configSet, hkey] at hagrees
    cases defer with
    | true => exact hagrees
    | false => exact agrees_setTimers.mp hagrees
  | phySetState opens phy radio stop =>
    rintro key hkey rfl rfl
    by_contra hstart
    -- with a radio that opens, the call is a start of the phy
    have hstep : step s (.phySetState true phy radio (some false)) = startPending true key s := by
      rw [step]
      unfold phySetState
      rw [hkey]
      dsimp only
      cases hphy : s.config.get? key with
      | none => rw [startPending, hphy]
      | some p => rfl
    exact not_agrees_startPending h hstart (hstep ▸ hagrees)
  | timer opens =>
    rintro key timers htimers rfl
    by_contra hstart
    refine not_agrees_startPending (h.setTimers timers) hstart ?_
    rw [step, htimers] at hagrees
    exact hagrees

theorem State.initial_ok : State.initial.Ok := by
  have hnone : ∀ key n e, ¬ State.initial.RunningIn key n e := by
    rintro key n e ⟨phy, hphy, -⟩
    exact absurd hphy (by simp [State.initial])
  refine ⟨⟨fun n => ?_, fun key n e h => (hnone key n e h).elim, fun key n e h => (hnone key n e h).elim⟩,
    List.nodup_nil, fun key phy n e hphy => ?_⟩
  · constructor
    · exact fun h => absurd h List.not_mem_nil
    · rintro ⟨key, e, h⟩
      exact (hnone key n e h).elim
  · exact absurd hphy (by simp [State.initial])

theorem run_append_singleton (calls : List Call) (a : Call) :
    run (calls ++ [a]) = step (run calls) a := by
  rw [run, List.foldl_append]
  rfl

/-- A run of fine steps keeps everything up. -/
theorem run_ok {calls : List Call}
    (hfine : ∀ before call, before ++ [call] <+: calls → (run before).Fine call) : (run calls).Ok := by
  induction calls using List.reverseRecOn with
  | nil => exact State.initial_ok
  | append_singleton calls a ih =>
    rw [run_append_singleton]
    refine step_ok (ih fun before call hpre => ?_) (hfine calls a (List.prefix_refl _))
    exact hfine before call (hpre.trans (List.prefix_append _ _))

/-- The lists agree with the supplicant in every state of a run exactly if every step
of the run is fine. -/
theorem agrees_iff_fine (calls : List Call) :
    (∀ before, before <+: calls → (run before).Agrees) ↔
      ∀ before call, before ++ [call] <+: calls → (run before).Fine call := by
  constructor
  · intro hagrees
    -- on the length of the run: the step before last was fine, so the last one is judged
    induction calls using List.reverseRecOn with
    | nil => exact fun before call hpre => absurd hpre (by simp)
    | append_singleton calls a ih =>
      have hbefore := ih fun before hpre => hagrees before (hpre.trans (List.prefix_append _ _))
      intro before call hpre
      rcases List.prefix_concat_iff.mp hpre with heq | hpre
      · obtain ⟨rfl, hcall⟩ := List.append_inj' heq rfl
        obtain rfl := List.singleton_inj.mp hcall
        refine fine_of_agrees (run_ok hbefore) ?_
        rw [← run_append_singleton]
        exact hagrees _ (List.prefix_refl _)
      · exact hbefore before call hpre
  · intro hfine before hpre
    exact (run_ok fun b call hb => hfine b call (hb.trans hpre)).toAgrees

/-- A configuration with a file name. -/
def simpleConfig (iface config : String) : IfaceConfig :=
  ⟨ascii iface, (∅ : Table Bytes UcodeValue).set (ascii "config") (.string (ascii config))⟩

/-- A phy starts an interface, and is then given it twice. -/
def repeatedRun : List Call :=
  [.configSet (fun _ => .string []) (some (ascii "phy0")) none (some [simpleConfig "wlan0" "a"]) false,
    .timer true,
    .configSet (fun _ => .string []) (some (ascii "phy0")) none
      (some [simpleConfig "wlan0" "b", simpleConfig "wlan0" "c"]) true]

/-- The interface is there, and no list says so. -/
theorem exists_run_not_agrees : ¬ ∀ calls, (run calls).Agrees := by
  intro hall
  have hpresent := (hall repeatedRun).present (ascii "wlan0")
  have hthere : ascii "wlan0" ∈ (run repeatedRun).interfaces.map (·.iface) := by decide +kernel
  obtain ⟨key, e, phy, hphy, he, hrun⟩ := hpresent.mp hthere
  -- no entry of any list is marked
  have hlists : (run repeatedRun).config.entries.all fun p =>
      p.2.data.entries.all fun i => !i.2.running := by decide +kernel
  rw [List.all_eq_true] at hlists
  have hoff := List.all_eq_true.mp (hlists _ (Table.get?_eq_some.mp hphy)) _ (Table.get?_eq_some.mp he)
  simp [hrun] at hoff

end NeonWrt.Hostapd.Wpas
