import NeonWrt.Wireless.ConfigAttach

/-!
# What the wireless configuration is expanded to

`config_init` passes the devices, the vifs of the ifaces and the MLO interfaces that the
configuration asks for, exactly if no service brings a radio of its own, the vifs of services can be
read, no iface lists a device twice, and the ifnames that are set for MLO interfaces are no others'.
-/

namespace NeonWrt.Wireless

open NeonWrt.Lib

variable (e : WirelessEnv)

/-- A service provides a radio with a known handler. -/
def WirelessEnv.ServiceRadio (radio : Bytes) : Prop :=
  ∃ config, (radio, .object config) ∈ serviceEntries e.deviceData ∧
    (e.handlers.get? (e.ucode.text (.member config (ascii "type")))).isSome

/-- The vif of a service has the members that are read, and items where one is looked for. -/
def WirelessEnv.ServiceFine (vif : UcodeValue) : Prop :=
  (serviceInfo vif).isSome ∧ ∀ info, serviceInfo vif = some (some info) → info.mlo = true →
    ∀ device ∈ info.devs, (e.uciDevice (e.ucode.text device)).isSome →
      MacaddrFine e.ucode info.attributes info.devs device

/-- The plan of a vif of a service, if it is an MLO interface. -/
def WirelessEnv.servicePlan (vif : UcodeValue) : List MloPlan :=
  match serviceInfo vif with
  | some (some info) => if info.mlo then [planOf e.ucode info.attributes .null] else []
  | _ => []

/-- The plans of some vifs of services. -/
def WirelessEnv.servicePlans (done : List (Bytes × UcodeValue)) : List MloPlan :=
  done.flatMap fun entry => e.servicePlan entry.2

/-- The place of a vif of an iface. -/
def VifRef.stored? : VifRef → Option ℕ
  | .stored id => some id
  | .service _ => none

/-- What the loops over services leave of a device: its name, and the places of its vifs. -/
def WifiDevice.kept (dev : WifiDevice) : Bytes × List ℕ :=
  (dev.name, dev.vif.filterMap VifRef.stored?)

/-- The devices of the UCI package, with places for each. -/
def Kept (ids : Bytes → List ℕ) (devices : Table Bytes WifiDevice) : Prop :=
  ∀ name, (devices.get? name).map WifiDevice.kept = (e.uciDevice name).map fun _ => (name, ids name)

section Services

variable {e} {ids : Bytes → List ℕ} {devices : Table Bytes WifiDevice}

theorem Kept.isSome (h : Kept e ids devices) (name : Bytes) :
    (devices.get? name).isSome = (e.uciDevice name).isSome := by
  have := congrArg Option.isSome (h name)
  rwa [Option.isSome_map, Option.isSome_map] at this

theorem Kept.set (h : Kept e ids devices) {name : Bytes} {dev dev' : WifiDevice}
    (hdev : devices.get? name = some dev) (hkept : dev'.kept = dev.kept) :
    Kept e ids (devices.set name dev') := by
  intro name'
  rw [Table.get?_set, ← h name']
  split_ifs with hname
  · rw [hname, hdev, Option.map_some, Option.map_some, hkept]
  · rfl

/-- The loop over the devices of services fails at a new radio with a known handler. -/
theorem serviceDevices_cases (h : Kept e ids devices) :
    ((∀ radio, e.ServiceRadio radio → (e.uciDevice radio).isSome) ∧ ∃ devices',
      (serviceEntries e.deviceData).foldlM (serviceDeviceStep e) devices = some devices' ∧
        Kept e ids devices') ∨
    ((¬∀ radio, e.ServiceRadio radio → (e.uciDevice radio).isSome) ∧
      (serviceEntries e.deviceData).foldlM (serviceDeviceStep e) devices = none) := by
  have hloop := foldlM_cases (f := serviceDeviceStep e)
    (P := fun entry => ∀ config, entry.2 = .object config →
      (e.handlers.get? (e.ucode.text (.member config (ascii "type")))).isSome →
        (e.uciDevice entry.1).isSome) (fun _ devices => Kept e ids devices) (by
      intro done devices entry h
      obtain ⟨radio, value⟩ := entry
      rw [serviceDeviceStep]
      split
      next config hvalue =>
        subst hvalue
        cases hdev : devices.get? radio with
        | some dev =>
          have hknown : (e.uciDevice radio).isSome := by rw [← h.isSome, hdev]; rfl
          exact Or.inl ⟨fun _ _ _ => hknown, _, rfl, h.set hdev rfl⟩
        | none =>
          have hnew : ¬(e.uciDevice radio).isSome := by rw [← h.isSome, hdev]; simp
          cases hhandler : e.handlers.get? (e.ucode.text (.member config (ascii "type"))) with
          | none =>
            refine Or.inl ⟨fun config' heq hsome => ?_, devices, by simp, h⟩
            obtain rfl : config = config' := by simpa using heq
            simp [hhandler] at hsome
          | some handler =>
            exact Or.inr ⟨fun hall => hnew (hall config rfl (by simp [hhandler])), by simp⟩
      next hvalue => exact Or.inl ⟨fun config heq => absurd heq (hvalue config), devices, rfl, h⟩)
    h (serviceEntries e.deviceData)
  have hiff : (∀ entry ∈ serviceEntries e.deviceData, ∀ config, entry.2 = .object config →
      (e.handlers.get? (e.ucode.text (.member config (ascii "type")))).isSome →
        (e.uciDevice entry.1).isSome) ↔
      ∀ radio, e.ServiceRadio radio → (e.uciDevice radio).isSome := by
    constructor
    · rintro hall radio ⟨config, hmem, hhandler⟩
      exact hall _ hmem config rfl hhandler
    · rintro hall ⟨radio, value⟩ hmem config rfl hhandler
      exact hall radio ⟨config, hmem, hhandler⟩
  rwa [hiff] at hloop

/-- The loop over the devices of a vif of a service fails where an item is looked for in what has
none. -/
theorem serviceVif_cases (h : Kept e ids devices) (name : Bytes) (vif : UcodeValue)
    (info : ServiceInfo) (ifname radios : UcodeValue) :
    ((∀ device ∈ info.devs, ifname.truthy = true → (e.uciDevice (e.ucode.text device)).isSome →
        MacaddrFine e.ucode info.attributes info.devs device) ∧ ∃ devices',
      info.devs.foldlM (serviceVifStep e name vif info ifname radios) devices = some devices' ∧
        Kept e ids devices') ∨
    ((¬∀ device ∈ info.devs, ifname.truthy = true → (e.uciDevice (e.ucode.text device)).isSome →
        MacaddrFine e.ucode info.attributes info.devs device) ∧
      info.devs.foldlM (serviceVifStep e name vif info ifname radios) devices = none) := by
  refine foldlM_cases (fun _ devices => Kept e ids devices) (fun done devices device h => ?_) h _
  rw [serviceVifStep]
  cases hdev : devices.get? (e.ucode.text device) with
  | none =>
    have hnew : ¬(e.uciDevice (e.ucode.text device)).isSome := by rw [← h.isSome, hdev]; simp
    exact Or.inl ⟨fun _ hsome => absurd hsome hnew, devices, rfl, h⟩
  | some dev =>
    have hknown : (e.uciDevice (e.ucode.text device)).isSome := by rw [← h.isSome, hdev]; rfl
    by_cases hifname : ifname.truthy = true
    · obtain ⟨config, hconfig, hattr⟩ : ∃ config : Attributes,
          config = (info.attributes.set (ascii "ifname") ifname).set (ascii "radios") radios ∧
          config.attr (ascii "radio_macaddr") = info.attributes.attr (ascii "radio_macaddr") := by
        refine ⟨_, rfl, ?_⟩
        rw [attr_set, if_neg (by decide), attr_set, if_neg (by decide)]
      have hfine : MacaddrFine e.ucode config info.devs device ↔
          MacaddrFine e.ucode info.attributes info.devs device := by
        rw [MacaddrFine, MacaddrFine, hattr]
      simp only [if_pos hifname, ← hconfig]
      cases hmacaddr : mloVifMacaddr e.ucode config info.devs device with
      | some config' =>
        refine Or.inl ⟨fun _ _ => hfine.mp (mloVifMacaddr_isSome_iff.mp (by rw [hmacaddr]; rfl)), _,
          rfl, h.set hdev ?_⟩
        simp [WifiDevice.kept, VifRef.stored?]
      | none =>
        refine Or.inr ⟨fun hall => ?_, rfl⟩
        have hsome := mloVifMacaddr_isSome_iff.mpr (hfine.mpr (hall hifname hknown))
        rw [hmacaddr] at hsome
        cases hsome
    · simp only [if_neg hifname]
      refine Or.inl ⟨fun hno => absurd hno hifname, _, rfl, h.set hdev ?_⟩
      simp [WifiDevice.kept, VifRef.stored?]

/-- What holds behind some vifs of services: the devices are kept, names for MLO interfaces are
counted on, and only entries under the new names are others. -/
structure ServiceInv (e : WirelessEnv) (ids : Bytes → List ℕ) (plans : List MloPlan)
    (mloVifs : Table Bytes Attributes) (done : List (Bytes × UcodeValue)) (st : ServiceState) :
    Prop where
  devices : Kept e ids st.devices
  counts : ∀ mode, (st.vifIdx.get? mode).getD 0 = madeFor (plans ++ e.servicePlans done) mode
  table : ∀ key, key ∉ ((named (plans ++ e.servicePlans done)).drop plans.length).map Prod.fst →
    st.mloVifs.get? key = mloVifs.get? key

theorem servicePlans_concat (done : List (Bytes × UcodeValue)) (entry : Bytes × UcodeValue) :
    e.servicePlans (done ++ [entry]) = e.servicePlans done ++ e.servicePlan entry.2 := by
  rw [WirelessEnv.servicePlans, List.flatMap_append, List.flatMap_singleton,
    WirelessEnv.servicePlans]

theorem length_named (plans : List MloPlan) : (named plans).length = plans.length := by
  rw [named, List.length_mapIdx]

variable {plans : List MloPlan} {mloVifs : Table Bytes Attributes} {st : ServiceState}

/-- A pass of the loop over the vifs of services. -/
theorem ServiceInv.step {done : List (Bytes × UcodeValue)}
    (h : ServiceInv e ids plans mloVifs done st) (radioIdx : Table Bytes UcodeValue)
    (entry : Bytes × UcodeValue) :
    (e.ServiceFine entry.2 ∧ ∃ st', serviceIfaceStep e radioIdx st entry = some st' ∧
        ServiceInv e ids plans mloVifs (done ++ [entry]) st') ∨
      (¬e.ServiceFine entry.2 ∧ serviceIfaceStep e radioIdx st entry = none) := by
  rw [WirelessEnv.ServiceFine, serviceIfaceStep]
  cases hinfo : serviceInfo entry.2 with
  | none => exact Or.inr ⟨by simp, rfl⟩
  | some found =>
    cases found with
    | none =>
      have hplan : e.servicePlan entry.2 = [] := by rw [WirelessEnv.servicePlan, hinfo]
      refine Or.inl ⟨⟨rfl, by simp⟩, st, rfl, h.devices, ?_, ?_⟩
      · rw [servicePlans_concat, hplan, List.append_nil]
        exact h.counts
      · rw [servicePlans_concat, hplan, List.append_nil]
        exact h.table
    | some info =>
      have hfine : ((some (some info)).isSome = true ∧ ∀ info', some (some info) =
          some (some info') → info'.mlo = true → ∀ device ∈ info'.devs,
            (e.uciDevice (e.ucode.text device)).isSome →
              MacaddrFine e.ucode info'.attributes info'.devs device) ↔
          (info.mlo = true → ∀ device ∈ info.devs, (e.uciDevice (e.ucode.text device)).isSome →
            MacaddrFine e.ucode info.attributes info.devs device) :=
        ⟨fun hall => hall.2 info rfl, fun hall => ⟨rfl, fun _ heq =>
          Option.some.inj (Option.some.inj heq) ▸ hall⟩⟩
      rw [hfine]
      simp only [Option.bind_eq_bind, Option.bind_some]
      obtain ⟨radios, hradios⟩ : ∃ radios, radios =
        UcodeValue.array (info.devs.filterMap fun v => radioIdx.get? (e.ucode.text v)) := ⟨_, rfl⟩
      obtain ⟨radioConfig, hconfig⟩ : ∃ radioConfig, radioConfig =
        UcodeValue.array (info.devs.filterMap fun v => (st.devices.get? (e.ucode.text v)).map
          fun dev => .object dev.config.entries) := ⟨_, rfl⟩
      rw [← hradios, ← hconfig]
      cases hmlo : info.mlo with
      | false =>
        have hplan : e.servicePlan entry.2 = [] := by simp [WirelessEnv.servicePlan, hinfo, hmlo]
        obtain ⟨-, devices, hrun, hkept⟩ := (serviceVif_cases h.devices entry.1 entry.2 info .null
          radios).resolve_right fun hno => hno.1 fun _ _ hnull => by cases hnull
        refine Or.inl ⟨by simp, { st with devices }, ?_, hkept, ?_, ?_⟩
        · rw [if_neg Bool.false_ne_true, hrun]
          rfl
        · rw [servicePlans_concat, hplan, List.append_nil]
          exact h.counts
        · rw [servicePlans_concat, hplan, List.append_nil]
          exact h.table
      | true =>
        have hplan : e.servicePlan entry.2 = [planOf e.ucode info.attributes .null] := by
          simp [WirelessEnv.servicePlan, hinfo, hmlo]
        obtain ⟨created, hcreated⟩ : ∃ created, created =
          mloVifCreate e.ucode info.attributes radioConfig st.vifIdx st.mloVifs := ⟨_, rfl⟩
        obtain ⟨htruthy, hname, hcounts, hset⟩ :=
          mloVifCreate_named h.counts e.ucode info.attributes radioConfig
        rw [← hcreated] at htruthy hname hcounts hset ⊢
        simp only [if_true, forall_const]
        rcases serviceVif_cases h.devices entry.1 entry.2 info created.1 radios with
          ⟨hall, devices, hrun, hkept⟩ | ⟨hno, hrun⟩
        · refine Or.inl ⟨fun device hdevice => hall device hdevice htruthy, _, by rw [hrun]; rfl,
            hkept, ?_, ?_⟩
          · intro mode
            rw [hcounts, servicePlans_concat, hplan, ← List.append_assoc, madeFor_concat,
              madeFor_concat]
            rfl
          · intro key hkey
            rw [servicePlans_concat, hplan, ← List.append_assoc, named_concat,
              List.drop_append_of_le_length (by simp [length_named]), List.map_append,
              List.mem_append, not_or] at hkey
            have hne : key ≠ e.ucode.text created.1 := by
              rw [hname]
              exact fun heq => hkey.2 (by rw [heq]; exact List.mem_singleton_self _)
            rw [Table.get?_set_ne hne, hset, if_neg (hname ▸ hne)]
            exact h.table key hkey.1
        · exact Or.inr ⟨fun hall => hno fun device hdevice _ => hall device hdevice,
            by rw [hrun]; rfl⟩

end Services

section Names

/-- An ifname that is set for one MLO interface is that of another: one that is set too, or the next
of its mode. -/
def Clash (plans : List MloPlan) (i j : ℕ) : Prop :=
  ∃ p q, plans[i]? = some p ∧ plans[j]? = some q ∧ p.ifname = some (planName (plans.take j) q)

theorem mldName_inj {mode mode' : Bytes} {i j : ℕ} (h : mldName mode i = mldName mode' j) :
    mode = mode' ∧ i = j := by
  have hsplit : ∀ mode i, mldName mode i = (mode ++ ascii "-ml") ++ 100 :: dec i := by
    intro mode i
    rw [mldName, List.append_assoc, List.append_assoc]
    rfl
  -- no digit is the last letter of `mld`
  have hdigit : ∀ (x : Bytes) (l : Bytes) (n : ℕ), dec n ≠ x ++ 100 :: l := by
    intro x l n heq
    have hd := isdigit_of_mem_dec (n := n) (c := 100) (by rw [heq]; simp)
    exact absurd hd (by decide)
  rw [hsplit, hsplit] at h
  rcases (append_cons_eq_append_cons_iff _ _ _ _ _).mp h with ⟨hmode, hdec⟩ | ⟨x, -, hdec⟩ |
    ⟨x, -, hdec⟩
  · exact ⟨List.append_cancel_right hmode, dec_inj hdec⟩
  · exact absurd hdec (hdigit _ _ _)
  · exact absurd hdec (hdigit _ _ _)

variable {plans before after : List MloPlan} {p q : MloPlan} {i j : ℕ}

theorem madeFor_lt (hp : plans[i]? = some p) (hname : p.ifname = none) (h : i < j) :
    madeFor (plans.take i) p.mode < madeFor (plans.take j) p.mode := by
  have hnext : madeFor (plans.take (i + 1)) p.mode = madeFor (plans.take i) p.mode + 1 := by
    rw [List.take_add_one, hp, Option.toList_some, madeFor_concat]
    simp [hname]
  have hle := (List.take_sublist_take_left (l := plans) h).countP_le
    (p := fun q => q.ifname.isNone && q.mode = p.mode)
  rw [← madeFor, ← madeFor, hnext] at hle
  exact hle

theorem planName_ne (hp : plans[i]? = some p) (hq : plans[j]? = some q) (h : j ≠ i)
    (hij : ¬Clash plans i j) (hji : ¬Clash plans j i) :
    planName (plans.take j) q ≠ planName (plans.take i) p := by
  intro heq
  cases hpname : p.ifname with
  | some name =>
    rw [planName, planName, hpname, Option.getD_some] at heq
    exact hij ⟨p, q, hp, hq, by rw [hpname, planName, heq]⟩
  | none =>
    cases hqname : q.ifname with
    | some name =>
      rw [planName, planName, hqname, Option.getD_some] at heq
      exact hji ⟨q, p, hq, hp, by rw [hqname, planName, ← heq]⟩
    | none =>
      rw [planName, planName, hpname, hqname] at heq
      obtain ⟨hmode, hcount⟩ := mldName_inj heq
      rw [hmode] at hcount
      rcases Nat.lt_or_gt_of_ne h with hlt | hlt
      · have := madeFor_lt hq hqname hlt
        rw [hmode] at this
        omega
      · have := madeFor_lt hp hpname hlt
        omega

theorem getElem?_named (i : ℕ) : (named plans)[i]? =
    (plans[i]?).map fun p => (planName (plans.take i) p, p.entry) := List.getElem?_mapIdx

/-- Names are not changed by what comes later. -/
theorem named_append (before after : List MloPlan) :
    ∃ l, named (before ++ after) = named before ++ l := by
  induction after using List.reverseRecOn with
  | nil => exact ⟨[], by rw [List.append_nil, List.append_nil]⟩
  | append_singleton after plan ih =>
    obtain ⟨l, hl⟩ := ih
    exact ⟨l ++ [_], by rw [← List.append_assoc, named_concat, hl, List.append_assoc]⟩

end Names

/-- The plans of all ifaces. -/
def WirelessEnv.uciPlans : List MloPlan := e.ifacePlans (e.sections "iface")

/-- The plans of all ifaces, and those of services behind them. -/
def WirelessEnv.allPlans : List MloPlan := e.uciPlans ++ e.servicePlans e.serviceVifs

/-- What the function should pass: the devices of the package and of services under their names; the
vif of each iface on each device that it lists and that is usable, in the order of the ifaces; what
is attached to each; and an entry of its own for each MLO iface with a usable device. -/
structure Expanded (out : WirelessConfig) : Prop where
  devices : ∀ name, (out.devices.get? name).isSome ↔
    (e.uciDevice name).isSome ∨ e.ServiceRadio name
  names : ∀ name dev, out.devices.get? name = some dev → dev.name = name
  vifs : ∀ name dev, out.devices.get? name = some dev →
    (dev.vif.filterMap VifRef.stored?).map
        (fun id => (out.store[id]?).map fun vif => (vif.name, vif.device)) =
      ((e.sections "iface").filter fun s => e.usable name && (listed s).contains name).map
        fun s => some (s.1, name)
  attached : ∀ vif ∈ out.store, vif.vlan = e.attached Handler.vlan vif (e.sections "vlan") ∧
    vif.sta = e.attached Handler.station vif (e.sections "station")
  mlo : ∀ i p, i < e.uciPlans.length → (named e.allPlans)[i]? = some p →
    out.mloVifs.get? p.1 = some p.2 ∧
      ∀ j q, (named e.allPlans)[j]? = some q → j ≠ i → q.1 ≠ p.1

/-- When it does: no service brings a radio of its own, the vifs of services can be read, no iface
lists a usable device twice, and no ifname that is set for an MLO interface is that of another. -/
structure ConfigFine : Prop where
  radios : ∀ radio, e.ServiceRadio radio → (e.uciDevice radio).isSome
  services : ∀ entry ∈ e.serviceVifs, e.ServiceFine entry.2
  once : ∀ s ∈ e.sections "iface", ((listed s).filter e.usable).Nodup
  names : ∀ i j, i ≠ j → i < e.uciPlans.length ∨ j < e.uciPlans.length →
    ¬Clash e.allPlans i j

section Sound

variable {e} {name : Bytes}

theorem nodup_sections (kind : String) : ((e.sections kind).map Prod.fst).Nodup := by
  rw [WirelessEnv.sections, List.map_map]
  exact (List.filter_sublist.map _).nodup e.uci.nodup

/-- The vifs on a device, if no iface lists it twice. -/
theorem filter_ifacePairs {l : List (Bytes × Table Bytes UciOption)}
    (h : ∀ s ∈ l, ((listed s).filter e.usable).Nodup) :
    (e.ifacePairs l).filter (·.2 = name) = (l.filter fun s =>
      e.usable name && (listed s).contains name).map fun s => (s.1, name) := by
  induction l with
  | nil => rfl
  | cons s l ih =>
    have hhead : (((listed s).filter e.usable).map (Prod.mk s.1)).filter (·.2 = name) =
        ([s].filter fun s => e.usable name && (listed s).contains name).map
          fun s => (s.1, name) := by
      rw [List.filter_map, show (fun p : Bytes × Bytes => decide (p.2 = name)) ∘ Prod.mk s.1 =
        fun d => decide (d = name) from rfl, List.filter_eq,
        (h s List.mem_cons_self).count]
      by_cases hname : e.usable name = true ∧ name ∈ listed s
      · simp [hname.1, hname.2]
      · have hnot : ¬name ∈ (listed s).filter e.usable := by
          rw [List.mem_filter]
          exact fun hand => hname hand.symm
        rw [if_neg hnot, List.filter_cons_of_neg (by simpa using hname)]
        rfl
    rw [WirelessEnv.ifacePairs, List.flatMap_cons, List.filter_append, ← WirelessEnv.ifacePairs,
      ih fun s hs => h s (List.mem_cons_of_mem _ hs), hhead, ← List.map_append,
      ← List.filter_append, List.singleton_append]

/-- A device of which the places of all vifs differ from one iface to the next is in each once. -/
theorem once_of_vifs (h : ∀ name, (e.uciDevice name).isSome →
      (e.ifacePairs (e.sections "iface")).filter (·.2 = name) =
        ((e.sections "iface").filter fun s => e.usable name && (listed s).contains name).map
          fun s => (s.1, name)) :
    ∀ s ∈ e.sections "iface", ((listed s).filter e.usable).Nodup := by
  intro s hs
  refine List.nodup_iff_count_le_one.mpr fun name => ?_
  by_cases hname : (e.uciDevice name).isSome = true
  · -- the ifaces have different names
    have hnodup : ((e.ifacePairs (e.sections "iface")).filter (·.2 = name)).Nodup := by
      rw [h name hname]
      refine List.Nodup.of_map Prod.fst ?_
      rw [List.map_map]
      exact (nodup_sections "iface").sublist (List.filter_sublist.map _)
    have hsub : (((listed s).filter e.usable).map (Prod.mk s.1)).Sublist
        (e.ifacePairs (e.sections "iface")) :=
      List.sublist_flatten_of_mem (List.mem_map_of_mem hs)
    have hpiece := hnodup.sublist (hsub.filter _)
    rw [List.filter_map, show (fun p : Bytes × Bytes => decide (p.2 = name)) ∘ Prod.mk s.1 =
      fun d => decide (d = name) from rfl, List.filter_eq] at hpiece
    exact List.nodup_replicate.mp (hpiece.of_map _)
  · have hnot : name ∉ (listed s).filter e.usable := by
      rw [List.mem_filter]
      rintro ⟨-, husable⟩
      obtain ⟨d, hd, -⟩ := (Option.any_eq_true _ _).mp husable
      exact hname (by rw [hd]; rfl)
    rw [List.count_eq_zero_of_not_mem hnot]
    exact Nat.zero_le 1

variable (e) in
/-- What the loops over the UCI sections leave. -/
abbrev UciInv (st : IfaceState) : Prop :=
  IfaceInv e (e.ifacePairs (e.sections "iface")) e.uciPlans st

/-- The places of the vifs on a device. -/
def IfaceState.idsOn (st : IfaceState) (name : Bytes) : List ℕ :=
  idsWhere st.store (·.device = name)

variable (e) in
/-- What the loops over services leave behind them. -/
abbrev ServicesInv (st : IfaceState) (sv : ServiceState) : Prop :=
  ServiceInv e st.idsOn e.uciPlans st.mloVifs e.serviceVifs sv

variable {st : IfaceState} {sv : ServiceState} {i : ℕ} {p : Bytes × Attributes}

/-- Each plan of an iface has its entry, if no other plan has its name. -/
theorem entry_of_names (h : UciInv e st) (hsv : ServicesInv e st sv) (hi : i < e.uciPlans.length)
    (hp : (named e.allPlans)[i]? = some p)
    (hne : ∀ j q, (named e.allPlans)[j]? = some q → j ≠ i → q.1 ≠ p.1) :
    sv.mloVifs.get? p.1 = some p.2 := by
  obtain ⟨l, hl⟩ := named_append e.uciPlans (e.servicePlans e.serviceVifs)
  rw [WirelessEnv.allPlans, hl] at hp hne
  rw [List.getElem?_append_left (by rwa [length_named])] at hp
  rw [hsv.table, h.mlo.table]
  · cases hfind : (named e.uciPlans).reverse.find? (·.1 = p.1) with
    | none =>
      have hmem := List.mem_reverse.mpr (List.mem_of_getElem? hp)
      exact absurd (List.find?_eq_none.mp hfind p hmem) (by simp)
    | some x =>
      obtain ⟨j, hj⟩ := List.mem_iff_getElem?.mp
        (List.mem_reverse.mp (List.mem_of_find?_eq_some hfind))
      have hx : x.1 = p.1 := by simpa using List.find?_some hfind
      have hji : j = i := by
        by_contra hji
        refine hne j x ?_ hji hx
        rw [List.getElem?_append_left (List.getElem?_eq_some_iff.mp hj).1, hj]
      rw [hji, hp] at hj
      rw [Option.map_some, ← Option.some.inj hj]
  · rw [hl, List.drop_left' (length_named _), List.mem_map]
    rintro ⟨q, hq, heq⟩
    obtain ⟨k, hk⟩ := List.mem_iff_getElem?.mp hq
    refine hne (e.uciPlans.length + k) q ?_ (by omega) heq
    rw [List.getElem?_append_right (by rw [length_named]; omega), length_named,
      Nat.add_sub_cancel_left, hk]

/-- The vifs of ifaces are on devices of the package. -/
theorem known_of_uciInv (h : UciInv e st) : st.Known e := by
  intro vif hvif
  have hpair : (vif.name, vif.device) ∈ e.ifacePairs (e.sections "iface") :=
    h.pairs ▸ List.mem_map_of_mem hvif
  obtain ⟨s, -, hs⟩ := List.mem_flatMap.mp hpair
  obtain ⟨d, hd, heq⟩ := List.mem_map.mp hs
  obtain ⟨u, hu, -⟩ := (Option.any_eq_true _ _).mp (List.mem_filter.mp hd).2
  rw [← (Prod.mk.inj heq).2, hu]
  rfl

/-- A device has the name and the vifs that it had before the loops over services. -/
theorem Kept.of_get? {ids : Bytes → List ℕ} {devices : Table Bytes WifiDevice} {dev : WifiDevice}
    (h : Kept e ids devices) (hdev : devices.get? name = some dev) :
    dev.name = name ∧ dev.vif.filterMap VifRef.stored? = ids name := by
  have hname := h name
  rw [hdev] at hname
  obtain ⟨d, -, heq⟩ := Option.map_eq_some_iff.mp hname.symm
  exact ⟨(Prod.mk.inj heq).1.symm, (Prod.mk.inj heq).2.symm⟩

/-- The vifs on a device, by the names of their ifaces. -/
theorem map_idsOn (h : UciInv e st) {f : Vif → Vif}
    (hf : ∀ vif, (f vif).name = vif.name ∧ (f vif).device = vif.device) :
    (st.idsOn name).map
        (fun id => ((st.store.map f)[id]?).map fun vif => (vif.name, vif.device)) =
      ((e.ifacePairs (e.sections "iface")).filter (·.2 = name)).map some := by
  rw [← h.pairs, List.filter_map, IfaceState.idsOn]
  refine Eq.trans (List.map_congr_left fun id _ => ?_)
    (map_idsWhere fun vif => (vif.name, vif.device))
  rw [List.getElem?_map, Option.map_map]
  refine Option.map_congr fun vif _ => ?_
  rw [Function.comp_apply, (hf vif).1, (hf vif).2]

/-- What is passed is as it should be, exactly if no iface lists a usable device twice and no ifname
that is set is that of another MLO interface. -/
theorem expanded_iff (h : UciInv e st) (hsv : ServicesInv e st sv)
    (hradios : ∀ radio, e.ServiceRadio radio → (e.uciDevice radio).isSome) :
    Expanded e ⟨sv.devices, stationLoop e (deviceLoop e).handlers st
        (vlanLoop e (deviceLoop e).handlers st st.store), sv.mloVifs⟩ ↔
      (∀ s ∈ e.sections "iface", ((listed s).filter e.usable).Nodup) ∧
        ∀ i j, i ≠ j → i < e.uciPlans.length ∨ j < e.uciPlans.length →
          ¬Clash e.allPlans i j := by
  rw [h.attached (known_of_uciInv h)]
  constructor
  · intro hexp
    refine ⟨once_of_vifs fun name hname => ?_, fun i j hij hor => ?_⟩
    · obtain ⟨dev, hdev⟩ := Option.isSome_iff_exists.mp ((hexp.devices name).mpr (Or.inl hname))
      have hlist := hexp.vifs name dev hdev
      rw [(hsv.devices.of_get? hdev).2] at hlist
      refine List.map_injective_iff.mpr (Option.some_injective _)
        (((map_idsOn h ?_).symm.trans hlist).trans ?_)
      · exact fun _ => ⟨rfl, rfl⟩
      · rw [List.map_map]
        rfl
    · rintro ⟨p, q, hp, hq, hname⟩
      have hpname : planName (e.allPlans.take i) p = planName (e.allPlans.take j) q := by
        rw [planName, hname, Option.getD_some]
      have hpi : (named e.allPlans)[i]? = some (planName (e.allPlans.take i) p, p.entry) := by
        rw [getElem?_named, hp, Option.map_some]
      have hqj : (named e.allPlans)[j]? = some (planName (e.allPlans.take j) q, q.entry) := by
        rw [getElem?_named, hq, Option.map_some]
      rcases hor with hi | hj
      · exact (hexp.mlo i _ hi hpi).2 j _ hqj hij.symm hpname.symm
      · exact (hexp.mlo j _ hj hqj).2 i _ hpi hij hpname
  · rintro ⟨honce, hclash⟩
    have hnames : ∀ i p, i < e.uciPlans.length → (named e.allPlans)[i]? = some p →
        ∀ j q, (named e.allPlans)[j]? = some q → j ≠ i → q.1 ≠ p.1 := by
      intro i p hi hp j q hq hji
      rw [getElem?_named] at hp hq
      obtain ⟨p', hp', rfl⟩ := Option.map_eq_some_iff.mp hp
      obtain ⟨q', hq', rfl⟩ := Option.map_eq_some_iff.mp hq
      exact planName_ne hp' hq' hji (hclash i j hji.symm (Or.inl hi)) (hclash j i hji (Or.inr hi))
    refine ⟨fun name => ?_, fun name dev hdev => (hsv.devices.of_get? hdev).1,
      fun name dev hdev => ?_, fun vif hvif => ?_, fun i p hi hp =>
        ⟨entry_of_names h hsv hi hp (hnames i p hi hp), hnames i p hi hp⟩⟩
    · rw [hsv.devices.isSome]
      exact ⟨Or.inl, fun hor => hor.elim id (hradios name)⟩
    · rw [(hsv.devices.of_get? hdev).2]
      refine (map_idsOn h ?_).trans ?_
      · exact fun _ => ⟨rfl, rfl⟩
      · rw [filter_ifacePairs honce, List.map_map]
        rfl
    · obtain ⟨w, -, rfl⟩ := List.mem_map.mp hvif
      exact ⟨rfl, rfl⟩

/-- `config_init` reaches `update_config` with what the configuration asks for, exactly if services
bring no radio of their own and have vifs that can be read, no iface lists a usable device twice,
and no ifname that is set for an MLO interface is that of another. -/
theorem configInit_expanded_iff (e : WirelessEnv) :
    (∃ out, configInit e = some out ∧ Expanded e out) ↔ ConfigFine e := by
  obtain ⟨st, hst, hinv⟩ := ifaceLoop_inv e
  have hkept : Kept e st.idsOn st.devices := by
    intro name
    rw [hinv.devices, Option.map_map]
    refine Option.map_congr fun d _ => Prod.ext rfl ?_
    exact List.filterMap_map.trans List.filterMap_some
  rw [configInit, hst]
  rcases serviceDevices_cases hkept with ⟨hradios, devices, hdevices, hkept⟩ | ⟨hno, hnone⟩
  · have hstart : ServiceInv e st.idsOn e.uciPlans st.mloVifs []
        ⟨devices, st.vifIdx, st.mloVifs⟩ :=
      ⟨hkept, fun mode => by
        rw [WirelessEnv.servicePlans, List.flatMap_nil, List.append_nil]
        exact hinv.mlo.counts mode, fun _ _ => rfl⟩
    rcases foldlM_cases (f := serviceIfaceStep e (deviceLoop e).radioIdx)
      (P := fun entry => e.ServiceFine entry.2) (ServiceInv e st.idsOn e.uciPlans st.mloVifs)
      (fun _ _ entry h => h.step _ entry) hstart e.serviceVifs with
      ⟨hservices, sv, hrun, hsv⟩ | ⟨hno, hnone⟩
    · have hexp := expanded_iff hinv hsv hradios
      simp only [Option.bind_eq_bind, Option.bind_some, hdevices, hrun]
      constructor
      · rintro ⟨out, heq, hout⟩
        obtain rfl := Option.some.inj heq
        exact ⟨hradios, hservices, (hexp.mp hout).1, (hexp.mp hout).2⟩
      · exact fun hfine => ⟨_, rfl, hexp.mpr ⟨hfine.once, hfine.names⟩⟩
    · simp only [Option.bind_eq_bind, Option.bind_some, hdevices, hnone, Option.bind_none]
      exact ⟨fun ⟨_, hout, _⟩ => (by cases hout), fun hfine => absurd hfine.services hno⟩
  · simp only [Option.bind_eq_bind, Option.bind_some, hnone, Option.bind_none]
    exact ⟨fun ⟨_, hout, _⟩ => (by cases hout), fun hfine => absurd hfine.radios hno⟩

end Sound

/-- A string, or the name of a value that has one. -/
def textOf : UcodeValue → Bytes
  | .string s => s
  | .bool true => ascii "true"
  | .bool false => ascii "false"
  | .null => ascii "null"
  | _ => []

/-- A service provides a radio that the package does not have. -/
def serviceRadio : WirelessEnv where
  ucode := ⟨textOf, fun _ => rfl, id, fun _ _ => false, fun _ _ => none⟩
  handlers := Table.set ∅ (ascii "mac80211")
    ⟨∅, Table.set ∅ (ascii "radio_macaddr") 1, ∅, ∅, Table.get?_set_self⟩
  uci := ∅
  deviceData := .object [(ascii "svc", .object [(ascii "ins", .object [(ascii "wifi-device",
    .object [(ascii "radio0", .object [(ascii "type", .string (ascii "mac80211"))])])])])]
  ifaceData := .null

/-- There the name `name` is read, which is not declared. -/
theorem not_configInit_expanded :
    ¬∃ out, configInit serviceRadio = some out ∧ Expanded serviceRadio out := by
  have hnone : configInit serviceRadio = none := rfl
  rw [hnone]
  rintro ⟨out, hout, -⟩
  cases hout

end NeonWrt.Wireless
