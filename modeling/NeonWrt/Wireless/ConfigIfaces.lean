import NeonWrt.Lib.Run
import NeonWrt.Wireless.ConfigInit

/-!
# The ifaces of the wireless configuration

What the loops of `config_init` over the UCI sections leave: the devices, the vifs of each with
their places in the store, and the MLO interfaces, which are made one after another.
-/

namespace NeonWrt.Wireless

open NeonWrt.Lib

section Devices

variable (e : WirelessEnv)

/-- The handler and the attributes of a device of the UCI package. -/
def WirelessEnv.uciDevice (name : Bytes) : Option (Handler × Attributes) :=
  ((e.sections "device").find? (·.1 = name)).bind fun s =>
    (e.handlerOf (optionValue s.2 (ascii "type"))).map fun handler =>
      (handler, parseAttributeList e.ucode s.2 handler.device)

/-- A device of the UCI package that has a known handler and is not disabled. -/
def WirelessEnv.usable (name : Bytes) : Bool :=
  (e.uciDevice name).any fun d => !(d.2.attr (ascii "disabled")).truthy

/-- The devices that a section lists. -/
def listed (s : Bytes × Table Bytes UciOption) : List Bytes :=
  parseArray (s.2.get? (ascii "device"))

variable {e}

/-- The loop over the devices leaves each under its name. -/
theorem get?_deviceLoop (name : Bytes) :
    (deviceLoop e).devices.get? name = (e.uciDevice name).map (fun d => ⟨name, d.2, []⟩) ∧
      (deviceLoop e).handlers.get? name = (e.uciDevice name).map Prod.fst := by
  have hnodup : ((e.sections "device").map Prod.fst).Nodup := by
    rw [WirelessEnv.sections, List.map_map]
    exact (List.filter_sublist.map _).nodup e.uci.nodup
  suffices h : ∀ (l : List (Bytes × Table Bytes UciOption)) (st : DeviceState),
      (l.map Prod.fst).Nodup →
      let found := (l.find? (·.1 = name)).bind fun s =>
        (e.handlerOf (optionValue s.2 (ascii "type"))).map fun handler =>
          (handler, parseAttributeList e.ucode s.2 handler.device)
      (l.foldl (deviceStep e) st).devices.get? name =
          (found.map fun d => ⟨name, d.2, []⟩).or (st.devices.get? name) ∧
        (l.foldl (deviceStep e) st).handlers.get? name =
          (found.map Prod.fst).or (st.handlers.get? name) by
    obtain ⟨hdevices, hhandlers⟩ := h _ ⟨∅, ∅, ∅⟩ hnodup
    rw [deviceLoop, hdevices, hhandlers]
    exact ⟨Option.or_none, Option.or_none⟩
  intro l
  induction l with
  | nil => exact fun st _ => ⟨rfl, rfl⟩
  | cons s l ih =>
    intro st hnodup
    rw [List.map_cons, List.nodup_cons] at hnodup
    rw [List.foldl_cons, List.find?_cons]
    have ih := ih (deviceStep e st s) hnodup.2
    by_cases hs : s.1 = name
    · -- no later section has the name
      have hnone : l.find? (·.1 = name) = none := by
        rw [List.find?_eq_none]
        intro s' hs' heq
        exact hnodup.1 (List.mem_map.mpr
          ⟨s', hs', (by simpa using heq : s'.1 = name).trans hs.symm⟩)
      rw [hnone] at ih
      rw [ih.1, ih.2]
      simp only [hs, decide_true, Option.bind_some, deviceStep]
      cases e.handlerOf (optionValue s.2 (ascii "type")) <;> simp
    · rw [ih.1, ih.2]
      simp only [hs, decide_false, deviceStep]
      cases e.handlerOf (optionValue s.2 (ascii "type")) <;>
        simp [Table.get?_set_ne (Ne.symm hs)]

end Devices

/-- The places of the vifs in the store that meet a condition. -/
def idsWhere (store : List Vif) (p : Vif → Bool) : List ℕ :=
  (List.range store.length).filter fun i => store[i]?.any p

section Store

variable {store : List Vif} {p : Vif → Bool} {i : ℕ}

theorem mem_idsWhere : i ∈ idsWhere store p ↔ ∃ vif, store[i]? = some vif ∧ p vif = true := by
  rw [idsWhere, List.mem_filter, List.mem_range, Option.any_eq_true]
  refine ⟨And.right, fun h => ⟨?_, h⟩⟩
  obtain ⟨vif, hvif, -⟩ := h
  exact (List.getElem?_eq_some_iff.mp hvif).1

/-- A vif behind the store gets the next place. -/
theorem idsWhere_concat (vif : Vif) : idsWhere (store ++ [vif]) p =
    idsWhere store p ++ if p vif then [store.length] else [] := by
  rw [idsWhere, List.length_append, List.length_singleton, List.range_succ, List.filter_append]
  congr 1
  · refine List.filter_congr fun i hi => ?_
    rw [List.getElem?_append_left (List.mem_range.mp hi)]
  · cases hp : p vif <;> simp [hp]

/-- The vifs at the places are those that meet the condition, in order. -/
theorem map_idsWhere {α : Type*} (f : Vif → α) :
    (idsWhere store p).map (fun i => (store[i]?).map f) =
      ((store.filter p).map f).map some := by
  induction store using List.reverseRecOn with
  | nil => rfl
  | append_singleton store vif ih =>
    have hleft : (idsWhere store p).map (fun i => ((store ++ [vif])[i]?).map f) =
        (idsWhere store p).map (fun i => (store[i]?).map f) := by
      refine List.map_congr_left fun i hi => ?_
      obtain ⟨w, hw, -⟩ := mem_idsWhere.mp hi
      rw [List.getElem?_append_left (List.getElem?_eq_some_iff.mp hw).1]
    rw [idsWhere_concat, List.map_append, hleft, ih, List.filter_append]
    cases hp : p vif <;> simp [hp]

end Store

/-- What is to be made for an MLO interface: its ifname if it has one, its mode, and its entry. -/
structure MloPlan where
  ifname : Option Bytes
  mode : Bytes
  entry : Attributes

/-- The plan for some attributes. -/
def planOf (u : Ucode) (config : Attributes) (radioConfig : UcodeValue) : MloPlan where
  ifname :=
    if (config.attr (ascii "ifname")).truthy then some (u.text (config.attr (ascii "ifname")))
    else none
  mode := u.text (config.attr (ascii "mode"))
  entry := (if (config.attr (ascii "wds")).truthy then
    config.set (ascii "4addr") (config.attr (ascii "wds")) else config).set
    (ascii "radio_config") radioConfig

/-- How many names some plans have made for a mode. -/
def madeFor (plans : List MloPlan) (mode : Bytes) : ℕ :=
  plans.countP fun p => p.ifname.isNone && p.mode = mode

/-- The name of a plan behind others: its ifname, or one with the next number of its mode. -/
def planName (before : List MloPlan) (plan : MloPlan) : Bytes :=
  plan.ifname.getD (mldName plan.mode (madeFor before plan.mode))

/-- The names and entries of some plans. -/
def named (plans : List MloPlan) : List (Bytes × Attributes) :=
  plans.mapIdx fun i plan => (planName (plans.take i) plan, plan.entry)

/-- What holds of `vif_idx` and `mlo_vifs` behind some plans: an entry is that of the last plan of
its name. -/
structure MloInv (plans : List MloPlan) (vifIdx : Table Bytes ℕ)
    (mloVifs : Table Bytes Attributes) : Prop where
  counts : ∀ mode, (vifIdx.get? mode).getD 0 = madeFor plans mode
  table : ∀ key, mloVifs.get? key = ((named plans).reverse.find? (·.1 = key)).map Prod.snd

section Mlo

variable {plans : List MloPlan} {plan : MloPlan} {vifIdx : Table Bytes ℕ}
  {mloVifs : Table Bytes Attributes}

theorem named_concat (plans : List MloPlan) (plan : MloPlan) :
    named (plans ++ [plan]) = named plans ++ [(planName plans plan, plan.entry)] := by
  rw [named, List.mapIdx_concat, List.take_left, named]
  congr 1
  refine List.ext_getElem? fun i => ?_
  rw [List.getElem?_mapIdx, List.getElem?_mapIdx]
  cases hi : plans[i]? with
  | none => rfl
  | some p =>
    rw [Option.map_some, Option.map_some,
      List.take_append_of_le_length (List.getElem?_eq_some_iff.mp hi).1.le]

theorem MloInv.concat (h : MloInv plans vifIdx mloVifs) {vifIdx' : Table Bytes ℕ}
    {mloVifs' : Table Bytes Attributes}
    (hcounts : ∀ mode, (vifIdx'.get? mode).getD 0 = madeFor (plans ++ [plan]) mode)
    (hset : ∀ key, mloVifs'.get? key =
      if key = planName plans plan then some plan.entry else mloVifs.get? key) :
    MloInv (plans ++ [plan]) vifIdx' mloVifs' := by
  refine ⟨hcounts, fun key => ?_⟩
  rw [hset, named_concat, List.reverse_append, List.reverse_singleton, List.singleton_append,
    List.find?_cons, h.table]
  by_cases hkey : planName plans plan = key
  · simp [hkey]
  · simp [hkey, Ne.symm hkey]

theorem madeFor_concat (mode : Bytes) : madeFor (plans ++ [plan]) mode =
    madeFor plans mode + if plan.ifname.isNone && plan.mode = mode then 1 else 0 := by
  rw [madeFor, List.countP_append, List.countP_singleton, madeFor]

/-- `mlo_vif_create` gives an MLO interface the name of its plan, and enters it. -/
theorem mloVifCreate_named (hcounts : ∀ mode, (vifIdx.get? mode).getD 0 = madeFor plans mode)
    (u : Ucode) (config : Attributes) (radioConfig : UcodeValue) :
    let created := mloVifCreate u config radioConfig vifIdx mloVifs
    let plan := planOf u config radioConfig
    created.1.truthy = true ∧ u.text created.1 = planName plans plan ∧
      (∀ mode, (created.2.1.get? mode).getD 0 = madeFor (plans ++ [plan]) mode) ∧
      ∀ key, created.2.2.get? key =
        if key = planName plans plan then some plan.entry else mloVifs.get? key := by
  intro created plan
  by_cases hname : (config.attr (ascii "ifname")).truthy = true
  · have hplan : plan.ifname = some (u.text (config.attr (ascii "ifname"))) := if_pos hname
    have hcreated : created = (config.attr (ascii "ifname"), vifIdx,
        mloVifs.set (u.text (config.attr (ascii "ifname"))) plan.entry) := if_pos hname
    rw [hcreated, planName, hplan]
    refine ⟨hname, rfl, fun mode => ?_, fun key => Table.get?_set⟩
    rw [madeFor_concat, hplan]
    exact hcounts mode
  · have hplan : plan.ifname = none := if_neg hname
    have hidx : (vifIdx.get? plan.mode).getD 0 = madeFor plans plan.mode := hcounts plan.mode
    have hcreated : created = (.string (mldName plan.mode ((vifIdx.get? plan.mode).getD 0)),
        vifIdx.set plan.mode ((vifIdx.get? plan.mode).getD 0 + 1),
        mloVifs.set (mldName plan.mode ((vifIdx.get? plan.mode).getD 0)) plan.entry) :=
      if_neg hname
    rw [hcreated, hidx, planName, hplan]
    refine ⟨?_, u.text_string _, fun mode => ?_, fun key => Table.get?_set⟩
    · simp [UcodeValue.truthy, mldName, dec_ne_nil]
    · rw [madeFor_concat, hplan, Table.get?_set]
      by_cases hmode : mode = plan.mode
      · simp [hmode]
      · simpa [hmode, Ne.symm hmode] using hcounts mode

end Mlo

section Attr

variable {u : Ucode} {config : Attributes} {key key' : Bytes} {v : UcodeValue}

theorem attr_set : Attributes.attr (config.set key v) key' =
    if key' = key then v else config.attr key' := by
  rw [Attributes.attr, Table.get?_set]
  split_ifs <;> rfl

theorem attr_erase_of_ne (h : key' ≠ key) :
    Attributes.attr (config.erase key) key' = config.attr key' := by
  rw [Attributes.attr, Table.get?_erase_ne h, Attributes.attr]

/-- A value with properties. -/
def Indexable : UcodeValue → Bool
  | .array _ | .object _ => true
  | _ => false

/-- `radio_macaddr` has items where one is looked for. -/
def MacaddrFine (u : Ucode) (config : Attributes) (devNames : List UcodeValue)
    (devName : UcodeValue) : Prop :=
  (config.attr (ascii "radio_macaddr")).truthy = true → (u.index devNames devName).isSome →
    Indexable (config.attr (ascii "radio_macaddr")) = true

theorem mloVifMacaddr_isSome_iff {devNames : List UcodeValue} {devName : UcodeValue} :
    (mloVifMacaddr u config devNames devName).isSome ↔ MacaddrFine u config devNames devName := by
  have hitem : ∀ idx v, (itemAt u idx v).isSome = Indexable v := by
    intro idx v
    cases v <;> rfl
  obtain ⟨config', hconfig', hattr⟩ : ∃ config' : Attributes, config' =
      (if u.same devName (devNames.headD .null) then config
        else config.erase (ascii "macaddr")) ∧
      config'.attr (ascii "radio_macaddr") = config.attr (ascii "radio_macaddr") := by
    refine ⟨_, rfl, ?_⟩
    split_ifs
    · rfl
    · exact attr_erase_of_ne (by decide)
  rw [mloVifMacaddr, ← hconfig', MacaddrFine]
  simp only [hattr]
  cases (config.attr (ascii "radio_macaddr")).truthy with
  | false => simp
  | true => cases hidx : u.index devNames devName <;> simp [hitem]

/-- The handlers list `radio_macaddr` as an array. -/
theorem macaddrFine_parse {data : Table Bytes UciOption} {handler : Handler} {config : Attributes}
    (h : config.attr (ascii "radio_macaddr") =
      (parseAttributeList u data handler.iface).attr (ascii "radio_macaddr"))
    (devNames : List UcodeValue) (devName : UcodeValue) :
    MacaddrFine u config devNames devName := by
  have hget : (parseAttributeList u data handler.iface).get? (ascii "radio_macaddr") =
      (data.get? (ascii "radio_macaddr")).map (typeParser u 1) := by
    have hstep := Table.get?_foldl_entries
      (h := fun name typeId old => ((data.get? name).map (typeParser u typeId)).or old)
      (f := fun (ret : Attributes) name typeId => (data.get? name).elim ret fun val =>
        ret.set name (typeParser u typeId val)) (fun ret name typeId l => by
        cases data.get? name with
        | none => split_ifs with hl <;> simp [hl]
        | some val => exact Table.get?_set) handler.iface ∅ (ascii "radio_macaddr")
    have hfold : parseAttributeList u data handler.iface = handler.iface.entries.foldl
        (fun ret e => (data.get? e.1).elim ret fun val => ret.set e.1 (typeParser u e.2 val)) ∅ :=
      List.foldl_ext _ _ _ fun ret e _ => by cases data.get? e.1 <;> rfl
    rw [handler.radioMacaddr] at hstep
    rw [hfold]
    exact hstep.trans Option.or_none
  intro htruthy _
  rw [h, Attributes.attr, hget] at htruthy ⊢
  cases hdata : data.get? (ascii "radio_macaddr") with
  | none =>
    rw [hdata] at htruthy
    cases htruthy
  | some val => rfl

end Attr

section Ifaces

variable (e : WirelessEnv)

/-- What is fixed for an iface. -/
def WirelessEnv.info (s : Bytes × Table Bytes UciOption) : IfaceInfo :=
  ifaceInfo (deviceLoop e).devices (deviceLoop e).radioIdx s

/-- The plan of an iface with some devices: that for the first that is usable. -/
def WirelessEnv.plans (s : Bytes × Table Bytes UciOption) (devNames : List Bytes) :
    List MloPlan :=
  if (e.info s).mlo then
    ((devNames.find? e.usable).bind e.uciDevice).toList.map fun d => planOf e.ucode
      ((parseAttributeList e.ucode s.2 d.1.iface).set (ascii "radios") (e.info s).radios)
      (e.info s).radioConfig
  else []

/-- What holds behind the loop over some ifaces: of the names and devices of the vifs, the places
that the devices and the ifaces have, and the MLO interfaces. -/
structure IfaceInv (pairs : List (Bytes × Bytes)) (plans : List MloPlan) (st : IfaceState) :
    Prop where
  pairs : st.store.map (fun vif => (vif.name, vif.device)) = pairs
  plain : ∀ vif ∈ st.store, vif.vlan = [] ∧ vif.sta = []
  devices : ∀ name, st.devices.get? name = (e.uciDevice name).map fun d =>
    ⟨name, d.2, (idsWhere st.store (·.device = name)).map .stored⟩
  vifs : ∀ name, (st.vifs.get? name).getD [] = idsWhere st.store (·.name = name)
  mlo : MloInv plans st.vifIdx st.mloVifs

variable {e} {pairs : List (Bytes × Bytes)} {plans : List MloPlan} {st : IfaceState}

theorem IfaceInv.push (h : IfaceInv e pairs plans st) (vif : Vif) {dev : WifiDevice}
    (hdev : st.devices.get? vif.device = some dev) (hvlan : vif.vlan = []) (hsta : vif.sta = []) :
    IfaceInv e (pairs ++ [(vif.name, vif.device)]) plans (st.push vif dev) where
  pairs := by rw [IfaceState.push, List.map_append, h.pairs, List.map_singleton]
  plain := by
    intro w hw
    rcases List.mem_append.mp hw with hw | hw
    · exact h.plain w hw
    · rw [List.mem_singleton.mp hw]
      exact ⟨hvlan, hsta⟩
  devices := by
    intro name
    have hold := h.devices name
    simp only [IfaceState.push, Table.get?_set, idsWhere_concat, List.map_append]
    split_ifs with hname hnew hnew
    · subst hname
      rw [hdev] at hold
      obtain ⟨d, hd, rfl⟩ := Option.map_eq_some_iff.mp hold.symm
      simp [hd]
    · simp [hname] at hnew
    · exact absurd (by simpa using hnew) (Ne.symm hname)
    · simpa using hold
  vifs := by
    intro name
    simp only [IfaceState.push, Table.get?_set, idsWhere_concat, ← h.vifs]
    by_cases hname : name = vif.name
    · simp [hname]
    · simp [hname, Ne.symm hname]
  mlo := h.mlo

theorem info_eq (h : IfaceInv e pairs plans st) (s : Bytes × Table Bytes UciOption) :
    ifaceInfo st.devices (deviceLoop e).radioIdx s = e.info s := by
  have hconfig : ∀ v, (st.devices.get? v).map (fun dev => UcodeValue.object dev.config.entries) =
      ((deviceLoop e).devices.get? v).map fun dev => .object dev.config.entries := by
    intro v
    rw [h.devices, (get?_deviceLoop v).1, Option.map_map, Option.map_map]
    rfl
  rw [WirelessEnv.info, ifaceInfo, ifaceInfo]
  simp only [hconfig]

/-- What holds behind the loop over some devices of an iface. -/
structure VifInv (e : WirelessEnv) (pairs : List (Bytes × Bytes)) (plans : List MloPlan)
    (s : Bytes × Table Bytes UciOption) (ds : List Bytes) (v : VifState) : Prop where
  inv : IfaceInv e (pairs ++ (ds.filter e.usable).map (Prod.mk s.1)) (plans ++ e.plans s ds) v.st
  created : v.mloCreated = ((e.info s).mlo && ds.any e.usable)

variable {s : Bytes × Table Bytes UciOption} {ds : List Bytes} {v : VifState} {d : Bytes}
  {dev : Handler × Attributes}

/-- The first usable device makes the entry of an MLO interface. -/
theorem VifInv.createMlo (h : VifInv e pairs plans s ds v) (hdev : e.uciDevice d = some dev)
    (husable : e.usable d = true) {v' : VifState}
    (hv' : v' = v.createMlo e (e.info s) ((parseAttributeList e.ucode s.2 dev.1.iface).set
      (ascii "radios") (e.info s).radios)) :
    v'.st.store = v.st.store ∧ v'.st.devices = v.st.devices ∧ v'.mloCreated = (e.info s).mlo ∧
      IfaceInv e (pairs ++ (ds.filter e.usable).map (Prod.mk s.1))
        (plans ++ e.plans s (ds ++ [d])) v'.st := by
  have hcreated := h.created
  have hfind : (ds ++ [d]).find? e.usable = (ds.find? e.usable).or (some d) := by
    simp [List.find?_append, husable]
  have hinv := h.inv
  rw [VifState.createMlo] at hv'
  rw [WirelessEnv.plans] at hinv ⊢
  rw [hfind]
  cases hmlo : (e.info s).mlo with
  | false =>
    simp only [hmlo, Bool.false_and, Bool.false_eq_true, if_false] at hv' hcreated hinv ⊢
    subst hv'
    exact ⟨rfl, rfl, hcreated, hinv⟩
  | true =>
    simp only [hmlo, Bool.true_and, if_true] at hv' hcreated hinv ⊢
    cases hany : ds.find? e.usable with
    | some d' =>
      have htrue : v.mloCreated = true :=
        hcreated.trans (List.any_eq_true.mpr ⟨d', List.mem_of_find?_eq_some hany,
          List.find?_some hany⟩)
      rw [htrue] at hv'
      subst hv'
      rw [hany] at hinv
      exact ⟨rfl, rfl, htrue, hinv⟩
    | none =>
      have hfalse : v.mloCreated = false := by
        rw [hcreated, List.any_eq_false]
        exact List.find?_eq_none.mp hany
      rw [hfalse] at hv'
      subst hv'
      simp only [hany, Option.bind_none, Option.toList_none, List.map_nil, List.append_nil,
        Option.none_or, Option.bind_some, hdev, Option.toList_some, List.map_cons] at hinv ⊢
      obtain ⟨-, -, hcounts, hset⟩ := mloVifCreate_named hinv.mlo.counts e.ucode
        ((parseAttributeList e.ucode s.2 dev.1.iface).set (ascii "radios") (e.info s).radios)
        (e.info s).radioConfig
      exact ⟨rfl, rfl, rfl, hinv.pairs, hinv.plain, hinv.devices, hinv.vifs,
        hinv.mlo.concat hcounts hset⟩

/-- A pass of the loop over the devices of an iface. -/
theorem VifInv.step (h : VifInv e pairs plans s ds v) (d : Bytes) : ∃ v',
    vifStep e (deviceLoop e).handlers (e.info s) v d = some v' ∧
      VifInv e pairs plans s (ds ++ [d]) v' := by
  have hdevices := h.inv.devices d
  have hhandlers := (get?_deviceLoop (e := e) d).2
  rw [vifStep, hdevices, hhandlers]
  cases husable : e.usable d with
  | false =>
    refine ⟨v, ?_, ?_, ?_⟩
    · rw [WirelessEnv.usable] at husable
      cases hdev : e.uciDevice d with
      | none => rfl
      | some dev =>
        rw [hdev, Option.any_some, Bool.not_eq_false'] at husable
        exact if_pos husable
    · have hplans : e.plans s (ds ++ [d]) = e.plans s ds := by
        simp [WirelessEnv.plans, List.find?_append, husable]
      rw [List.filter_append, hplans]
      simpa [husable] using h.inv
    · rw [h.created, List.any_append]
      simp [husable]
  | true =>
    obtain ⟨dev, hdev, hon⟩ := (Option.any_eq_true _ _).mp husable
    obtain ⟨v', hv'⟩ : ∃ v', v' = v.createMlo e (e.info s)
      ((parseAttributeList e.ucode s.2 dev.1.iface).set (ascii "radios") (e.info s).radios) :=
      ⟨_, rfl⟩
    obtain ⟨hstore, hdevs, hcreated, hinv⟩ := h.createMlo hdev husable hv'
    obtain ⟨config, hconfig, hmacaddr⟩ : ∃ config : Attributes, config =
        (if v'.ifname.truthy then ((parseAttributeList e.ucode s.2 dev.1.iface).set
          (ascii "radios") (e.info s).radios).set (ascii "ifname") v'.ifname
        else (parseAttributeList e.ucode s.2 dev.1.iface).set (ascii "radios") (e.info s).radios) ∧
        config.attr (ascii "radio_macaddr") =
          (parseAttributeList e.ucode s.2 dev.1.iface).attr (ascii "radio_macaddr") := by
      refine ⟨_, rfl, ?_⟩
      split_ifs
      · rw [attr_set, if_neg (by decide), attr_set, if_neg (by decide)]
      · rw [attr_set, if_neg (by decide)]
    obtain ⟨config', hconfig'⟩ := Option.isSome_iff_exists.mp
      (mloVifMacaddr_isSome_iff.mpr (macaddrFine_parse hmacaddr
        ((e.info s).devNames.map .string) (.string d)))
    obtain ⟨device, hdevice⟩ : ∃ device : WifiDevice,
      device = ⟨d, dev.2, (idsWhere v.st.store (·.device = d)).map .stored⟩ := ⟨_, rfl⟩
    have hget : v'.st.devices.get? d = some device := by
      rw [hdevs, hdevices, hdev, hdevice, Option.map_some]
    have hpush := hinv.push ⟨s.1, config', d, [], []⟩ hget rfl rfl
    rw [hdev, Option.map_some, ← hdevice, Option.map_some]
    refine ⟨⟨v'.st.push ⟨s.1, config', d, [], []⟩ device, v'.ifname, v'.mloCreated⟩, ?_, ?_, ?_⟩
    · refine (if_neg (by simpa [hdevice] using hon)).trans ?_
      rw [hconfig, hv'] at hconfig'
      rw [hv']
      exact Option.map_eq_some_iff.mpr ⟨config', hconfig', rfl⟩
    · rw [List.filter_append, List.map_append, ← List.append_assoc]
      simpa [husable, hv'] using hpush
    · rw [hcreated, List.any_append]
      simp [husable]

variable (e) in
/-- The names and devices of the vifs of some ifaces. -/
def WirelessEnv.ifacePairs (done : List (Bytes × Table Bytes UciOption)) : List (Bytes × Bytes) :=
  done.flatMap fun s => ((listed s).filter e.usable).map (Prod.mk s.1)

variable (e) in
/-- The plans of some ifaces. -/
def WirelessEnv.ifacePlans (done : List (Bytes × Table Bytes UciOption)) : List MloPlan :=
  done.flatMap fun s => e.plans s (listed s)

theorem ifaceLoop_inv (e : WirelessEnv) : ∃ st, ifaceLoop e = some st ∧
    IfaceInv e (e.ifacePairs (e.sections "iface")) (e.ifacePlans (e.sections "iface")) st := by
  have hstart : IfaceInv e (e.ifacePairs []) (e.ifacePlans []) ⟨[], (deviceLoop e).devices, ∅, ∅, ∅⟩ :=
    ⟨rfl, by simp, fun name => (get?_deviceLoop name).1, fun _ => rfl, fun _ => rfl, fun _ => rfl⟩
  have hloop := foldlM_cases (f := ifaceStep e (deviceLoop e)) (P := fun _ => True)
    (fun done st => IfaceInv e (e.ifacePairs done) (e.ifacePlans done) st) (by
      intro done st s hinv
      rw [ifaceStep, info_eq hinv]
      have hinner := foldlM_cases (f := vifStep e (deviceLoop e).handlers (e.info s))
        (P := fun _ => True) (VifInv e (e.ifacePairs done) (e.ifacePlans done) s)
        (fun ds v d hv => Or.inl ⟨trivial, hv.step d⟩) (s := ⟨st, .null, false⟩)
        ⟨by simpa [WirelessEnv.plans] using hinv, by simp⟩ (listed s)
      obtain ⟨-, v, hv, hvinv⟩ := hinner.resolve_right fun hno => hno.1 fun _ _ => trivial
      refine Or.inl ⟨trivial, v.st, ?_, ?_⟩
      · exact Option.map_eq_some_iff.mpr ⟨v, hv, rfl⟩
      · have hst := hvinv.inv
        rwa [WirelessEnv.ifacePairs, WirelessEnv.ifacePlans,
          ← List.flatMap_singleton (fun s => e.plans s (listed s)) s,
          ← List.flatMap_singleton (fun s => ((listed s).filter e.usable).map (Prod.mk s.1)) s,
          ← List.flatMap_append, ← List.flatMap_append] at hst)
    hstart (e.sections "iface")
  obtain ⟨-, st, hst, hinv⟩ := hloop.resolve_right fun hno => hno.1 fun _ _ => trivial
  exact ⟨st, hst, hinv⟩

end Ifaces

end NeonWrt.Wireless
