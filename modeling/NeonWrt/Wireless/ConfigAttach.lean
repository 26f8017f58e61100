import NeonWrt.Wireless.ConfigIfaces

/-!
# The vlans and stations of the wireless configuration

The loops of `config_init` over the vlan and station sections give each vif of an iface what the
sections hold that list the iface, or that list none.
-/

namespace NeonWrt.Wireless

open NeonWrt.Lib

variable (e : WirelessEnv)

/-- A section is for an iface: it lists the iface, or none. -/
def attaches (s : Bytes × Table Bytes UciOption) (iface : Bytes) : Bool :=
  parseArray (s.2.get? (ascii "iface")) = [] || iface ∈ parseArray (s.2.get? (ascii "iface"))

/-- What a section holds for a vif. -/
def WirelessEnv.attachment (spec : Handler → Table Bytes ℕ) (vif : Vif)
    (s : Bytes × Table Bytes UciOption) : Bytes × Attributes :=
  (s.1, ((e.uciDevice vif.device).map fun d =>
    parseAttributeList e.ucode s.2 (spec d.1)).getD ∅)

/-- What some sections hold for a vif. -/
def WirelessEnv.attached (spec : Handler → Table Bytes ℕ) (vif : Vif)
    (l : List (Bytes × Table Bytes UciOption)) : List (Bytes × Attributes) :=
  (l.filter (attaches · vif.name)).map (e.attachment spec vif)

theorem getElem?_foldl_modify {α : Type*} (g : α → α) {ids : List ℕ} (h : ids.Nodup) (l : List α)
    (i : ℕ) : (ids.foldl (fun l id => l.modify id g) l)[i]? =
      if i ∈ ids then l[i]?.map g else l[i]? := by
  induction ids generalizing l with
  | nil => rfl
  | cons id ids ih =>
    rw [List.nodup_cons] at h
    rw [List.foldl_cons, ih h.2, List.getElem?_modify, Option.map_eq_map]
    by_cases hi : id = i
    · subst hi
      simp [h.1]
    · simp [hi, Ne.symm hi]

section Attach

variable {e} {pairs : List (Bytes × Bytes)} {plans : List MloPlan} {st : IfaceState}

/-- The places of the vifs of the ifaces that a section is for. -/
def attachIds (st : IfaceState) (s : Bytes × Table Bytes UciOption) : List ℕ :=
  st.vifs.entries.flatMap fun iface => if attaches s iface.1 then iface.2 else []

/-- The vifs of an iface are those with its name. -/
theorem IfaceInv.entry (h : IfaceInv e pairs plans st) {iface : Bytes × List ℕ}
    (hiface : iface ∈ st.vifs.entries) : iface.2 = idsWhere st.store (·.name = iface.1) := by
  rw [← h.vifs, Table.get?_eq_some.mpr hiface, Option.getD_some]

theorem IfaceInv.mem_attachIds (h : IfaceInv e pairs plans st) {s : Bytes × Table Bytes UciOption}
    {i : ℕ} : i ∈ attachIds st s ↔ ∃ vif, st.store[i]? = some vif ∧ attaches s vif.name = true := by
  rw [attachIds, List.mem_flatMap]
  constructor
  · rintro ⟨iface, hiface, hi⟩
    split_ifs at hi with hs
    · rw [h.entry hiface, mem_idsWhere] at hi
      obtain ⟨vif, hvif, hname⟩ := hi
      exact ⟨vif, hvif, (by simpa using hname : vif.name = iface.1) ▸ hs⟩
    · cases hi
  · rintro ⟨vif, hvif, hs⟩
    have hi : i ∈ (st.vifs.get? vif.name).getD [] := by
      rw [h.vifs, mem_idsWhere]
      exact ⟨vif, hvif, by simp⟩
    cases hget : st.vifs.get? vif.name with
    | none => simp [hget] at hi
    | some ids =>
      rw [hget] at hi
      exact ⟨(vif.name, ids), Table.get?_eq_some.mp hget, by rwa [if_pos hs]⟩

theorem IfaceInv.nodup_attachIds (h : IfaceInv e pairs plans st)
    (s : Bytes × Table Bytes UciOption) : (attachIds st s).Nodup := by
  refine List.nodup_flatMap.mpr ⟨fun iface hiface => ?_, ?_⟩
  · split_ifs
    · rw [h.entry hiface]
      exact List.nodup_range.filter _
    · exact List.nodup_nil
  · -- a vif has one name
    have hkeys : st.vifs.entries.Pairwise fun a b => a.1 ≠ b.1 :=
      List.pairwise_map.mp st.vifs.nodup
    refine hkeys.imp_of_mem fun {a b} ha hb hne => List.disjoint_left.mpr fun i hia hib => ?_
    have hname : ∀ iface ∈ st.vifs.entries, i ∈ (if attaches s iface.1 then iface.2 else []) →
        st.store[i]?.map (·.name) = some iface.1 := by
      intro iface hiface hi
      split_ifs at hi
      · rw [h.entry hiface, mem_idsWhere] at hi
        obtain ⟨vif, hvif, hname⟩ := hi
        rw [hvif, Option.map_some, show vif.name = iface.1 by simpa using hname]
      · cases hi
    exact hne (Option.some_injective _ ((hname a ha hia).symm.trans (hname b hb hib)))

/-- The vifs of the store are on devices of the UCI package. -/
def IfaceState.Known (e : WirelessEnv) (st : IfaceState) : Prop :=
  ∀ vif ∈ st.store, (e.uciDevice vif.device).isSome

variable {spec : Handler → Table Bytes ℕ} {base : Vif → Vif}

/-- A pass of a loop over the sections that are attached to vifs, which changes no name and no
device. -/
theorem IfaceInv.map_attachStep (h : IfaceInv e pairs plans st) (hknown : st.Known e)
    {push : Vif → Bytes × Attributes → Vif}
    (hbase : ∀ vif, (base vif).device = vif.device) (s : Bytes × Table Bytes UciOption) :
    attachStep e (deviceLoop e).handlers spec push st (st.store.map base) s =
      st.store.map fun vif =>
        if attaches s vif.name then push (base vif) (e.attachment spec vif s) else base vif := by
  obtain ⟨g, hg, hfold⟩ : ∃ g : Vif → Vif,
      (∀ vif, (e.uciDevice vif.device).isSome → g vif = push vif (e.attachment spec vif s)) ∧
      attachStep e (deviceLoop e).handlers spec push st (st.store.map base) s =
        (attachIds st s).foldl (fun store id => store.modify id g) (st.store.map base) := by
    refine ⟨fun vif => (st.devices.get? vif.device).elim vif fun _ =>
      ((deviceLoop e).handlers.get? vif.device).elim vif fun handler =>
        push vif (s.1, parseAttributeList e.ucode s.2 (spec handler)), fun vif hvif => ?_, ?_⟩
    · obtain ⟨d, hd⟩ := Option.isSome_iff_exists.mp hvif
      simp [h.devices, (get?_deviceLoop vif.device).2, hd, WirelessEnv.attachment]
    · rw [attachIds, List.foldl_flatMap, attachStep]
      refine List.foldl_ext _ _ _ fun store iface _ => ?_
      by_cases hs : attaches s iface.1 = true
      · rw [if_pos hs]
        refine (if_neg (by simpa [attaches, imp_iff_not_or] using hs)).trans ?_
        refine List.foldl_ext _ _ _ fun store id _ => congrArg (store.modify id) ?_
        funext vif
        cases st.devices.get? vif.device <;>
          cases (deviceLoop e).handlers.get? vif.device <;> rfl
      · rw [if_neg hs, if_pos (by simpa [attaches] using hs), List.foldl_nil]
  rw [hfold]
  ext1 i
  rw [getElem?_foldl_modify _ (h.nodup_attachIds s), List.getElem?_map, List.getElem?_map]
  simp only [h.mem_attachIds]
  cases hvif : st.store[i]? with
  | none => simp
  | some vif =>
    have hpush := hg (base vif) (by
      rw [hbase]
      exact hknown vif (List.mem_of_getElem? hvif))
    by_cases hs : attaches s vif.name = true
    · simp [hs, hpush, hbase, WirelessEnv.attachment]
    · simp [hs]

/-- A loop over the sections that are attached to vifs. -/
theorem IfaceInv.foldl_attachStep (h : IfaceInv e pairs plans st) (hknown : st.Known e)
    (add : Vif → List (Bytes × Attributes) → Vif) (base : Vif → Vif)
    (hdevice : ∀ vif l, (add vif l).device = vif.device)
    (happend : ∀ vif l l', add (add vif l) l' = add vif (l ++ l'))
    (hbase : ∀ vif, (base vif).device = vif.device) (l : List (Bytes × Table Bytes UciOption))
    (a : Vif → List (Bytes × Attributes)) :
    l.foldl (attachStep e (deviceLoop e).handlers spec (fun vif a => add vif [a]) st)
        (st.store.map fun vif => add (base vif) (a vif)) =
      st.store.map fun vif => add (base vif) (a vif ++ e.attached spec vif l) := by
  induction l generalizing a with
  | nil => simp [WirelessEnv.attached]
  | cons s l ih =>
    have hstep : (st.store.map fun vif => if attaches s vif.name
          then add (add (base vif) (a vif)) [e.attachment spec vif s] else add (base vif) (a vif)) =
        st.store.map fun vif => add (base vif) (a vif ++ e.attached spec vif [s]) := by
      refine List.map_congr_left fun vif _ => ?_
      by_cases hs : attaches s vif.name = true <;> simp [WirelessEnv.attached, hs, happend]
    rw [List.foldl_cons, h.map_attachStep hknown fun vif => (hdevice _ _).trans (hbase vif), hstep,
      ih]
    refine List.map_congr_left fun vif _ => ?_
    rw [List.append_assoc, WirelessEnv.attached, WirelessEnv.attached, WirelessEnv.attached,
      ← List.map_append, ← List.filter_append, List.singleton_append]

/-- What the loops over the vlans and the stations leave. -/
theorem IfaceInv.attached (h : IfaceInv e pairs plans st) (hknown : st.Known e) :
    stationLoop e (deviceLoop e).handlers st (vlanLoop e (deviceLoop e).handlers st st.store) =
      st.store.map fun vif => { vif with
        vlan := e.attached Handler.vlan vif (e.sections "vlan")
        sta := e.attached Handler.station vif (e.sections "station") } := by
  have hplain : st.store = st.store.map fun vif => { vif with vlan := [], sta := [] } := by
    refine (List.map_id'' (fun _ => rfl) _).symm.trans (List.map_congr_left fun vif hvif => ?_)
    obtain ⟨name, config, device, vlan, sta⟩ := vif
    obtain ⟨rfl, rfl⟩ : vlan = [] ∧ sta = [] := h.plain _ hvif
    rfl
  have hvlan : vlanLoop e (deviceLoop e).handlers st st.store = st.store.map fun vif =>
      { vif with vlan := e.attached Handler.vlan vif (e.sections "vlan"), sta := [] } :=
    (congrArg (vlanLoop e (deviceLoop e).handlers st) hplain).trans
      (h.foldl_attachStep hknown (fun vif l => { vif with vlan := vif.vlan ++ l })
        (fun vif => { vif with vlan := [], sta := [] }) (fun _ _ => rfl)
        (fun _ _ _ => by rw [List.append_assoc]) (fun _ => rfl) _ fun _ => [])
  rw [hvlan]
  exact h.foldl_attachStep hknown (fun vif l => { vif with sta := vif.sta ++ l })
    (fun vif => { vif with
      vlan := e.attached Handler.vlan vif (e.sections "vlan"), sta := [] }) (fun _ _ => rfl)
    (fun _ _ _ => by rw [List.append_assoc]) (fun _ => rfl) _ fun _ => []

end Attach

end NeonWrt.Wireless
