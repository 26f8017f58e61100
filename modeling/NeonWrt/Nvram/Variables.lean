import NeonWrt.Nvram.Store

/-!
# The table as a map

The chains of the hash table together are a map from names to values. Setting and
unsetting are what they are for such a map, as long as each name is in its own
chain and only once there.
-/

namespace NeonWrt.Nvram

open Lib

/-- The value of the first variable of that name. -/
def lookup (ts : List Tuple) (name : CStr) : Option CStr :=
  (ts.find? (·.name = name)).map (·.value)

@[simp] theorem lookup_nil (name : CStr) : lookup [] name = none := rfl

theorem lookup_cons (t : Tuple) (ts : List Tuple) (name : CStr) :
    lookup (t :: ts) name = if t.name = name then some t.value else lookup ts name := by
  rw [lookup, List.find?_cons]
  by_cases h : t.name = name
  · simp [h]
  · simp [h, lookup]

theorem lookup_eq_none {ts : List Tuple} {name : CStr} :
    lookup ts name = none ↔ name ∉ ts.map (·.name) := by
  simp [lookup]

/-- In a list of distinct names every variable is found under its name. -/
theorem lookup_eq_some {ts : List Tuple} (hnodup : (ts.map (·.name)).Nodup) {name value : CStr} :
    lookup ts name = some value ↔ ⟨name, value⟩ ∈ ts := by
  induction ts with
  | nil => simp
  | cons t ts ih =>
    rw [List.map_cons, List.nodup_cons] at hnodup
    rw [lookup_cons, List.mem_cons]
    -- no later variable has the name of the first one
    by_cases h : t.name = name
    · subst h
      rw [if_pos rfl, Option.some.injEq]
      constructor
      · rintro rfl
        exact Or.inl rfl
      · rintro (heq | hmem)
        · exact congrArg Tuple.value heq.symm
        · exact absurd (List.mem_map.mpr ⟨_, hmem, rfl⟩) hnodup.1
    · rw [if_neg h, ih hnodup.2]
      constructor
      · exact Or.inr
      · rintro (heq | hmem)
        · exact absurd (congrArg Tuple.name heq).symm h
        · exact hmem

theorem lookup_assign (name value : CStr) (ts : List Tuple) (m : CStr) :
    lookup (assign name value ts) m =
      if m = name then (lookup ts name).map fun _ => value else lookup ts m := by
  induction ts with
  | nil => simp [assign]
  | cons t ts ih =>
    rw [assign]
    by_cases h : t.name = name
    · rw [if_pos h, lookup_cons, lookup_cons, lookup_cons]
      by_cases hm : m = name
      · simp [h, hm]
      · simp [h, hm, Ne.symm hm]
    · rw [if_neg h, lookup_cons, ih, lookup_cons, lookup_cons]
      by_cases hm : m = name
      · simp [h, hm]
      · simp [hm]

theorem map_name_assign (name value : CStr) (ts : List Tuple) :
    (assign name value ts).map (·.name) = ts.map (·.name) := by
  induction ts with
  | nil => rfl
  | cons t ts ih =>
    rw [assign]
    split_ifs
    · rfl
    · rw [List.map_cons, List.map_cons, ih]

theorem nvramGet_eq_lookup (h : Handle) (name : CStr) :
    nvramGet h name = lookup (h.nvramHash (chainOf name)) name := rfl

/-- A value that fits is what its name reads afterwards, and nothing else changes. -/
theorem nvramGet_nvramSet (h : Handle) (name value m : CStr) :
    nvramGet (nvramSet h name value).1 m =
      if m = name ∧ value.bytes.length < h.space then some value else nvramGet h m := by
  rw [nvramSet]
  -- a value that does not fit is refused before the table is looked at
  by_cases hfit : h.space < value.bytes.length + 1
  · rw [if_pos hfit, if_neg (by omega)]
  · rw [if_neg hfit]
    have hroom : value.bytes.length < h.space := by omega
    simp only [hroom, and_true]
    split_ifs with hthere hm hm
    -- the variable is there: its value is replaced in its chain
    · subst hm
      have hsome : (lookup (h.nvramHash (chainOf m)) m).isSome = true := by
        rw [lookup, Option.isSome_map]
        exact hthere
      rw [nvramGet_eq_lookup, Handle.setChain]
      dsimp only
      rw [if_pos rfl, lookup_assign, if_pos rfl]
      obtain ⟨v, hv⟩ := Option.isSome_iff_exists.mp hsome
      rw [hv]
      rfl
    -- another name, in the same chain or not
    · rw [nvramGet_eq_lookup, Handle.setChain, nvramGet_eq_lookup]
      dsimp only
      split_ifs with hchain
      · rw [lookup_assign, if_neg hm, hchain]
      · rfl
    -- the variable is new: it is put in front of its chain
    · subst hm
      rw [nvramGet_eq_lookup, Handle.setChain]
      dsimp only
      rw [if_pos rfl, lookup_cons, if_pos rfl]
    · rw [nvramGet_eq_lookup, Handle.setChain, nvramGet_eq_lookup]
      dsimp only
      split_ifs with hchain
      · rw [lookup_cons, if_neg (Ne.symm hm), hchain]
      · rfl

/-- The return value says whether the value fits. -/
theorem nvramSet_snd (h : Handle) (name value : CStr) :
    (nvramSet h name value).2 = 0 ↔ value.bytes.length < h.space := by
  rw [nvramSet]
  by_cases hfit : h.space < value.bytes.length + 1
  · rw [if_pos hfit]
    exact ⟨fun hret => absurd (show (-12 : ℤ) = 0 from hret) (by decide), fun hroom => by omega⟩
  · rw [if_neg hfit]
    split_ifs
    · exact ⟨fun _ => by omega, fun _ => rfl⟩
    · exact ⟨fun _ => by omega, fun _ => rfl⟩

/-- Every variable is in the chain of its name, only once, and its name has no `=`. -/
structure Handle.Placed (h : Handle) : Prop where
  nodup : ∀ i, ((h.nvramHash i).map (·.name)).Nodup
  chain : ∀ i, ∀ t ∈ h.nvramHash i, chainOf t.name = i
  plain : ∀ i, ∀ t ∈ h.nvramHash i, 61 ∉ t.name.bytes

/-- A chain is replaced by one that keeps the invariant. -/
theorem Handle.Placed.setChain {h : Handle} (hp : h.Placed) {i : ℕ} {chain : List Tuple}
    (hnodup : (chain.map (·.name)).Nodup) (hchain : ∀ t ∈ chain, chainOf t.name = i)
    (hplain : ∀ t ∈ chain, 61 ∉ t.name.bytes) : (h.setChain i chain).Placed := by
  refine ⟨fun j => ?_, fun j => ?_, fun j => ?_⟩ <;> rw [Handle.setChain] <;> dsimp only
  · split_ifs
    · exact hnodup
    · exact hp.nodup j
  · split_ifs with hj
    · exact hj ▸ hchain
    · exact hp.chain j
  · split_ifs
    · exact hplain
    · exact hp.plain j

theorem Handle.Placed.nvramSet {h : Handle} (hp : h.Placed) {name : CStr} (value : CStr)
    (hname : 61 ∉ name.bytes) : (nvramSet h name value).1.Placed := by
  have hnames : ∀ t ∈ assign name value (h.nvramHash (chainOf name)),
      ∃ u ∈ h.nvramHash (chainOf name), u.name = t.name := by
    intro t ht
    have hmem := List.mem_map_of_mem (f := Tuple.name) ht
    rw [map_name_assign] at hmem
    exact List.mem_map.mp hmem
  rw [Nvram.nvramSet]
  split_ifs with hfit hthere
  · exact hp
  -- an assignment leaves the names of the chain as they are
  · refine hp.setChain ?_ (fun t ht => ?_) fun t ht => ?_
    · rw [map_name_assign]
      exact hp.nodup _
    · obtain ⟨u, hu, heq⟩ := hnames t ht
      exact heq ▸ hp.chain _ u hu
    · obtain ⟨u, hu, heq⟩ := hnames t ht
      exact heq ▸ hp.plain _ u hu
  · refine hp.setChain ?_ (fun t ht => ?_) fun t ht => ?_
    · rw [List.map_cons, List.nodup_cons]
      exact ⟨by simpa using hthere, hp.nodup _⟩
    · rcases List.mem_cons.mp ht with rfl | ht
      · rfl
      · exact hp.chain _ t ht
    · rcases List.mem_cons.mp ht with rfl | ht
      · exact hname
      · exact hp.plain _ t ht

theorem Handle.Placed.nvramUnset {h : Handle} (hp : h.Placed) (name : CStr) :
    (nvramUnset h name).Placed := by
  refine hp.setChain ?_ (fun t ht => ?_) fun t ht => ?_
  · exact (List.eraseP_sublist.map _).nodup (hp.nodup _)
  · exact hp.chain _ t (List.mem_of_mem_eraseP ht)
  · exact hp.plain _ t (List.mem_of_mem_eraseP ht)

theorem lookup_eraseP {ts : List Tuple} (hnodup : (ts.map (·.name)).Nodup) (name m : CStr) :
    lookup (ts.eraseP (·.name = name)) m = if m = name then none else lookup ts m := by
  induction ts with
  | nil => simp
  | cons t ts ih =>
    rw [List.map_cons, List.nodup_cons] at hnodup
    -- the erased variable was the only one of its name
    by_cases ht : t.name = name
    · rw [List.eraseP_cons_of_pos (by simpa using ht), lookup_cons]
      split_ifs with hm htm
      · subst hm
        exact lookup_eq_none.mpr (ht ▸ hnodup.1)
      · exact absurd (htm.symm.trans ht) hm
      · rfl
    · rw [List.eraseP_cons_of_neg (by simpa using ht), lookup_cons, ih hnodup.2, lookup_cons]
      by_cases hm : m = name
      · simp [hm, ht]
      · simp [hm]

theorem nvramGet_nvramUnset {h : Handle} (hp : h.Placed) (name m : CStr) :
    nvramGet (nvramUnset h name) m = if m = name then none else nvramGet h m := by
  rw [nvramGet_eq_lookup, nvramUnset, Handle.setChain, nvramGet_eq_lookup]
  dsimp only
  split_ifs with hchain hm hm
  · rw [lookup_eraseP (hp.nodup _), if_pos hm]
  · rw [lookup_eraseP (hp.nodup _), if_neg hm, hchain]
  -- a name is looked for in its own chain alone
  · exact absurd (congrArg chainOf hm) hchain
  · rfl

/-- An operation on an open handle. -/
inductive Op
  | set (name value : CStr)
  | unset (name : CStr)
  | get (name : CStr)

/-- The names that are set have no `=`. -/
def Op.Plain : Op → Prop
  | .set name _ => 61 ∉ name.bytes
  | _ => True

def step (h : Handle) : Op → Handle
  | .set name value => (nvramSet h name value).1
  | .unset name => nvramUnset h name
  | .get _ => h

def run (h : Handle) (ops : List Op) : Handle := ops.foldl step h

/-- The value of the last successful set that no unset follows, from a handle where the
name has a value to begin with. -/
def lastSet (name : CStr) : Handle → List Op → Option CStr → Option CStr
  | _, [], current => current
  | h, .set n v :: ops, current =>
    lastSet name (step h (.set n v)) ops
      (if n = name ∧ (nvramSet h n v).2 = 0 then some v else current)
  | h, .unset n :: ops, current =>
    lastSet name (step h (.unset n)) ops (if n = name then none else current)
  | h, .get n :: ops, current => lastSet name (step h (.get n)) ops current

theorem Handle.Placed.step {h : Handle} (hp : h.Placed) {op : Op} (hop : op.Plain) :
    (step h op).Placed := by
  cases op with
  | set name value => exact hp.nvramSet value hop
  | unset name => exact hp.nvramUnset name
  | get name => exact hp

theorem Handle.Placed.run {h : Handle} (hp : h.Placed) {ops : List Op} (hops : ∀ op ∈ ops, op.Plain) :
    (run h ops).Placed := by
  induction ops generalizing h with
  | nil => exact hp
  | cons op ops ih =>
    exact ih (hp.step (hops op List.mem_cons_self)) fun o ho => hops o (List.mem_cons_of_mem _ ho)

/-- Every name reads the value that was set last. -/
theorem nvramGet_run {h : Handle} (hp : h.Placed) {ops : List Op} (hops : ∀ op ∈ ops, op.Plain)
    (name : CStr) : nvramGet (run h ops) name = lastSet name h ops (nvramGet h name) := by
  induction ops generalizing h with
  | nil => rfl
  | cons op ops ih =>
    have hnext := hp.step (hops op List.mem_cons_self)
    have hrest := ih hnext fun o ho => hops o (List.mem_cons_of_mem _ ho)
    change nvramGet (Nvram.run (Nvram.step h op) ops) name = _
    rw [hrest]
    -- what the first operation does to the value under the name
    cases op with
    | set n v =>
      rw [lastSet, Nvram.step, nvramGet_nvramSet,
        if_congr (and_congr eq_comm (nvramSet_snd h n v).symm) rfl rfl]
    | unset n => rw [lastSet, Nvram.step, nvramGet_nvramUnset hp, if_congr eq_comm rfl rfl]
    | get n => rfl

/-- Everything but the table. -/
structure SameMapping (h h' : Handle) : Prop where
  addr : h'.addr = h.addr
  mmap : h'.mmap = h.mmap
  offset : h'.offset = h.offset
  shared : h'.shared = h.shared

theorem SameMapping.refl (h : Handle) : SameMapping h h := ⟨rfl, rfl, rfl, rfl⟩

theorem SameMapping.trans {h h' h'' : Handle} (a : SameMapping h h') (b : SameMapping h' h'') :
    SameMapping h h'' :=
  ⟨b.addr.trans a.addr, b.mmap.trans a.mmap, b.offset.trans a.offset, b.shared.trans a.shared⟩

theorem sameMapping_nvramSet (h : Handle) (name value : CStr) :
    SameMapping h (nvramSet h name value).1 := by
  rw [nvramSet]
  split_ifs <;> exact ⟨rfl, rfl, rfl, rfl⟩

theorem SameMapping.space {h h' : Handle} (hs : SameMapping h h') : h'.space = h.space := by
  rw [Handle.space, hs.mmap, hs.offset, Handle.space]

theorem sameMapping_run (h : Handle) (ops : List Op) : SameMapping h (run h ops) := by
  induction ops generalizing h with
  | nil => exact .refl h
  | cons op ops ih =>
    have hstep : SameMapping h (step h op) := by
      cases op with
      | set name value => exact sameMapping_nvramSet h name value
      | unset name => exact ⟨rfl, rfl, rfl, rfl⟩
      | get name => exact .refl h
    exact hstep.trans (ih _)

/-- Distinct variables that fit, set one after the other. -/
theorem nvramGet_foldl {ts : List Tuple} (hnodup : (ts.map (·.name)).Nodup) {h : Handle}
    (hfit : ∀ t ∈ ts, t.value.bytes.length < h.space) (m : CStr) :
    nvramGet (ts.foldl (fun h t => (nvramSet h t.name t.value).1) h) m =
      (lookup ts m).or (nvramGet h m) := by
  induction ts generalizing h with
  | nil => rfl
  | cons t ts ih =>
    rw [List.map_cons, List.nodup_cons] at hnodup
    have hroom := hfit t List.mem_cons_self
    rw [List.foldl_cons, ih hnodup.2 fun u hu => by
      rw [(sameMapping_nvramSet h t.name t.value).space]
      exact hfit u (List.mem_cons_of_mem _ hu)]
    -- the first variable is found unless a later one has its name, which none has
    rw [nvramGet_nvramSet, lookup_cons]
    by_cases hm : m = t.name
    · subst hm
      rw [if_pos ⟨rfl, hroom⟩, if_pos rfl, lookup_eq_none.mpr hnodup.1]
      rfl
    · rw [if_neg (fun h => hm h.1), if_neg (Ne.symm hm)]

theorem sameMapping_foldl (ts : List Tuple) (h : Handle) :
    SameMapping h (ts.foldl (fun h t => (nvramSet h t.name t.value).1) h) := by
  induction ts generalizing h with
  | nil => exact .refl h
  | cons t ts ih => exact (sameMapping_nvramSet h t.name t.value).trans (ih _)

theorem sameMapping_setMissing (h : Handle) (t : Tuple) : SameMapping h (setMissing h t) := by
  rw [setMissing]
  split_ifs
  · exact sameMapping_nvramSet h t.name t.value
  · exact .refl h

theorem nvramGet_setMissing (h : Handle) {t : Tuple} (hfit : t.value.bytes.length < h.space)
    (m : CStr) :
    nvramGet (setMissing h t) m = (nvramGet h m).or (if m = t.name then some t.value else none) := by
  rw [setMissing]
  -- a parameter is set only if its name has no value
  cases hget : nvramGet h t.name with
  | none =>
    rw [if_pos (show (none : Option CStr).isNone = true from rfl), nvramGet_nvramSet]
    by_cases hm : m = t.name
    · rw [if_pos ⟨hm, hfit⟩, hm, hget, if_pos rfl]
      rfl
    · rw [if_neg (fun h => hm h.1), if_neg hm, Option.or_none]
  | some v =>
    rw [if_neg (by simp)]
    by_cases hm : m = t.name
    · rw [hm, hget]
      rfl
    · rw [if_neg hm, Option.or_none]

/-- Parameters that are missing are set, whatever else is there. -/
theorem nvramGet_foldl_setMissing {ts : List Tuple} {h : Handle}
    (hfit : ∀ t ∈ ts, t.value.bytes.length < h.space) (m : CStr) :
    nvramGet (ts.foldl setMissing h) m = (nvramGet h m).or (lookup ts m) := by
  induction ts generalizing h with
  | nil => rw [List.foldl_nil, lookup_nil, Option.or_none]
  | cons t ts ih =>
    have hsame := sameMapping_setMissing h t
    rw [List.foldl_cons, ih fun u hu => by
      rw [hsame.space]
      exact hfit u (List.mem_cons_of_mem _ hu)]
    rw [nvramGet_setMissing h (hfit t List.mem_cons_self), lookup_cons, Option.or_assoc]
    by_cases hm : m = t.name
    · rw [if_pos hm, if_pos hm.symm]
      rfl
    · rw [if_neg hm, if_neg (Ne.symm hm)]
      rfl

end NeonWrt.Nvram
