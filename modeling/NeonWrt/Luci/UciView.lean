import NeonWrt.Luci.UciCells
import NeonWrt.Lib.Run

/-!
# The local view of a configuration

Without reordering and cloning, the tables of `uci.js` stand for one map from section
names and options to values. The reads of single options and of whole sections show
that map. `sections` shows it too, except for options that are to be deleted: it does
not look at deletions of options.
-/

namespace NeonWrt.Luci.UciJs

open Lib

/-- A state that was just loaded: there are no pending edits, and every section has the name it is
listed under. -/
structure Loaded (s : State) : Prop where
  creates : s.creates = ∅
  changes : s.changes = ∅
  deletes : s.deletes = ∅
  named : ∀ conf sid x, s.values.at conf sid = some x → x.name = some sid

/-- The sections of all configurations, with the values of their options. -/
abbrev Model := JsString → JsString → Option (JsString → Option Val)

/-- A map with another section in place of one. -/
def Model.update (m : Model) (conf sid : JsString) (f : Option (JsString → Option Val)) : Model :=
  fun conf' sid' => if conf' = conf ∧ sid' = sid then f else m conf' sid'

/-- What a loaded state holds. -/
def Model.ofState (s : State) : Model := fun conf sid => (s.values.at conf sid).map (·.opts.get?)

/-- Setting an option of a section that is there; null and the empty string remove it. -/
def Model.set (m : Model) (conf sid opt : JsString) (val : Option Val) : Model :=
  m.update conf sid <| (m conf sid).map fun f opt' =>
    if opt' = opt then (if val = some (.str []) then none else val) else f opt'

/-- The section name under which `add` files the new section. -/
def addName (name : Option JsString) (random : JsString) : JsString :=
  if name.getD [] = [] then random else name.getD []

/-- An edit of the map. Names of the form `@type[n]` are resolved in the state; names of options
do not start with a dot. -/
def Model.edit (s : State) (m : Model) : Edit → Model
  | .add conf _ name random => m.update conf (addName name random) (some fun _ => none)
  | .remove conf sid => m.update conf sid none
  | .set conf sid opt val =>
    match resolveSID s conf sid with
    | none => m
    | some sid => if opt.head? = some 46 then m else m.set conf sid opt val
  | _ => m

/-- The calls of the four functions, without two cases: a section is added under the name of one
that is there, and the empty string is set in a section that was just created. -/
def PlainEdit (s : State) : Edit → Prop
  | .add conf type name random =>
    Drawn s (.add conf type name random) ∧
      (s.values.at conf (addName name random) = none ∨
        s.deletes.at conf (addName name random) = some .all)
  | .remove _ _ => True
  | .set conf sid _ val =>
    val = some (.str []) → ∀ name, resolveSID s conf sid = some name → s.creates.at conf name = none
  | _ => False

/-- The option of a loaded section with the tables laid over it. -/
def shownOption (x : Sec) (c : Cell) (opt : JsString) : Option Val :=
  (changed c.changes opt).or (if deleting c.deletes opt then none else x.opts.get? opt)

/-- How the tables hold one section of the map: it was created, it is a loaded section with edits,
or it is not there. -/
inductive Kept (c : Cell) (sid : JsString) (f : Option (JsString → Option Val)) : Prop
  | created (x : Sec) (hcreated : c.created = some x) (hname : x.name = some sid)
      (hchanges : c.changes = none) (hfree : c.base = none ∨ c.deletes = some .all)
      (hf : f = some x.opts.get?)
  | base (x : Sec) (hcreated : c.created = none) (hbase : c.base = some x)
      (hname : x.name = some sid) (hdeletes : c.deletes ≠ some .all)
      (hdisjoint : ∀ opt, changed c.changes opt ≠ none → deleting c.deletes opt = false)
      (hf : f = some (shownOption x c))
  | absent (hcreated : c.created = none) (hchanges : c.changes = none)
      (hfree : c.base = none ∨ c.deletes = some .all) (hf : f = none)

/-- The tables stand for the map. -/
def Stands (s : State) (m : Model) : Prop :=
  ∀ conf sid, Kept (s.cell conf sid) sid (m conf sid)

theorem Loaded.stands {s : State} (h : Loaded s) : Stands s (Model.ofState s) := by
  intro conf sid
  have hcreated : (s.cell conf sid).created = none := by
    change s.creates.at conf sid = none
    rw [h.creates]
    rfl
  have hchanges : (s.cell conf sid).changes = none := by
    change s.changes.at conf sid = none
    rw [h.changes]
    rfl
  have hdeletes : (s.cell conf sid).deletes = none := by
    change s.deletes.at conf sid = none
    rw [h.deletes]
    rfl
  unfold Model.ofState
  cases hbase : s.values.at conf sid with
  | none => exact .absent hcreated hchanges (Or.inl hbase) rfl
  | some x =>
    refine .base x hcreated hbase (h.named conf sid x hbase) ?_ ?_ ?_
    · rw [hdeletes]
      simp
    · rw [hchanges, hdeletes]
      simp [deleting]
    · -- nothing is laid over the loaded options
      rw [Option.map_some]
      congr 1
      ext1 opt
      rw [shownOption, hchanges, hdeletes]
      rfl

section Edits

variable {c : Cell} {sid opt : JsString} {f : Option (JsString → Option Val)}

/-- Where no loaded section shows, there are no pending changes. -/
theorem Kept.changes_eq_none (h : Kept c sid f) (hfree : c.base = none ∨ c.deletes = some .all) :
    c.changes = none := by
  cases h with
  | created x hcreated hname hchanges _ hf => exact hchanges
  | absent hcreated hchanges _ hf => exact hchanges
  | base x hcreated hbase hname hdeletes hdisjoint hf =>
    rcases hfree with hnone | hall
    · rw [hbase] at hnone
      exact absurd hnone (by simp)
    · exact absurd hall hdeletes

theorem Kept.removed (h : Kept c sid f) : Kept c.removed sid none := by
  unfold Cell.removed
  cases h with
  | created x hcreated hname hchanges hfree hf =>
    -- what the created section covered stays covered by the deletion mark
    rw [if_pos (by rw [hcreated]; rfl)]
    exact .absent rfl hchanges hfree rfl
  | base x hcreated hbase hname hdeletes hdisjoint hf =>
    rw [if_neg (by rw [hcreated]; simp), if_pos (by rw [hbase]; rfl)]
    exact .absent hcreated rfl (Or.inr rfl) rfl
  | absent hcreated hchanges hfree hf =>
    rw [if_neg (by rw [hcreated]; simp)]
    split_ifs
    · exact .absent hcreated rfl (Or.inr rfl) rfl
    · exact .absent hcreated hchanges hfree rfl

theorem Kept.withValue (h : Kept c sid f) (hcreated : c.created = none) (v : Val) :
    Kept (c.withValue opt v) sid
      (f.map fun g opt' => if opt' = opt then some v else g opt') := by
  cases h with
  | created x hx hname hchanges hfree hf =>
    rw [hcreated] at hx
    exact absurd hx (by simp)
  | absent _ hchanges hfree hf =>
    -- a section that is not there takes no value
    have hsame : c.withValue opt v = c := by
      unfold Cell.withValue
      rcases hfree with hnone | hall
      · rw [hnone, Option.isNone_none, if_pos rfl, ite_self]
      · rw [hall]
        rfl
    rw [hsame, hf]
    exact .absent hcreated hchanges hfree rfl
  | base x _ hbase hname hdeletes hdisjoint hf =>
    have hall : ¬ markedAll c.deletes = true := fun h => hdeletes (markedAll_eq_true_iff.mp h)
    have hsome : ¬ c.base.isNone = true := by
      rw [hbase]
      simp
    unfold Cell.withValue
    rw [if_neg hall, if_neg hsome]
    refine .base x hcreated hbase hname withoutMark_ne_all ?_ ?_
    · intro opt' hchanged
      rw [deleting_withoutMark hdeletes]
      by_cases hopt : opt' = opt
      · simp [hopt]
      · rw [changed_set, if_neg hopt] at hchanged
        simp [hdisjoint opt' hchanged]
    · rw [hf, Option.map_some]
      congr 1
      ext1 opt'
      simp only [shownOption, changed_set, deleting_withoutMark hdeletes]
      by_cases hopt : opt' = opt
      · simp [hopt]
      · simp [hopt]

/-- An option is removed from a loaded section. -/
theorem Kept.withoutOption (h : Kept c sid f) (hcreated : c.created = none) :
    Kept (c.withoutOption opt) sid (f.map fun g opt' => if opt' = opt then none else g opt') := by
  cases h with
  | created x hx hname hchanges hfree hf =>
    rw [hcreated] at hx
    exact absurd hx (by simp)
  | absent _ hchanges hfree hf =>
    have hkept : withoutChange c.changes opt = none := by
      rw [hchanges]
      rfl
    rw [hf]
    refine .absent hcreated hkept ?_ rfl
    refine hfree.imp id fun hall => ?_
    change (if _ then c.deletes else withMark c.deletes opt) = _
    rw [hall]
    exact ite_self _
  | base x _ hbase hname hdeletes hdisjoint hf =>
    have hmarks : (c.withoutOption opt).deletes =
        if (x.opts.get? opt).isNone then c.deletes else withMark c.deletes opt := by
      simp only [Cell.withoutOption, hbase, Option.bind_some]
    have hdeleting : ∀ opt', opt' ≠ opt →
        deleting (c.withoutOption opt).deletes opt' = deleting c.deletes opt' := by
      intro opt' hopt
      rw [hmarks]
      split_ifs
      · rfl
      · rw [deleting_withMark hdeletes]
        simp [hopt]
    have hchanged : ∀ opt', changed (c.withoutOption opt).changes opt' =
        if opt' = opt then none else changed c.changes opt' := fun _ => changed_withoutChange
    refine .base x hcreated hbase hname ?_ ?_ ?_
    · rw [hmarks]
      split_ifs
      · exact hdeletes
      · exact withMark_ne_all hdeletes
    · intro opt' h
      rw [hchanged] at h
      obtain ⟨hopt, hold⟩ : opt' ≠ opt ∧ changed c.changes opt' ≠ none := by
        by_cases hopt : opt' = opt
        · simp [hopt] at h
        · exact ⟨hopt, by simpa [hopt] using h⟩
      rw [hdeleting opt' hopt]
      exact hdisjoint opt' hold
    · rw [hf, Option.map_some]
      congr 1
      ext1 opt'
      simp only [shownOption, hchanged]
      by_cases hopt : opt' = opt
      · -- either the loaded section does not have the option, or it is marked now
        subst hopt
        rw [if_pos rfl, if_pos rfl, Option.none_or, hmarks]
        cases hget : x.opts.get? opt' with
        | none => simp
        | some v => simp [deleting_withMark hdeletes]
      · rw [if_neg hopt, if_neg hopt, hdeleting opt' hopt]

/-- What `set` does to a section, unless it sets the empty string in a created one. -/
theorem Kept.assigned (h : Kept c sid f) {val : Option Val}
    (hempty : val = some (.str []) → c.created = none) :
    Kept (c.assigned opt val) sid (f.map fun g opt' =>
      if opt' = opt then (if val = some (.str []) then none else val) else g opt') := by
  unfold Cell.assigned
  cases hcreated : c.created with
  | none =>
    cases val with
    | none => exact h.withoutOption hcreated
    | some v =>
      by_cases hv : v = .str []
      · simp only [hv, if_true]
        exact h.withoutOption hcreated
      · simp only [hv, Option.some.injEq, if_false]
        exact h.withValue hcreated v
  | some y =>
    have hval : ¬ val = some (.str []) := fun hval => by simp [hempty hval] at hcreated
    simp only [if_neg hval]
    cases h with
    | base x hnone _ _ _ _ _ =>
      rw [hcreated] at hnone
      exact absurd hnone (by simp)
    | absent hnone _ _ _ =>
      rw [hcreated] at hnone
      exact absurd hnone (by simp)
    | created x hx hname hchanges hfree hf =>
      obtain rfl : y = x := Option.some.inj (hcreated.symm.trans hx)
      refine .created (y.assign opt val) rfl hname hchanges hfree ?_
      rw [hf, Option.map_some]
      congr 1
      ext1 opt'
      cases val with
      | none => exact (JsObject.get?_del ..).symm
      | some v => exact (JsObject.get?_set ..).symm

end Edits

section Runs

variable {s : State} {m : Model}

theorem Stands.add (h : Stands s m) {conf type random : JsString} {name : Option JsString}
    (hfree : s.values.at conf (addName name random) = none ∨
      s.deletes.at conf (addName name random) = some .all) :
    Stands (add s conf type name random)
      (m.update conf (addName name random) (some fun _ => none)) := by
  intro conf' sid'
  rw [cell_add, Model.update]
  change Kept (if conf' = conf ∧ sid' = addName name random then _ else _) _ _
  by_cases hat : conf' = conf ∧ sid' = addName name random
  · rw [if_pos hat, if_pos hat, hat.2]
    exact .created _ rfl rfl ((h conf _).changes_eq_none hfree) hfree rfl
  · rw [if_neg hat, if_neg hat]
    exact h conf' sid'

theorem Stands.remove (h : Stands s m) (conf sid : JsString) :
    Stands (remove s conf sid) (m.update conf sid none) := by
  intro conf' sid'
  rw [cell_remove, Model.update]
  by_cases hat : conf' = conf ∧ sid' = sid
  · rw [if_pos hat, if_pos hat, hat.2]
    exact (h conf sid).removed
  · rw [if_neg hat, if_neg hat]
    exact h conf' sid'

theorem Stands.set (h : Stands s m) {conf name opt : JsString} {sid : Option JsString}
    {val : Option Val} (hsid : resolveSID s conf sid = some name) (hopt : opt.head? ≠ some 46)
    (hempty : val = some (.str []) → s.creates.at conf name = none) :
    Stands (set s conf sid opt val) (m.set conf name opt val) := by
  intro conf' sid'
  rw [cell_set hsid hopt, Model.set, Model.update]
  by_cases hat : conf' = conf ∧ sid' = name
  · rw [if_pos hat, if_pos hat, hat.2]
    exact (h conf name).assigned hempty
  · rw [if_neg hat, if_neg hat]
    exact h conf' sid'

theorem Stands.edit (h : Stands s m) {e : Edit} (hplain : PlainEdit s e) :
    Stands (edit s e) (m.edit s e) := by
  cases e with
  | add conf type name random => exact h.add hplain.2
  | remove conf sid => exact h.remove conf sid
  | clone conf type srcsid putNext name random => exact hplain.elim
  | move conf sid1 sid2 after => exact hplain.elim
  | set conf sid opt val =>
    unfold Model.edit UciJs.edit
    cases hsid : resolveSID s conf sid with
    | none =>
      -- `set` returns at once
      simpa [UciJs.set, hsid] using h
    | some name =>
      by_cases hopt : opt.head? = some 46
      · simpa [UciJs.set, hsid, hopt] using h
      · simp only [hsid, if_neg hopt]
        exact h.set hsid hopt fun hval => hplain hval name hsid

/-- Runs of plain edits, beside the map. -/
def Runs : State × Model → Prop :=
  Reaches (fun p => Loaded p.1 ∧ p.2 = Model.ofState p.1)
    (fun p e q => q = (edit p.1 e, p.2.edit p.1 e)) fun p e => PlainEdit p.1 e

theorem Runs.stands {p : State × Model} (h : Runs p) : Stands p.1 p.2 :=
  Reaches.invariant (P := fun q => Stands q.1 q.2)
    (fun q hq => by
      rw [hq.2]
      exact hq.1.stands)
    (fun q e q' hq hplain hstep => by
      rw [hstep]
      exact hq.edit hplain) h

end Runs

section Reads

variable {s : State} {m : Model} {conf sid opt : JsString}

/-- Options, unlike the other properties, do not start with a dot. -/
theorem Sec.prop_of_undotted {x : Sec} (hopt : opt.head? ≠ some 46) :
    x.prop opt = x.opts.get? opt := by
  have htype : opt ≠ units ".type" := by
    rintro rfl
    exact hopt rfl
  have hname : opt ≠ units ".name" := by
    rintro rfl
    exact hopt rfl
  rw [Sec.prop, if_neg htype, if_neg hname]

/-- Merging a section's edits into it leaves what the tables show. -/
theorem get?_merge {x : Sec} (hdisjoint : ∀ opt, changed (s.changes.at conf sid) opt ≠ none →
    deleting (s.deletes.at conf sid) opt = false) :
    (merge s conf sid x).opts.get? opt = shownOption x (s.cell conf sid) opt := by
  change ((s.cell conf sid).merge x).opts.get? opt = _
  rw [Cell.get?_merge, shownOption]
  split_ifs with hmark
  · -- an option that is marked has no change pending
    have hunchanged : changed (s.cell conf sid).changes opt = none := by
      by_contra hne
      exact absurd (hdisjoint opt hne) (by rw [← State.cell_deletes, hmark]; simp)
    rw [hunchanged, Option.none_or]
  · rfl

theorem Stands.get (h : Stands s m) (hopt : opt.head? ≠ some 46) (sid : Option JsString) :
    get s conf sid opt =
      (resolveSID s conf sid).bind fun name => (m conf name).bind fun f => f opt := by
  unfold UciJs.get
  cases hsid : resolveSID s conf sid with
  | none => rfl
  | some name =>
    simp only [Option.bind_some]
    cases h conf name with
    | created x hcreated hname hchanges hfree hf =>
      rw [State.cell_created] at hcreated
      simp only [hcreated, hf, Option.bind_some]
      exact Sec.prop_of_undotted hopt
    | absent hcreated hchanges hfree hf =>
      rw [State.cell_created] at hcreated
      rw [State.cell_changes] at hchanges
      rw [State.cell_base, State.cell_deletes] at hfree
      simp only [hcreated, hchanges, hf, Option.bind_none]
      rcases hfree with hnone | hall
      · rw [hnone, Option.bind_none, ite_self]
      · rw [hall]
        rfl
    | base x hcreated hbase hname hdeletes hdisjoint hf =>
      rw [State.cell_created] at hcreated
      rw [State.cell_base] at hbase
      rw [State.cell_deletes] at hdeletes
      simp only [hcreated, hbase, hf, Option.bind_some, Sec.prop_of_undotted hopt]
      change _ = (changed (s.changes.at conf name) opt).or
        (if deleting (s.deletes.at conf name) opt then none else x.opts.get? opt)
      change ∀ opt, changed (s.changes.at conf name) opt ≠ none →
        deleting (s.deletes.at conf name) opt = false at hdisjoint
      rcases hd : s.deletes.at conf name with - | - | d
      · unfold changed
        cases (s.changes.at conf name).bind (·.get? opt) <;> rfl
      · exact absurd hd hdeletes
      · by_cases hmark : (d.get? opt).isSome = true
        · -- an option that is marked has no change pending
          have hunchanged : changed (s.changes.at conf name) opt = none := by
            by_contra hne
            have hfalse := hdisjoint opt hne
            rw [hd, deleting, hmark] at hfalse
            exact absurd hfalse (by simp)
          rw [hunchanged, Option.none_or, deleting, if_pos hmark, if_pos hmark]
        · unfold changed
          simp only [deleting, hmark]
          cases (s.changes.at conf name).bind (·.get? opt) <;> rfl

/-- The object that `get` hands out for a whole section. -/
theorem getSection_snd {sid : Option JsString} {name : JsString}
    (hsid : resolveSID s conf sid = some name) : (getSection s conf sid).2 =
      (s.creates.at conf name).or
        (if markedAll (s.deletes.at conf name) then none
          else (s.values.at conf name).map (merge s conf name)) := by
  unfold getSection lookup
  simp only [hsid]
  cases hcreated : s.creates.at conf name with
  | some x => exact hcreated
  | none =>
    rw [if_neg (by simp), Option.none_or]
    split_ifs with hall
    · rfl
    · cases hbase : s.values.at conf name with
      | none => rfl
      | some x =>
        have hput := @Table.at_put _ s.values conf conf name name (merge s conf name x)
          (Table.isSome_get?_of_at hbase)
        rw [if_pos ⟨rfl, rfl⟩] at hput
        exact hput

/-- `get` of a section finds the sections of the map. -/
theorem Stands.isSome_getSection (h : Stands s m) (sid : Option JsString) :
    (getSection s conf sid).2.isSome = ((resolveSID s conf sid).bind (m conf)).isSome := by
  cases hsid : resolveSID s conf sid with
  | none =>
    rw [getSection, hsid]
    rfl
  | some name =>
    rw [getSection_snd hsid, Option.bind_some]
    cases h conf name with
    | created x hcreated hname hchanges hfree hf =>
      rw [State.cell_created] at hcreated
      rw [hcreated, hf]
      rfl
    | absent hcreated hchanges hfree hf =>
      rw [State.cell_created] at hcreated
      rw [State.cell_base, State.cell_deletes] at hfree
      rw [hcreated, hf]
      rcases hfree with hnone | hall
      · rw [hnone, Option.map_none, ite_self]
        rfl
      · rw [hall]
        rfl
    | base x hcreated hbase hname hdeletes hdisjoint hf =>
      rw [State.cell_created] at hcreated
      rw [State.cell_base] at hbase
      rw [State.cell_deletes] at hdeletes
      rw [hcreated, hf, hbase, if_neg (mt markedAll_eq_true_iff.mp hdeletes)]
      rfl

theorem Stands.getSection (h : Stands s m) (hopt : opt.head? ≠ some 46) (sid : Option JsString) :
    (getSection s conf sid).2.bind (·.prop opt) =
      (resolveSID s conf sid).bind fun name => (m conf name).bind fun f => f opt := by
  cases hsid : resolveSID s conf sid with
  | none =>
    rw [UciJs.getSection, hsid]
    rfl
  | some name =>
    rw [getSection_snd hsid, Option.bind_some]
    cases h conf name with
    | created x hcreated hname hchanges hfree hf =>
      rw [State.cell_created] at hcreated
      rw [hcreated, hf]
      exact Sec.prop_of_undotted hopt
    | absent hcreated hchanges hfree hf =>
      rw [State.cell_created] at hcreated
      rw [State.cell_base, State.cell_deletes] at hfree
      rw [hcreated, hf]
      rcases hfree with hnone | hall
      · rw [hnone, Option.map_none, ite_self]
        rfl
      · rw [hall]
        rfl
    | base x hcreated hbase hname hdeletes hdisjoint hf =>
      rw [State.cell_created] at hcreated
      rw [State.cell_base] at hbase
      rw [State.cell_deletes] at hdeletes
      rw [hcreated, hf, hbase, if_neg (mt markedAll_eq_true_iff.mp hdeletes)]
      change (merge s conf name x).prop opt = shownOption x (s.cell conf name) opt
      rw [Sec.prop_of_undotted hopt, get?_merge hdisjoint]

end Reads

section Lists

variable {s : State} {m : Model} {conf sid opt : JsString} {v : JsObject Sec} {y : Sec}

/-- Apart from the order and the numbers, `sections` lists what it gathered. -/
theorem map_sections_perm {β : Type} {f : Sec → β} (hf : ∀ x i, f { x with index := i } = f x)
    (hv : s.values.get? conf = some v) :
    ((sections s conf none).map f).Perm ((shown s conf v).map f) := by
  have hfilter : (shown s conf v).filter (fun x => (none : Option JsString).all
      fun t => t = [] || t = x.type) = shown s conf v := by
    rw [List.filter_eq_self]
    intros
    rfl
  unfold sections
  simp only [hv, hfilter, sortByIndex]
  have hnumbers : ∀ l : List Sec,
      (l.mapIdx fun i x => { x with index := i }).map f = l.map f := by
    intro l
    refine List.ext_getElem (by simp) fun i _ _ => ?_
    simp [hf]
  rw [hnumbers]
  exact sortOn_perm.map f

/-- A listed section is a created one or a loaded one with its pending changes. -/
theorem mem_shown_iff (hv : s.values.get? conf = some v) : y ∈ shown s conf v ↔
    (∃ sid x, s.values.at conf sid = some x ∧ s.deletes.at conf sid ≠ some .all ∧
      y = overlay x (s.changes.at conf sid)) ∨
    ∃ sid, s.creates.at conf sid = some y := by
  unfold shown
  rw [List.mem_append]
  refine or_congr ?_ ?_
  · have hbase : ∀ sid x, s.values.at conf sid = some x ↔ (sid, x) ∈ v.entries := by
      intro sid x
      rw [Table.at, hv, Option.bind_some, JsObject.get?_eq_some_iff]
    simp only [List.mem_map, List.mem_filter, hbase, Prod.exists, Bool.not_eq_true',
      ← Bool.not_eq_true, markedAll_eq_true_iff]
    constructor
    · rintro ⟨sid, x, ⟨hx, hd⟩, rfl⟩
      exact ⟨sid, x, hx, hd, rfl⟩
    · rintro ⟨sid, x, hx, hd, rfl⟩
      exact ⟨sid, x, ⟨hx, hd⟩, rfl⟩
  · unfold Table.at
    cases s.creates.get? conf with
    | none => simp
    | some n => simp [JsObject.get?_eq_some_iff]

/-- Under plain edits, what is listed is a created section or a loaded one that is not deleted, each
under its own name. -/
theorem Stands.shown_cases (h : Stands s m) (hv : s.values.get? conf = some v)
    (hy : y ∈ shown s conf v) : ∃ sid, y.name = some sid ∧
      ((s.creates.at conf sid = some y ∧ m conf sid = some y.opts.get?) ∨
        ∃ x, s.values.at conf sid = some x ∧ y = overlay x (s.changes.at conf sid) ∧
          (∀ opt, changed (s.changes.at conf sid) opt ≠ none →
            deleting (s.deletes.at conf sid) opt = false) ∧
          m conf sid = some (shownOption x (s.cell conf sid))) := by
  rcases (mem_shown_iff hv).mp hy with ⟨sid, x, hx, hd, rfl⟩ | ⟨sid, hn⟩
  · refine ⟨sid, ?_⟩
    cases h conf sid with
    | created z hcreated hname hchanges hfree hf =>
      simp [hx, hd] at hfree
    | absent hcreated hchanges hfree hf =>
      simp [hx, hd] at hfree
    | base z hcreated hbase hname hdeletes hdisjoint hf =>
      obtain rfl : x = z := Option.some.inj (hx.symm.trans hbase)
      exact ⟨hname, Or.inr ⟨x, hx, rfl, hdisjoint, hf⟩⟩
  · refine ⟨sid, ?_⟩
    cases h conf sid with
    | created z hcreated hname hchanges hfree hf =>
      obtain rfl : y = z := Option.some.inj (hn.symm.trans hcreated)
      exact ⟨hname, Or.inl ⟨hn, hf⟩⟩
    | absent hcreated hchanges hfree hf =>
      simp [hn] at hcreated
    | base z hcreated hbase hname hdeletes hdisjoint hf =>
      simp [hn] at hcreated

/-- The list has exactly the sections of the map. -/
theorem Stands.exists_shown_iff (h : Stands s m) (hv : s.values.get? conf = some v) :
    (∃ y ∈ shown s conf v, y.name = some sid) ↔ (m conf sid).isSome := by
  constructor
  · rintro ⟨y, hy, hname⟩
    obtain ⟨sid', hname', hcases⟩ := h.shown_cases hv hy
    obtain rfl : sid = sid' := Option.some.inj (hname.symm.trans hname')
    rcases hcases with ⟨-, hm⟩ | ⟨x, -, -, -, hm⟩
    · rw [hm]
      rfl
    · rw [hm]
      rfl
  · intro hsome
    cases h conf sid with
    | created x hcreated hname hchanges hfree hf =>
      exact ⟨x, (mem_shown_iff hv).mpr (Or.inr ⟨sid, hcreated⟩), hname⟩
    | absent hcreated hchanges hfree hf =>
      rw [hf] at hsome
      exact absurd hsome (by simp)
    | base x hcreated hbase hname hdeletes hdisjoint hf =>
      exact ⟨_, (mem_shown_iff hv).mpr (Or.inl ⟨sid, x, hbase, hdeletes, rfl⟩), hname⟩

/-- No two listed sections have the same name. -/
theorem Stands.nodup_shown (h : Stands s m) (hv : s.values.get? conf = some v) :
    ((shown s conf v).map (·.name)).Nodup := by
  -- the names are the keys of the two tables
  have hbase : ∀ e ∈ v.entries.filter fun e => !markedAll (s.deletes.at conf e.1),
      e.2.name = some e.1 ∧ s.creates.at conf e.1 = none := by
    intro e he
    obtain ⟨hmem, hmark⟩ := List.mem_filter.mp he
    have hx : s.values.at conf e.1 = some e.2 := by
      rw [Table.at, hv, Option.bind_some, JsObject.get?_eq_some_iff]
      exact hmem
    have hd : s.deletes.at conf e.1 ≠ some .all := by
      intro hall
      rw [markedAll_eq_true_iff.mpr hall] at hmark
      exact absurd hmark (by simp)
    cases h conf e.1 with
    | created z hcreated hname hchanges hfree hf => simp [hx, hd] at hfree
    | absent hcreated hchanges hfree hf => simp [hx, hd] at hfree
    | base z hcreated hz hname hdeletes hdisjoint hf =>
      obtain rfl : e.2 = z := Option.some.inj (hx.symm.trans hz)
      exact ⟨hname, hcreated⟩
  have hcreated : ∀ e ∈ (s.creates.get? conf).elim [] (·.entries),
      e.2.name = some e.1 ∧ s.creates.at conf e.1 = some e.2 := by
    intro e he
    have hn : s.creates.at conf e.1 = some e.2 := by
      unfold Table.at
      cases hc : s.creates.get? conf with
      | none => simp [hc] at he
      | some n =>
        rw [hc] at he
        exact JsObject.get?_eq_some_iff.mpr he
    cases h conf e.1 with
    | created z hz hname hchanges hfree hf =>
      obtain rfl : e.2 = z := Option.some.inj (hn.symm.trans hz)
      exact ⟨hname, hn⟩
    | absent hz hchanges hfree hf => simp [hn] at hz
    | base z hz hbase hname hdeletes hdisjoint hf => simp [hn] at hz
  unfold shown
  rw [List.map_append, List.map_map, List.map_map, List.nodup_append]
  have hkeys : ∀ l : List (JsString × Sec), (l.map (·.1)).Nodup →
      (l.map fun e => some e.1).Nodup := by
    intro l hl
    have hinj := List.Pairwise.map (S := (· ≠ ·)) some
      (fun _ _ => (Option.some_injective JsString).ne) hl
    rwa [List.map_map] at hinj
  refine ⟨?_, ?_, ?_⟩
  · change (List.map (fun e : JsString × Sec => e.2.name) _).Nodup
    rw [List.map_congr_left fun e he => (hbase e he).1]
    exact hkeys _ (v.nodup.sublist (List.filter_sublist.map _))
  · change (List.map (fun e : JsString × Sec => e.2.name) _).Nodup
    rw [List.map_congr_left fun e he => (hcreated e he).1]
    refine hkeys _ ?_
    cases s.creates.get? conf with
    | none => exact List.nodup_nil
    | some n => exact n.nodup
  · intro a ha b hb hab
    obtain ⟨e, he, rfl⟩ := List.mem_map.mp ha
    obtain ⟨e', he', rfl⟩ := List.mem_map.mp hb
    have hsame : e.1 = e'.1 := Option.some.inj
      ((hbase e he).1.symm.trans (hab.trans (hcreated e' he').1))
    have hnone := (hbase e he).2
    rw [hsame, (hcreated e' he').2] at hnone
    exact absurd hnone (by simp)

end Lists

/-- All reads of a configuration show the map: `get` of options and of sections, and the list of
sections, which has each section once. -/
structure OneView (s : State) (m : Model) (conf : JsString) : Prop where
  option : ∀ sid opt, opt.head? ≠ some 46 → get s conf sid opt =
    (resolveSID s conf sid).bind fun name => (m conf name).bind fun f => f opt
  found : ∀ sid, (getSection s conf sid).2.isSome = ((resolveSID s conf sid).bind (m conf)).isSome
  object : ∀ sid opt, opt.head? ≠ some 46 → (getSection s conf sid).2.bind (·.prop opt) =
    (resolveSID s conf sid).bind fun name => (m conf name).bind fun f => f opt
  listed : ∀ sid, (∃ y ∈ sections s conf none, y.name = some sid) ↔ (m conf sid).isSome
  once : ((sections s conf none).map (·.name)).Nodup
  shown : ∀ y ∈ sections s conf none, ∃ sid, y.name = some sid ∧
    ∀ opt, opt.head? ≠ some 46 → y.prop opt = (m conf sid).bind fun f => f opt

/-- No option that a loaded section has is marked for deletion. -/
def NoneDeleting (s : State) (conf : JsString) : Prop :=
  ∀ sid x opt, opt.head? ≠ some 46 → s.values.at conf sid = some x →
    deleting (s.deletes.at conf sid) opt = true → x.opts.get? opt = none

/-- `sections` overlooks deletions of options, and nothing else goes wrong. -/
theorem Stands.oneView_iff {s : State} {m : Model} {conf : JsString} (h : Stands s m)
    (hconf : (s.values.get? conf).isSome) : OneView s m conf ↔ NoneDeleting s conf := by
  obtain ⟨v, hv⟩ := Option.isSome_iff_exists.mp hconf
  constructor
  · intro hview sid x opt hopt hx hmark
    cases h conf sid with
    | created z hcreated hname hchanges hfree hf =>
      rcases hfree with hnone | hall
      · simp [hx] at hnone
      · rw [State.cell_deletes] at hall
        simp [hall, deleting] at hmark
    | absent hcreated hchanges hfree hf =>
      rcases hfree with hnone | hall
      · simp [hx] at hnone
      · rw [State.cell_deletes] at hall
        simp [hall, deleting] at hmark
    | base z hcreated hbase hname hdeletes hdisjoint hf =>
      rw [State.cell_base, hx] at hbase
      obtain rfl := Option.some.inj hbase
      -- the section is listed, with the option of the loaded section
      have hlisted : overlay x (s.changes.at conf sid) ∈ UciJs.shown s conf v :=
        (mem_shown_iff hv).mpr (Or.inl ⟨sid, x, hx, hdeletes, rfl⟩)
      have hperm := map_sections_perm (s := s)
        (f := fun y => (y.name, y.prop opt)) (fun _ _ => rfl) hv
      obtain ⟨y, hy, hsame⟩ := List.mem_map.mp
        (hperm.mem_iff.mpr (List.mem_map.mpr ⟨_, hlisted, rfl⟩))
      obtain ⟨hyname, hyprop⟩ := Prod.mk.inj hsame
      obtain ⟨sid', hsid', hprop⟩ := hview.shown y hy
      obtain rfl : sid = sid' := Option.some.inj (hname.symm.trans (hyname.symm.trans hsid'))
      -- while the map does not have it
      have hunchanged : changed (s.changes.at conf sid) opt = none := by
        by_contra hne
        exact absurd (hdisjoint opt hne) (by rw [State.cell_deletes, hmark]; simp)
      have hmap := hprop opt hopt
      rw [hyprop, Sec.prop_of_undotted hopt, get?_overlay, hf, hunchanged, Option.none_or,
        Option.bind_some, shownOption, State.cell_changes, State.cell_deletes, hunchanged,
        if_pos hmark, Option.none_or] at hmap
      exact hmap
  · intro hnone
    have hnames := map_sections_perm (s := s) (f := fun y => y.name)
      (fun _ _ => rfl) hv
    refine
      { option := fun sid opt hopt => h.get hopt sid
        found := h.isSome_getSection
        object := fun sid opt hopt => h.getSection hopt sid
        listed := fun sid => ?_
        once := hnames.nodup_iff.mpr (h.nodup_shown hv)
        shown := fun y hy => ?_ }
    · rw [← h.exists_shown_iff hv]
      simpa only [List.mem_map] using hnames.mem_iff (a := some sid)
    · -- the options of each listed section, one by one
      have hmem : ∀ opt, ∃ z ∈ UciJs.shown s conf v, z.name = y.name ∧ z.prop opt = y.prop opt := by
        intro opt
        have hperm := map_sections_perm (s := s)
          (f := fun y => (y.name, y.prop opt)) (fun _ _ => rfl) hv
        obtain ⟨z, hz, hsame⟩ := List.mem_map.mp
          (hperm.mem_iff.mp (List.mem_map.mpr ⟨y, hy, rfl⟩))
        exact ⟨z, hz, Prod.mk.inj hsame⟩
      obtain ⟨z, hz, hzname, -⟩ := hmem []
      obtain ⟨sid, hsid, -⟩ := h.shown_cases hv hz
      refine ⟨sid, hzname.symm.trans hsid, fun opt hopt => ?_⟩
      obtain ⟨z, hz, hzname', hzprop⟩ := hmem opt
      obtain ⟨sid', hsid', hcases⟩ := h.shown_cases hv hz
      obtain rfl : sid = sid' :=
        Option.some.inj (hsid.symm.trans (hzname.trans (hzname'.symm.trans hsid')))
      rw [← hzprop, Sec.prop_of_undotted hopt]
      rcases hcases with ⟨-, hm⟩ | ⟨x, hx, rfl, hdisjoint, hm⟩
      · rw [hm]
        rfl
      · rw [hm, get?_overlay, Option.bind_some, shownOption, State.cell_changes,
          State.cell_deletes]
        split_ifs with hmark
        · rw [hnone sid x opt hopt hx hmark]
        · rfl

/-- In every run of plain edits of a loaded configuration, the reads show one configuration, the
map, exactly while no option that was loaded is marked for deletion. -/
theorem local_view {s : State} {m : Model} (h : Runs (s, m)) {conf : JsString}
    (hconf : (s.values.get? conf).isSome) : OneView s m conf ↔ NoneDeleting s conf :=
  Stands.oneView_iff h.stands hconf

theorem loaded_network : Loaded network where
  creates := rfl
  changes := rfl
  deletes := rfl
  named := by
    intro conf sid x hx
    have hvalues : network.values = (∅ : Table Sec).set (units "network")
        (loadSections [⟨units "lan", units "interface",
          (∅ : JsObject Val).set (units "proto") (.str (units "dhcp"))⟩]) := rfl
    rw [Table.at, hvalues, JsObject.get?_set] at hx
    by_cases hconf : conf = units "network"
    · rw [if_pos hconf, Option.bind_some, loadSections] at hx
      change ((∅ : JsObject Sec).set (units "lan") _).get? sid = some x at hx
      rw [JsObject.get?_set] at hx
      by_cases hsid : sid = units "lan"
      · rw [if_pos hsid] at hx
        rw [← Option.some.inj hx, hsid]
        rfl
      · rw [if_neg hsid] at hx
        exact absurd hx (by simp)
    · rw [if_neg hconf] at hx
      exact absurd hx (by simp)

/-- The option of the interface is removed. -/
def unsetProto : Edit := .set (units "network") (some (units "lan")) (units "proto") none

/-- An option is added to the interface. -/
def setMtu : Edit :=
  .set (units "network") (some (units "lan")) (units "mtu") (some (.str (units "1500")))

theorem runs_network {e : Edit} (h : PlainEdit network e) :
    Runs (edit network e, (Model.ofState network).edit network e) :=
  .next e (.start (s := (network, Model.ofState network)) ⟨loaded_network, rfl⟩) h rfl

/-- After an option was removed, `sections` still shows it. -/
theorem not_oneView_unsetProto : PlainEdit network unsetProto ∧
    ¬ OneView (edit network unsetProto) ((Model.ofState network).edit network unsetProto)
      (units "network") := by
  have hplain : PlainEdit network unsetProto := fun h => absurd h (by simp)
  refine ⟨hplain, fun hview => ?_⟩
  have hnone := ((runs_network hplain).stands.oneView_iff (by decide +kernel)).mp hview
  have hget := hnone (units "lan") _ (units "proto") (by decide) rfl (by decide +kernel)
  exact absurd hget (by decide +kernel)

theorem local_view_setMtu : OneView (edit network setMtu)
      ((Model.ofState network).edit network setMtu) (units "network") ↔
    NoneDeleting (edit network setMtu) (units "network") :=
  local_view (runs_network (e := setMtu) fun h => absurd h (by decide)) (by decide +kernel)

end NeonWrt.Luci.UciJs
