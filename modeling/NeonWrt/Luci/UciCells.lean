import NeonWrt.Luci.UciState
import Mathlib.Logic.Relation

/-!
# One section in the tables

Every edit of a section looks only at the four entries that the tables have for it, and
changes only these. This file states the edits as functions on the four entries, so that
facts about all sections can be proved for one.
-/

namespace NeonWrt.Luci.UciJs

open Lib

/-- The entries of one section in `values`, `creates`, `changes` and `deletes`. -/
@[ext] structure Cell where
  base : Option Sec
  created : Option Sec
  changes : Option (JsObject Val)
  deletes : Option Del

/-- The cell of a section. -/
def State.cell (s : State) (conf sid : JsString) : Cell :=
  ⟨s.values.at conf sid, s.creates.at conf sid, s.changes.at conf sid, s.deletes.at conf sid⟩

section Fields

variable {s : State} {conf sid : JsString}

@[simp] theorem State.cell_base : (s.cell conf sid).base = s.values.at conf sid := rfl

@[simp] theorem State.cell_created : (s.cell conf sid).created = s.creates.at conf sid := rfl

@[simp] theorem State.cell_changes : (s.cell conf sid).changes = s.changes.at conf sid := rfl

@[simp] theorem State.cell_deletes : (s.cell conf sid).deletes = s.deletes.at conf sid := rfl

end Fields

/-- An entry of `changes` without one option. -/
def withoutChange (c : Option (JsObject Val)) (opt : JsString) : Option (JsObject Val) :=
  c.bind fun o => if o.onlyHas opt then none else some (o.del opt)

/-- An entry of `deletes` without one option. -/
def withoutMark (d : Option Del) (opt : JsString) : Option Del :=
  match d with
  | some (.opts o) => if o.onlyHas opt then none else some (.opts (o.del opt))
  | _ => none

/-- An entry of `deletes` with one option more. -/
def withMark (d : Option Del) (opt : JsString) : Option Del :=
  match d with
  | some .all => some .all
  | some (.opts o) => some (.opts (o.set opt ()))
  | none => some (.opts ((∅ : JsObject Unit).set opt ()))

/-- `remove` -/
def Cell.removed (c : Cell) : Cell :=
  if c.created.isSome then { c with created := none }
  else if c.base.isSome then { c with changes := none, deletes := some .all }
  else c

/-- `set` of a value in a section that was not created. -/
def Cell.withValue (c : Cell) (opt : JsString) (val : Val) : Cell :=
  if markedAll c.deletes then c
  else if c.base.isNone then c
  else { c with
    changes := some ((c.changes.getD ∅).set opt val)
    deletes := withoutMark c.deletes opt }

/-- `set` of null or the empty string in a section that was not created. -/
def Cell.withoutOption (c : Cell) (opt : JsString) : Cell :=
  { c with
    changes := withoutChange c.changes opt
    deletes := if (c.base.bind (·.opts.get? opt)).isNone then c.deletes
      else withMark c.deletes opt }

/-- A section with an option assigned or deleted. -/
def Sec.assign (x : Sec) (opt : JsString) (val : Option Val) : Sec :=
  { x with opts := match val with
    | some v => x.opts.set opt v
    | none => x.opts.del opt }

/-- `set` -/
def Cell.assigned (c : Cell) (opt : JsString) (val : Option Val) : Cell :=
  match c.created with
  | some x => { c with created := some (x.assign opt val) }
  | none =>
    match val with
    | none => c.withoutOption opt
    | some v => if v = .str [] then c.withoutOption opt else c.withValue opt v

/-- The pending change of an option. -/
def changed (c : Option (JsObject Val)) (opt : JsString) : Option Val := c.bind (·.get? opt)

/-- Whether an option is marked for deletion. -/
def deleting (d : Option Del) (opt : JsString) : Bool :=
  match d with
  | some (.opts o) => (o.get? opt).isSome
  | _ => false

section Options

variable {c : Option (JsObject Val)} {d : Option Del} {opt opt' : JsString}

theorem changed_withoutChange :
    changed (withoutChange c opt) opt' = if opt' = opt then none else changed c opt' := by
  cases c with
  | none => simp [withoutChange, changed]
  | some o =>
    simp only [withoutChange, changed, Option.bind_some]
    by_cases hopt : opt' = opt
    · subst hopt
      rw [if_pos rfl]
      split_ifs <;> simp
    · rw [if_neg hopt]
      split_ifs with honly
      · -- the whole entry goes, but it had no other option
        rw [JsObject.get?_eq_none_of_onlyHas honly hopt]
        rfl
      · rw [Option.bind_some, JsObject.get?_del_of_ne hopt]

theorem changed_set (v : Val) : changed (some ((c.getD ∅).set opt v)) opt' =
    if opt' = opt then some v else changed c opt' := by
  simp only [changed, Option.bind_some, JsObject.get?_set]
  cases c <;> rfl

theorem deleting_withoutMark (hd : d ≠ some .all) :
    deleting (withoutMark d opt) opt' = (opt' ≠ opt && deleting d opt') := by
  cases d with
  | none => simp [withoutMark, deleting]
  | some d =>
    cases d with
    | all => exact absurd rfl hd
    | opts o =>
      simp only [withoutMark, deleting]
      by_cases hopt : opt' = opt
      · subst hopt
        split_ifs <;> simp
      · split_ifs with honly
        · rw [JsObject.get?_eq_none_of_onlyHas honly hopt]
          simp
        · simp [JsObject.get?_del_of_ne hopt, hopt]

theorem deleting_withMark (hd : d ≠ some .all) :
    deleting (withMark d opt) opt' = (opt' = opt || deleting d opt') := by
  cases d with
  | none =>
    simp only [withMark, deleting, JsObject.get?_set]
    by_cases hopt : opt' = opt <;> simp [hopt]
  | some d =>
    cases d with
    | all => exact absurd rfl hd
    | opts o =>
      simp only [withMark, deleting, JsObject.get?_set]
      by_cases hopt : opt' = opt <;> simp [hopt]

theorem get?_overlay {x : Sec} :
    (overlay x c).opts.get? opt = (changed c opt).or (x.opts.get? opt) := by
  cases c with
  | none => rfl
  | some c => exact JsObject.get?_foldl_set c x.opts opt

theorem withoutMark_ne_all : withoutMark d opt ≠ some .all := by
  unfold withoutMark
  split
  · split_ifs <;> simp
  · simp

theorem withMark_ne_all (hd : d ≠ some .all) : withMark d opt ≠ some .all := by
  unfold withMark
  split
  · exact absurd rfl hd
  · simp
  · simp

end Options

section Tables

variable {s : State} {conf conf' sid sid' opt : JsString}

theorem at_dropOption : (dropOption s.changes conf sid opt).at conf' sid' =
    if conf' = conf ∧ sid' = sid then withoutChange (s.changes.at conf sid) opt
    else s.changes.at conf' sid' := by
  unfold dropOption withoutChange
  cases hc : s.changes.at conf sid with
  | none =>
    by_cases h : conf' = conf ∧ sid' = sid
    · rw [if_pos h, h.1, h.2, hc]
      rfl
    · rw [if_neg h]
  | some o =>
    simp only [Option.bind_some]
    by_cases honly : o.onlyHas opt = true
    · rw [if_pos honly, if_pos honly, Table.at_drop]
    · rw [if_neg honly, if_neg honly, Table.at_put (Table.isSome_get?_of_at hc)]

theorem at_undelete : (undelete s.deletes conf sid opt).at conf' sid' =
    if conf' = conf ∧ sid' = sid then withoutMark (s.deletes.at conf sid) opt
    else s.deletes.at conf' sid' := by
  unfold undelete withoutMark
  cases hd : s.deletes.at conf sid with
  | none =>
    by_cases h : conf' = conf ∧ sid' = sid
    · rw [if_pos h, h.1, h.2, hd]
    · rw [if_neg h]
  | some d =>
    cases d with
    | all => exact Table.at_drop
    | opts o =>
      by_cases honly : o.onlyHas opt = true
      · simp only [honly, if_true]
        exact Table.at_drop
      · simp only [honly]
        exact Table.at_put (Table.isSome_get?_of_at hd)

theorem cell_add (type random : JsString) (name : Option JsString) :
    (add s conf type name random).cell conf' sid' =
      if conf' = conf ∧ sid' = (if name.getD [] = [] then random else name.getD []) then
        { s.cell conf (if name.getD [] = [] then random else name.getD []) with
          created := some
            { type := type, name := some (if name.getD [] = [] then random else name.getD []),
              create := name, index := 1000 + s.newidx, opts := ∅ } }
      else s.cell conf' sid' := by
  have hput := @Table.at_put_ensure _ s.creates conf conf'
    (if name.getD [] = [] then random else name.getD []) sid'
    { type := type, name := some (if name.getD [] = [] then random else name.getD []),
      create := name, index := 1000 + s.newidx, opts := ∅ }
  by_cases h : conf' = conf ∧ sid' = (if name.getD [] = [] then random else name.getD [])
  · rw [if_pos h] at hput ⊢
    rw [h.1, h.2] at hput ⊢
    exact Cell.ext rfl hput rfl rfl
  · rw [if_neg h] at hput ⊢
    exact Cell.ext rfl hput rfl rfl

theorem cell_remove : (remove s conf sid).cell conf' sid' =
    if conf' = conf ∧ sid' = sid then (s.cell conf sid).removed else s.cell conf' sid' := by
  by_cases h : conf' = conf ∧ sid' = sid
  · obtain ⟨rfl, rfl⟩ := h
    rw [if_pos ⟨rfl, rfl⟩]
    unfold remove Cell.removed State.cell
    dsimp only
    split_ifs <;> simp [Table.at_drop, Table.at_put_ensure]
  · rw [if_neg h]
    unfold remove State.cell
    split_ifs <;> simp [Table.at_drop, Table.at_put_ensure, h]

theorem cell_setValue (val : Val) : (setValue s conf sid opt val).cell conf' sid' =
    if conf' = conf ∧ sid' = sid then (s.cell conf sid).withValue opt val
    else s.cell conf' sid' := by
  by_cases h : conf' = conf ∧ sid' = sid
  · obtain ⟨rfl, rfl⟩ := h
    rw [if_pos ⟨rfl, rfl⟩]
    unfold setValue Cell.withValue State.cell
    dsimp only
    split_ifs <;> simp [Table.at_put_ensure, at_undelete]
  · rw [if_neg h]
    unfold setValue State.cell
    split_ifs <;> simp [Table.at_put_ensure, at_undelete, h]

theorem cell_setNull : (setNull s conf sid opt).cell conf' sid' =
    if conf' = conf ∧ sid' = sid then (s.cell conf sid).withoutOption opt
    else s.cell conf' sid' := by
  have hmark : ((match (Table.ensure s.deletes conf).at conf sid with
      | some .all => { s with
          changes := dropOption s.changes conf sid opt, deletes := Table.ensure s.deletes conf }
      | some (.opts o) => { s with
          changes := dropOption s.changes conf sid opt
          deletes := (Table.ensure s.deletes conf).put conf sid (.opts (o.set opt ())) }
      | none => { s with
          changes := dropOption s.changes conf sid opt
          deletes := (Table.ensure s.deletes conf).put conf sid
            (.opts ((∅ : JsObject Unit).set opt ())) } : State).cell conf' sid') =
      if conf' = conf ∧ sid' = sid then
        { s.cell conf sid with
          changes := withoutChange (s.changes.at conf sid) opt
          deletes := withMark (s.deletes.at conf sid) opt }
      else s.cell conf' sid' := by
    rw [Table.at_ensure]
    by_cases h : conf' = conf ∧ sid' = sid
    · obtain ⟨rfl, rfl⟩ := h
      rw [if_pos ⟨rfl, rfl⟩]
      rcases hd : s.deletes.at conf' sid' with - | - | o <;>
        simp [State.cell, at_dropOption, Table.at_put_ensure, withMark, hd]
    · rw [if_neg h]
      rcases hd : s.deletes.at conf sid with - | - | o <;>
        simp [State.cell, at_dropOption, Table.at_put_ensure, h]
  unfold setNull Cell.withoutOption
  change (if ((s.values.at conf sid).bind (·.opts.get? opt)).isNone = true then _
    else _ : State).cell conf' sid' = _
  change _ = if _ then
    { s.cell conf sid with
      changes := withoutChange (s.changes.at conf sid) opt
      deletes := if ((s.values.at conf sid).bind (·.opts.get? opt)).isNone = true
        then s.deletes.at conf sid else withMark (s.deletes.at conf sid) opt } else _
  by_cases hnone : ((s.values.at conf sid).bind (·.opts.get? opt)).isNone = true
  · -- the loaded section does not have the option: only a pending change goes
    simp only [if_pos hnone]
    refine Cell.ext ?_ ?_ ?_ ?_
    · split_ifs with h
      · rw [h.1, h.2]
        rfl
      · rfl
    · split_ifs with h
      · rw [h.1, h.2]
        rfl
      · rfl
    · refine at_dropOption.trans ?_
      split_ifs <;> rfl
    · split_ifs with h
      · rw [h.1, h.2]
        rfl
      · rfl
  · simp only [if_neg hnone]
    exact hmark

theorem cell_set {sid : Option JsString} {name : JsString} (hsid : resolveSID s conf sid = some name)
    (hopt : opt.head? ≠ some 46) (val : Option Val) :
    (set s conf sid opt val).cell conf' sid' =
      if conf' = conf ∧ sid' = name then (s.cell conf name).assigned opt val
      else s.cell conf' sid' := by
  unfold set
  simp only [hsid, if_neg hopt]
  cases hn : s.creates.at conf name with
  | some x =>
    have hassigned : (s.cell conf name).assigned opt val =
        { s.cell conf name with created := some (x.assign opt val) } := by
      simp [Cell.assigned, State.cell, hn]
    rw [hassigned]
    have hput := @Table.at_put _ s.creates conf conf' name sid' (x.assign opt val)
      (Table.isSome_get?_of_at hn)
    by_cases h : conf' = conf ∧ sid' = name
    · rw [if_pos h] at hput ⊢
      rw [h.1, h.2] at hput ⊢
      exact Cell.ext rfl hput rfl rfl
    · rw [if_neg h] at hput ⊢
      exact Cell.ext rfl hput rfl rfl
  | none =>
    have hassigned : (s.cell conf name).assigned opt val = match val with
        | none => (s.cell conf name).withoutOption opt
        | some v => if v = .str [] then (s.cell conf name).withoutOption opt
          else (s.cell conf name).withValue opt v := by
      simp only [Cell.assigned, State.cell, hn]
    rw [hassigned]
    cases val with
    | none => exact cell_setNull
    | some v =>
      by_cases hv : v = .str []
      · simp only [if_pos hv]
        exact cell_setNull
      · simp only [if_neg hv]
        exact cell_setValue v

end Tables

/-- The loaded section with its pending changes and deletions merged into it. -/
def Cell.merge (c : Cell) (x : Sec) : Sec :=
  let changed := overlay x c.changes
  match c.deletes with
  | some (.opts d) => { changed with opts := d.keys.foldl (fun o k => o.del k) changed.opts }
  | _ => changed

theorem Cell.get?_merge {c : Cell} {x : Sec} {opt : JsString} : (c.merge x).opts.get? opt =
    if deleting c.deletes opt then none else (changed c.changes opt).or (x.opts.get? opt) := by
  unfold Cell.merge
  rcases c.deletes with - | - | d
  · exact get?_overlay
  · exact get?_overlay
  · refine (JsObject.get?_foldl_del ..).trans ?_
    have hkeys : opt ∈ d.keys ↔ deleting (some (.opts d)) opt = true := by
      rw [JsObject.mem_keys_iff, deleting, Option.isSome_iff_exists]
    by_cases hmem : opt ∈ d.keys
    · rw [if_pos hmem, if_pos (hkeys.mp hmem)]
    · rw [if_neg hmem, if_neg (mt hkeys.mpr hmem)]
      exact get?_overlay

/-- What happens to the cell of one section in the course of an edit. -/
inductive Cell.Step (sid : JsString) (c c' : Cell) : Prop
  | added (y : Sec) (hname : y.name = some sid) (h : c' = { c with created := some y })
  | removed (h : c' = c.removed)
  | assigned (opt : JsString) (val : Option Val) (h : c' = c.assigned opt val)
  | merged (x : Sec) (hx : c.base = some x) (h : c' = { c with base := some (c.merge x) })
  | moved (x : Sec) (i : ℕ) (hx : c.base = some x)
      (h : c' = { c with base := some { x with index := i } })
  | movedNew (y : Sec) (i : ℕ) (hy : c.created = some y)
      (h : c' = { c with created := some { y with index := i } })

/-- One state comes from another by steps of the cells; a loaded configuration stays loaded. -/
structure Steps (s s' : State) : Prop where
  cells : ∀ conf sid, Relation.ReflTransGen (Cell.Step sid) (s.cell conf sid) (s'.cell conf sid)
  loaded : ∀ conf, (s.values.get? conf).isSome → (s'.values.get? conf).isSome

theorem Steps.refl (s : State) : Steps s s := ⟨fun _ _ => .refl, fun _ h => h⟩

theorem Steps.trans {s s' s'' : State} (h : Steps s s') (h' : Steps s' s'') : Steps s s'' :=
  ⟨fun conf sid => (h.cells conf sid).trans (h'.cells conf sid),
    fun conf hconf => h'.loaded conf (h.loaded conf hconf)⟩

/-- Steps of one cell, in a state that is the same everywhere else. -/
theorem Steps.of_cell {s s' : State} {conf sid : JsString} {c : Cell}
    (hcell : ∀ conf' sid', s'.cell conf' sid' =
      if conf' = conf ∧ sid' = sid then c else s.cell conf' sid')
    (hstep : Cell.Step sid (s.cell conf sid) c)
    (hloaded : ∀ conf, (s.values.get? conf).isSome → (s'.values.get? conf).isSome) :
    Steps s s' := by
  refine ⟨fun conf' sid' => ?_, hloaded⟩
  rw [hcell]
  split_ifs with hat
  · rw [hat.1, hat.2]
    exact .single hstep
  · exact .refl

section Steps

variable {s : State} {conf sid : JsString}

theorem steps_add (type random : JsString) (name : Option JsString) :
    Steps s (add s conf type name random) :=
  Steps.of_cell (fun _ _ => cell_add type random name) (by exact .added _ rfl rfl) fun _ h => h

theorem steps_remove : Steps s (remove s conf sid) := by
  refine Steps.of_cell (fun _ _ => cell_remove) (.removed rfl) fun conf' h => ?_
  unfold remove
  split_ifs <;> exact h

theorem steps_set (sid : Option JsString) (opt : JsString) (val : Option Val) :
    Steps s (set s conf sid opt val) := by
  cases hsid : resolveSID s conf sid with
  | none =>
    have hsame : set s conf sid opt val = s := by simp only [set, hsid]
    rw [hsame]
    exact .refl s
  | some name =>
    by_cases hopt : opt.head? = some 46
    · have hsame : set s conf sid opt val = s := by simp only [set, hsid, if_pos hopt]
      rw [hsame]
      exact .refl s
    · refine Steps.of_cell (fun _ _ => cell_set hsid hopt val) (.assigned opt val rfl)
        fun conf' h => ?_
      have hvalues : (set s conf sid opt val).values = s.values := by
        unfold set setNull setValue
        simp only [hsid, if_neg hopt]
        repeat' split
        all_goals rfl
      rwa [hvalues]

/-- Merging a section's pending edits is a step of its cell. -/
theorem steps_lookup : Steps s (lookup s conf sid).1 := by
  unfold lookup
  split_ifs
  · exact .refl s
  · exact .refl s
  · cases hx : s.values.at conf sid with
    | none => exact .refl s
    | some x =>
      refine Steps.of_cell (c := { s.cell conf sid with base := some ((s.cell conf sid).merge x) })
        (fun conf' sid' => ?_) (.merged x hx rfl) fun conf' h => ?_
      · have hput := @Table.at_put _ s.values conf conf' sid sid' (merge s conf sid x)
          (Table.isSome_get?_of_at hx)
        split_ifs at hput ⊢ with hat
        · rw [hat.1, hat.2] at hput ⊢
          exact Cell.ext hput rfl rfl rfl
        · exact Cell.ext hput rfl rfl rfl
      · exact (Table.isSome_get?_put).trans h

theorem steps_setIndex (i : ℕ) (ref : Ref) : Steps s (setIndex s conf i ref) := by
  cases ref with
  | created sid =>
    cases hy : s.creates.at conf sid with
    | none =>
      have hsame : setIndex s conf i (.created sid) = s := by simp only [setIndex, hy]
      rw [hsame]
      exact .refl s
    | some y =>
      have hset : setIndex s conf i (.created sid) =
          { s with creates := s.creates.put conf sid { y with index := i } } := by
        simp only [setIndex, hy]
      rw [hset]
      refine @Steps.of_cell s _ conf sid
        { s.cell conf sid with created := some { y with index := i } }
        (fun conf' sid' => ?_) (.movedNew y i hy rfl) fun _ h => h
      have hput := @Table.at_put _ s.creates conf conf' sid sid' { y with index := i }
        (Table.isSome_get?_of_at hy)
      split_ifs at hput ⊢ with hat
      · rw [hat.1, hat.2] at hput ⊢
        exact Cell.ext rfl hput rfl rfl
      · exact Cell.ext rfl hput rfl rfl
  | base sid =>
    cases hx : s.values.at conf sid with
    | none =>
      have hsame : setIndex s conf i (.base sid) = s := by simp only [setIndex, hx]
      rw [hsame]
      exact .refl s
    | some x =>
      have hset : setIndex s conf i (.base sid) =
          { s with values := s.values.put conf sid { x with index := i } } := by
        simp only [setIndex, hx]
      rw [hset]
      refine @Steps.of_cell s _ conf sid
        { s.cell conf sid with base := some { x with index := i } }
        (fun conf' sid' => ?_) (.moved x i hx rfl) fun conf' h => ?_
      · have hput := @Table.at_put _ s.values conf conf' sid sid' { x with index := i }
          (Table.isSome_get?_of_at hx)
        split_ifs at hput ⊢ with hat
        · rw [hat.1, hat.2] at hput ⊢
          exact Cell.ext hput rfl rfl rfl
        · exact Cell.ext hput rfl rfl rfl
      · exact (Table.isSome_get?_put).trans h

theorem steps_renumber (s : State) (i : ℕ) (l : List Sec) : Steps s (renumber conf s i l).1 := by
  induction l generalizing s i with
  | nil => exact .refl s
  | cons x rest ih =>
    unfold renumber
    cases resolveSID s conf x.name with
    | none => exact .refl s
    | some sid =>
      have hlookup : Steps s (lookup s conf sid).1 := steps_lookup
      cases hresult : lookup s conf sid with
      | mk s' ref =>
        rw [hresult] at hlookup
        cases ref with
        | none => simpa only [hresult] using hlookup
        | some ref =>
          have hrest := ih (setIndex s' conf i ref) (i + 1)
          simpa only [hresult] using hlookup.trans ((steps_setIndex i ref).trans hrest)

/-- A note that the configuration is to be reordered leaves the cells alone. -/
theorem steps_reorder (r : JsObject Unit) : Steps s { s with reorder := r } :=
  ⟨fun _ _ => .refl, fun _ h => h⟩

theorem steps_move (sid1 sid2 : Option JsString) (after : Bool) :
    Steps s (move s conf sid1 sid2 after) := by
  unfold move
  split
  · exact .refl s
  · rename_i sa _
    have hrenumber := @steps_renumber conf s 0 sa
    cases hresult : renumber conf s 0 sa with
    | mk s' found =>
      rw [hresult] at hrenumber
      cases found with
      | false => simpa only [hresult] using hrenumber
      | true => simpa only [hresult] using hrenumber.trans (steps_reorder _)

theorem steps_clone (type srcsid random : JsString) (putNext : Bool) (name : Option JsString) :
    Steps s (clone s conf type srcsid putNext name random) := by
  unfold clone
  cases s.values.get? conf with
  | none =>
    -- an empty table for the configuration does not show in the cells
    refine ⟨fun conf' sid' => ?_, fun _ h => h⟩
    have hsame : ({ s with creates := Table.ensure s.creates conf } : State).cell conf' sid' =
        s.cell conf' sid' := Cell.ext rfl Table.at_ensure rfl rfl
    rw [hsame]
  | some v =>
    have hcreated : Steps s { s with
        creates := (Table.ensure s.creates conf).put conf random
          { type := type, name := some random, create := name, index := 1000 + s.newidx,
            opts := (v.get? srcsid).elim ∅ (·.opts) }
        newidx := s.newidx + 1 } := by
      refine @Steps.of_cell s _ conf random
        { s.cell conf random with
          created := some
            { type := type, name := some random, create := name, index := 1000 + s.newidx,
              opts := (v.get? srcsid).elim ∅ (·.opts) } }
        (fun conf' sid' => ?_) (.added _ rfl rfl) fun _ h => h
      have hput := @Table.at_put_ensure _ s.creates conf conf' random sid'
        { type := type, name := some random, create := name, index := 1000 + s.newidx,
          opts := (v.get? srcsid).elim ∅ (·.opts) }
      split_ifs at hput ⊢ with hat
      · rw [hat.1, hat.2] at hput ⊢
        exact Cell.ext rfl hput rfl rfl
      · exact Cell.ext rfl hput rfl rfl
    cases putNext with
    | false => exact hcreated
    | true => exact hcreated.trans (steps_move _ _ _)

/-- Every edit consists of steps of the cells. -/
theorem steps_edit (s : State) (e : Edit) : Steps s (edit s e) := by
  cases e with
  | add conf type name random => exact steps_add type random name
  | remove conf sid => exact steps_remove
  | set conf sid opt val => exact steps_set sid opt val
  | clone conf type srcsid putNext name random =>
    exact steps_clone type srcsid random putNext name
  | move conf sid1 sid2 after => exact steps_move sid1 sid2 after

end Steps

end NeonWrt.Luci.UciJs
