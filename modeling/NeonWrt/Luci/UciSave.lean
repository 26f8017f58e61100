import NeonWrt.Luci.UciView
import NeonWrt.Luci.UciServer

/-!
# Saving the local view

`save` turns the tables into remote calls: deletions, new sections and changed options
at once, and calls that order the sections when the first calls were answered. The
server then has what `sections` showed, provided that the tables are in a state in which
these calls say everything and the answers are read for what they are.
-/

namespace NeonWrt.Luci.UciJs

open Lib

/-- The cell of a section against the section that was loaded: it is there if that was, has its type,
and has no option of its own without a pending edit. Changes are pending only for loaded sections
that are not deleted. -/
structure Loads (y : Option SrvSec) (sid : JsString) (c : Cell) : Prop where
  found : c.base.isSome = y.isSome
  same : ∀ x z, c.base = some x → y = some z → x.name = some sid ∧ x.type = z.type
  options : ∀ x z opt v, c.base = some x → y = some z → c.deletes ≠ some .all →
    changed c.changes opt = none → deleting c.deletes opt = false → x.opts.get? opt = some v →
    z.opts.get? opt = some v
  changes : c.changes ≠ none → c.base ≠ none ∧ c.deletes ≠ some .all
  created : ∀ x, c.created = some x → x.name = some sid

section Cells

variable {y : Option SrvSec} {sid : JsString} {c c' : Cell}

theorem Loads.removed (h : Loads y sid c) : Loads y sid c.removed := by
  unfold Cell.removed
  split_ifs with hcreated hbase
  · exact { h with created := fun x hx => absurd hx (by simp) }
  · exact
      { found := h.found
        same := h.same
        options := fun x z opt v _ _ hall => absurd rfl hall
        changes := fun hchanges => absurd rfl hchanges
        created := h.created }
  · exact h

theorem Loads.withValue (h : Loads y sid c) (opt : JsString) (v : Val) :
    Loads y sid (c.withValue opt v) := by
  unfold Cell.withValue
  split_ifs with hall hnone
  · exact h
  · exact h
  · have hd : c.deletes ≠ some .all := mt markedAll_eq_true_iff.mpr hall
    refine
      { found := h.found
        same := h.same
        options := fun x z opt' w hx hz _ hchanged hdeleting hget => ?_
        changes := fun _ => ⟨by simpa using hnone, withoutMark_ne_all⟩
        created := h.created }
    -- only the option itself has a new entry
    rw [changed_set] at hchanged
    rw [deleting_withoutMark hd] at hdeleting
    by_cases hopt : opt' = opt
    · simp [hopt] at hchanged
    · rw [if_neg hopt] at hchanged
      exact h.options x z opt' w hx hz hd hchanged (by simpa [hopt] using hdeleting) hget

theorem Loads.withoutOption (h : Loads y sid c) (opt : JsString) :
    Loads y sid (c.withoutOption opt) := by
  have hchanges : withoutChange c.changes opt ≠ none → c.changes ≠ none := by
    intro hne hnone
    rw [hnone] at hne
    exact hne rfl
  refine
    { found := h.found
      same := h.same
      options := fun x z opt' w hx hz hall hchanged hdeleting hget => ?_
      changes := fun hne => ⟨(h.changes (hchanges hne)).1, ?_⟩
      created := h.created }
  · have hbase : c.base = some x := hx
    simp only [Cell.withoutOption, hbase, Option.bind_some] at hall hdeleting
    have hchanged' := changed_withoutChange.symm.trans hchanged
    by_cases hopt : opt' = opt
    · -- the loaded section has the option, so it is marked
      subst hopt
      rw [hget] at hall hdeleting
      simp only [Option.isNone_some, Bool.false_eq_true, if_false] at hall hdeleting
      have hd : c.deletes ≠ some .all := fun hd => hall (by rw [hd]; rfl)
      rw [deleting_withMark hd] at hdeleting
      simp at hdeleting
    · rw [if_neg hopt] at hchanged'
      split_ifs at hall hdeleting with hnone
      · exact h.options x z opt' w hbase hz hall hchanged' hdeleting hget
      · have hd : c.deletes ≠ some .all := fun hd => hall (by rw [hd]; rfl)
        rw [deleting_withMark hd] at hdeleting
        exact h.options x z opt' w hbase hz hd hchanged' (by simpa [hopt] using hdeleting) hget
  · have hd := (h.changes (hchanges hne)).2
    simp only [Cell.withoutOption]
    split_ifs
    · exact hd
    · exact withMark_ne_all hd

/-- Steps of a cell keep what it has in common with the server. -/
theorem Loads.step (h : Loads y sid c) (hstep : Cell.Step sid c c') : Loads y sid c' := by
  cases hstep with
  | added x hname hc =>
    subst hc
    exact { h with created := fun z hz => Option.some.inj hz ▸ hname }
  | removed hc =>
    subst hc
    exact h.removed
  | assigned opt val hc =>
    subst hc
    unfold Cell.assigned
    split
    · rename_i x hx
      exact { h with created := fun z hz => Option.some.inj hz ▸ h.created x hx }
    · split
      · exact h.withoutOption opt
      · split_ifs
        · exact h.withoutOption opt
        · exact h.withValue opt _
  | merged x hx hc =>
    subst hc
    refine
      { found := ?_
        same := fun x' z hx' hz => ?_
        options := fun x' z opt v hx' hz hall hchanged hdeleting hget => ?_
        changes := fun hne => ⟨by simp, (h.changes hne).2⟩
        created := h.created }
    · rw [← h.found, hx]
      rfl
    · obtain rfl := Option.some.inj hx'
      have hsame := h.same x z hx hz
      unfold Cell.merge
      split <;> exact hsame
    · -- merging does not touch an option without a pending edit
      obtain rfl := Option.some.inj hx'
      change changed c.changes opt = none at hchanged
      change deleting c.deletes opt = false at hdeleting
      rw [Cell.get?_merge, hdeleting, hchanged, if_neg (by simp), Option.none_or] at hget
      exact h.options x z opt v hx hz hall hchanged hdeleting hget
  | moved x i hx hc =>
    subst hc
    refine
      { found := ?_
        same := fun x' z hx' hz => ?_
        options := fun x' z opt v hx' hz hall hchanged hdeleting hget => ?_
        changes := fun hne => ⟨by simp, (h.changes hne).2⟩
        created := h.created }
    · rw [← h.found, hx]
      rfl
    · obtain rfl := Option.some.inj hx'
      exact h.same x z hx hz
    · obtain rfl := Option.some.inj hx'
      exact h.options x z opt v hx hz hall hchanged hdeleting hget
  | movedNew x i hx hc =>
    subst hc
    exact { h with created := fun z hz => Option.some.inj hz ▸ h.created x hx }

theorem Loads.steps (h : Loads y sid c) (hsteps : Relation.ReflTransGen (Cell.Step sid) c c') :
    Loads y sid c' := by
  induction hsteps with
  | refl => exact h
  | tail _ hstep ih => exact ih.step hstep

end Cells

/-- A configuration of the state against the one that was loaded. -/
structure LoadsConf (l : List SrvSec) (s : State) (conf : JsString) : Prop where
  table : (s.values.get? conf).isSome
  cells : ∀ sid, Loads (l.find? (·.name = sid)) sid (s.cell conf sid)

theorem LoadsConf.edit {l : List SrvSec} {s : State} {conf : JsString} (h : LoadsConf l s conf)
    (e : Edit) : LoadsConf l (edit s e) conf :=
  ⟨(steps_edit s e).loaded conf h.table,
    fun sid => (h.cells sid).steps ((steps_edit s e).cells conf sid)⟩

/-- Edits of configurations that were loaded from the server. -/
def EditRuns (srv : Server) (confs : List JsString) : State → Prop :=
  Reaches (fun s => s = loaded (confs.map fun conf => (conf, srv conf)))
    (fun s e s' => s' = edit s e) Drawn

section Runs

variable {srv : Server} {confs : List JsString} {conf : JsString} {s : State}

/-- The sections of a configuration, under their names. -/
theorem get?_loadSections {l : List SrvSec} (hl : (l.map (·.name)).Nodup) (sid : JsString) :
    (loadSections l).get? sid =
      (l.zipIdx.find? (·.1.name = sid)).map fun e => e.1.toSec e.2 := by
  have hnodup : ((l.zipIdx.map fun e => (e.1.name, e.1.toSec e.2)).map (·.1)).Nodup := by
    rw [List.map_map]
    have hnames := congrArg (List.map fun x : SrvSec => x.name) (List.zipIdx_map_fst 0 l)
    rw [List.map_map] at hnames
    exact hnames.symm ▸ hl
  have hget := JsObject.get?_foldl_set
    ⟨l.zipIdx.map fun e => (e.1.name, e.1.toSec e.2), hnodup⟩ ∅ sid
  rw [List.foldl_map] at hget
  refine hget.trans ?_
  rw [JsObject.get?_empty, Option.or_none, JsObject.get?, List.find?_map, Option.map_map]
  rfl

theorem get?_loaded (hconfs : confs.Nodup) (hconf : conf ∈ confs) :
    (loaded (confs.map fun conf => (conf, srv conf))).values.get? conf =
      some (loadSections (srv conf)) := by
  have hnodup : ((confs.map fun conf => (conf, loadSections (srv conf))).map (·.1)).Nodup := by
    rw [List.map_map]
    exact (List.map_id confs).symm ▸ hconfs
  have hget := JsObject.get?_foldl_set
    ⟨confs.map fun conf => (conf, loadSections (srv conf)), hnodup⟩ ∅ conf
  rw [List.foldl_map] at hget
  unfold loaded
  dsimp only
  rw [List.foldl_map]
  refine hget.trans ?_
  rw [JsObject.get?_empty, Option.or_none, JsObject.get?_eq_some_iff]
  exact List.mem_map.mpr ⟨conf, hconf, rfl⟩

theorem loadsConf_loaded (hconfs : confs.Nodup) (hconf : conf ∈ confs)
    (hsrv : ((srv conf).map (·.name)).Nodup) :
    LoadsConf (srv conf) (loaded (confs.map fun conf => (conf, srv conf))) conf := by
  have hvalues := @get?_loaded srv _ _ hconfs hconf
  refine ⟨by rw [hvalues]; rfl, fun sid => ?_⟩
  have hbase : ((loaded (confs.map fun conf => (conf, srv conf))).cell conf sid).base =
      ((srv conf).zipIdx.find? (·.1.name = sid)).map fun e => e.1.toSec e.2 := by
    rw [State.cell_base, Table.at, hvalues, Option.bind_some, get?_loadSections hsrv]
  have hfind : (srv conf).find? (·.name = sid) =
      ((srv conf).zipIdx.find? (·.1.name = sid)).map (·.1) := by
    conv_lhs => rw [← List.zipIdx_map_fst 0 (srv conf)]
    rw [List.find?_map]
    rfl
  refine
    { found := ?_
      same := fun x z hx hz => ?_
      options := fun x z opt v hx hz _ _ _ hget => ?_
      changes := fun hne => absurd rfl hne
      created := fun x hx => absurd hx (by simp [loaded]) }
  · rw [hbase, hfind, Option.isSome_map, Option.isSome_map]
  · rw [hbase] at hx
    rw [hfind] at hz
    obtain ⟨e, he, rfl⟩ := Option.map_eq_some_iff.mp hx
    rw [he] at hz
    obtain rfl := Option.some.inj hz
    have hname : e.1.name = sid := by simpa using List.find?_some he
    exact ⟨congrArg some hname, rfl⟩
  · rw [hbase] at hx
    rw [hfind] at hz
    obtain ⟨e, he, rfl⟩ := Option.map_eq_some_iff.mp hx
    rw [he] at hz
    obtain rfl := Option.some.inj hz
    exact hget

theorem EditRuns.loadsConf (h : EditRuns srv confs s) (hconfs : confs.Nodup) (hconf : conf ∈ confs)
    (hsrv : ((srv conf).map (·.name)).Nodup) : LoadsConf (srv conf) s conf :=
  Reaches.invariant (P := fun s => LoadsConf (srv conf) s conf)
    (fun s hs => by
      rw [hs]
      exact loadsConf_loaded hconfs hconf hsrv)
    (fun s e s' hs _ hstep => by
      rw [hstep]
      exact hs.edit e) h

end Runs

section Rows

variable {α : Type} {t : Table α} {conf sid : JsString}

/-- The entries of one configuration. -/
def Table.row (t : Table α) (conf : JsString) : List (JsString × α) :=
  (t.get? conf).elim [] (·.entries)

theorem Table.nodup_row : ((t.row conf).map (·.1)).Nodup := by
  unfold Table.row
  cases t.get? conf with
  | none => exact List.nodup_nil
  | some o => exact o.nodup

theorem Table.entryOf_row : entryOf (t.row conf) sid = t.at conf sid := by
  unfold Table.row Table.at
  cases t.get? conf with
  | none => rfl
  | some o => rfl

theorem Table.mem_row_iff {v : α} : (sid, v) ∈ t.row conf ↔ t.at conf sid = some v := by
  unfold Table.row Table.at
  cases t.get? conf with
  | none => simp
  | some o => exact JsObject.get?_eq_some_iff.symm

/-- The loop over a table passes the entries of a configuration in their order. -/
theorem Table.filter_flat : t.flat.filter (·.1 = conf) =
    (t.row conf).map fun e => (conf, e.1, e.2) := by
  obtain ⟨l, hl⟩ := t
  unfold Table.flat Table.row
  simp only [JsObject.get?]
  induction l with
  | nil => rfl
  | cons c l ih =>
    obtain ⟨hnot, hl'⟩ := List.nodup_cons.mp hl
    rw [List.flatMap_cons, List.filter_append, ih hl']
    by_cases hc : c.1 = conf
    · -- no later row is about the configuration
      have hnone : l.find? (fun e => e.1 = conf) = none := by
        rw [List.find?_eq_none]
        intro d hd hdc
        exact hnot (List.mem_map.mpr ⟨d, hd, (of_decide_eq_true hdc).trans hc.symm⟩)
      rw [hnone, List.find?_cons_of_pos (by simpa using hc), List.filter_eq_self.mpr]
      · simp [hc]
      · intro e he
        obtain ⟨d, -, rfl⟩ := List.mem_map.mp he
        simpa using hc
    · rw [List.find?_cons_of_neg (by simpa using hc), List.filter_eq_nil_iff.mpr, List.nil_append]
      intro e he
      obtain ⟨d, -, rfl⟩ := List.mem_map.mp he
      simpa using hc

end Rows

/-- A loop of calls over a table, seen from one configuration. -/
theorem filter_calls {α : Type} {t : Table α} {conf : JsString} {f : JsString × JsString × α → Rpc}
    (hf : ∀ e, (f e).conf = e.1) : (t.flat.map f).filter (·.conf = conf) =
      (t.row conf).map fun e => f (conf, e.1, e.2) := by
  rw [List.filter_map]
  have hconf : ((fun r : Rpc => decide (r.conf = conf)) ∘ f) = fun e => decide (e.1 = conf) := by
    ext e
    rw [Function.comp_apply, hf]
  rw [hconf, Table.filter_flat, List.map_map]
  rfl

/-- The sections that were created in a configuration. -/
def createdSecs (s : State) (conf : JsString) : List Sec := (s.creates.row conf).map (·.2)

/-- The calls of `save` for one configuration. -/
theorem filter_saveTasks (s : State) (conf : JsString) :
    (saveTasks s).filter (·.conf = conf) =
      (s.deletes.row conf).map (fun e => .delete conf e.1 e.2.options) ++
        (createdSecs s conf).map (fun x => .add conf x.type x.create x.opts) ++
        (s.changes.row conf).map fun e => .set conf e.1 e.2 := by
  unfold saveTasks createdSecs
  rw [List.filter_append, List.filter_append, filter_calls fun _ => rfl,
    filter_calls fun _ => rfl, filter_calls fun _ => rfl, List.map_map]
  congr 2

/-- What a filter by the first parts leaves of two lists that were combined. -/
theorem filter_zipWith {β γ δ : Type} {f : β → γ → δ} {p : β → Bool} {q : δ → Bool}
    (hq : ∀ b c, q (f b c) = p b) (l : List β) (r : List γ) (h : l.length = r.length) :
    (List.zipWith f l r).filter q =
      List.zipWith f (l.filter p) (((l.zip r).filter fun e => p e.1).map (·.2)) := by
  induction l generalizing r with
  | nil => rfl
  | cons b l ih =>
    cases r with
    | nil => simp at h
    | cons c r =>
      have hrest := ih r (by simpa using h)
      rw [List.zipWith_cons_cons, List.zip_cons_cons]
      cases hp : p b with
      | true =>
        rw [List.filter_cons_of_pos ((hq b c).trans hp), List.filter_cons_of_pos hp,
          List.filter_cons_of_pos (by exact hp), List.map_cons, List.zipWith_cons_cons, hrest]
      | false =>
        rw [List.filter_cons_of_neg (by simp [hq, hp]), List.filter_cons_of_neg (by simp [hp]),
          List.filter_cons_of_neg (by simp [hp]), hrest]

/-- What the deletions leave of a configuration. -/
def leftSecs (s : State) (conf : JsString) (l : List SrvSec) : List SrvSec :=
  l.filterMap fun x => x.cut (s.deletes.at conf x.name)

section Calls

variable {fresh : JsString → List SrvSec → JsString} {srv : Server} {s : State} {conf : JsString}

/-- The configuration after the first calls. -/
theorem exec_saveTasks
    (hfree : Free (fresh conf) (leftSecs s conf (srv conf)) (createdSecs s conf)) :
    (exec fresh srv (saveTasks s)).1 conf =
      (leftSecs s conf (srv conf) ++
        newSections (fresh conf) (leftSecs s conf (srv conf)) (createdSecs s conf)).map
          fun x => x.changed (s.changes.at conf x.name) := by
  rw [exec_fst, filter_saveTasks, execOn_append, execOn_append,
    execOn_sets Table.nodup_row]
  dsimp only
  rw [execOn_deletes Table.nodup_row]
  simp only [Table.entryOf_row]
  change List.map _ (execOn (fresh conf) (leftSecs s conf (srv conf)) _).1 = _
  rw [execOn_adds hfree]

/-- Without deletions, the answer to each new section is assigned to it. -/
theorem renamedCreates_eq (hnone : s.deletes.flat = []) :
    renamedCreates s (exec fresh srv (saveTasks s)).2 =
      List.zipWith (fun e a => (e.1, { e.2.2 with name := a })) s.creates.flat
        (exec fresh srv
          (s.creates.flat.map fun e => .add e.1 e.2.2.type e.2.2.create e.2.2.opts)).2 := by
  have htasks : saveTasks s =
      s.creates.flat.map (fun e => .add e.1 e.2.2.type e.2.2.create e.2.2.opts) ++
        s.changes.flat.map fun e => .set e.1 e.2.1 e.2.2 := by
    rw [saveTasks, hnone]
    rfl
  rw [htasks, exec_append]
  have hlength := @length_exec_snd fresh srv
    (s.creates.flat.map fun e => .add e.1 e.2.2.type e.2.2.create e.2.2.opts)
  rw [List.length_map] at hlength
  unfold renamedCreates
  refine List.ext_getElem (by simp [hlength]) fun i hi hi' => ?_
  have hi₁ : i < s.creates.flat.length := by simpa using hi
  simp [List.getElem?_append_left (hlength ▸ hi₁), List.getElem?_eq_getElem (hlength ▸ hi₁)]

/-- The new sections under the names that the server answered, when nothing was deleted. -/
theorem renamed_row (hnone : s.deletes.flat = [])
    (hfree : Free (fresh conf) (srv conf) (createdSecs s conf)) :
    ((renamedCreates s (exec fresh srv (saveTasks s)).2).filter (·.1 = conf)).map (·.2) =
      List.zipWith (fun x y => { x with name := some y.name }) (createdSecs s conf)
        (newSections (fresh conf) (srv conf) (createdSecs s conf)) := by
  have hlength := @length_exec_snd fresh srv
    (s.creates.flat.map fun e => .add e.1 e.2.2.type e.2.2.create e.2.2.opts)
  rw [List.length_map] at hlength
  -- the answers to the calls of the configuration are the names of its new sections
  have hanswers := @exec_snd fresh srv conf
    (s.creates.flat.map fun e => .add e.1 e.2.2.type e.2.2.create e.2.2.opts)
  rw [filter_calls fun _ => rfl, List.zip_map_left, List.filter_map, List.map_map] at hanswers
  have hadds := @execOn_adds (fresh conf) conf _ _ hfree
  rw [createdSecs, List.map_map] at hadds
  have hfilter := filter_zipWith
    (f := fun (e : JsString × JsString × Sec) (a : Option JsString) =>
      (e.1, ({ e.2.2 with name := a } : Sec)))
    (p := fun e => e.1 = conf) (q := fun e => e.1 = conf) (fun _ _ => rfl) s.creates.flat _
    hlength.symm
  rw [renamedCreates_eq hnone, hfilter, Table.filter_flat]
  refine (congrArg _ (congrArg _ (hanswers.trans (congrArg Prod.snd hadds)))).trans ?_
  rw [List.map_zipWith, List.zipWith_map, createdSecs, List.zipWith_map_left]

/-- At most one call for each configuration. -/
theorem filter_filterMap_conf {L : List JsString} (hL : L.Nodup) {g : JsString → Option Rpc}
    (hg : ∀ c r, g c = some r → r.conf = c) :
    (L.filterMap g).filter (·.conf = conf) = if conf ∈ L then (g conf).toList else [] := by
  induction L with
  | nil => rfl
  | cons c L ih =>
    obtain ⟨hnot, hL'⟩ := List.nodup_cons.mp hL
    have hrest := ih hL'
    by_cases hc : c = conf
    · -- the rest of the loop is about other configurations
      subst hc
      rw [if_neg hnot] at hrest
      rw [if_pos List.mem_cons_self]
      cases hgc : g c with
      | none => rwa [List.filterMap_cons_none hgc]
      | some r =>
        rw [List.filterMap_cons_some hgc, List.filter_cons_of_pos (by simpa using hg c r hgc), hrest]
        rfl
    · have hmem : conf ∈ c :: L ↔ conf ∈ L := by simp [Ne.symm hc]
      rw [if_congr hmem rfl rfl, ← hrest]
      cases hgc : g c with
      | none => rw [List.filterMap_cons_none hgc]
      | some r =>
        rw [List.filterMap_cons_some hgc, List.filter_cons_of_neg]
        simpa [hg c r hgc] using hc

/-- What `reorderSections` sorts in a configuration. -/
def gathered (s : State) (responses : List (Option JsString)) (conf : JsString) : List Sec :=
  ((renamedCreates s responses).filter (·.1 = conf)).map (·.2) ++ (s.values.row conf).map (·.2)

theorem filter_reorderTasks (s : State) (responses : List (Option JsString)) (conf : JsString) :
    (reorderTasks s responses).filter (·.conf = conf) =
      if conf ∈ s.reorder.keys ∧ s.deletes.get? conf = none ∧ gathered s responses conf ≠ [] then
        [.order conf ((sortByIndex (gathered s responses conf)).map (·.name))]
      else [] := by
  unfold reorderTasks
  rw [filter_filterMap_conf s.reorder.nodup_keys]
  · change (if conf ∈ s.reorder.keys then (if (s.deletes.get? conf).isSome then none
        else if gathered s responses conf = [] then none
        else some (Rpc.order conf ((sortByIndex (gathered s responses conf)).map (·.name)))).toList
      else []) = _
    by_cases hmem : conf ∈ s.reorder.keys
    · cases hd : s.deletes.get? conf with
      | some d => simp [hmem]
      | none =>
        by_cases hnil : gathered s responses conf = []
        · simp [hmem, hnil]
        · simp [hmem, hnil]
    · simp [hmem]
  · intro c r hr
    simp only [Option.ite_none_left_eq_some] at hr
    rw [← Option.some.inj hr.2.2]
    rfl

/-- Without new sections there is nothing to rename. -/
theorem filter_renamedCreates_of_nil (hnil : createdSecs s conf = [])
    (responses : List (Option JsString)) :
    (renamedCreates s responses).filter (·.1 = conf) = [] := by
  have hrow : s.creates.flat.filter (·.1 = conf) = [] := by
    rw [Table.filter_flat, List.map_eq_nil_iff.mp hnil]
    rfl
  refine List.filter_eq_nil_iff.mpr fun e he hconf => ?_
  obtain ⟨⟨d, i⟩, hd, rfl⟩ := List.mem_map.mp he
  have hmem : d ∈ s.creates.flat := by
    rw [← List.zipIdx_map_fst 0 s.creates.flat]
    exact List.mem_map_of_mem hd
  have hfound := (List.mem_filter (p := fun e => decide (e.1 = conf))).mpr ⟨hmem, hconf⟩
  rw [hrow] at hfound
  exact absurd hfound (by simp)

end Calls

/-- `sections` lists something in a configuration that was reordered. -/
def Requested (s : State) (conf : JsString) : Prop :=
  conf ∈ s.reorder.keys ∧ ∃ sid, s.creates.at conf sid ≠ none ∨
    s.values.at conf sid ≠ none ∧ s.deletes.at conf sid ≠ some .all

/-- The loaded sections that are not deleted, in the order of the server. -/
def liveSecs (s : State) (conf : JsString) (l : List SrvSec) : List Sec :=
  l.filterMap fun z => if markedAll (s.deletes.at conf z.name) then none
    else s.values.at conf z.name

/-- The states in which `save` says everything about a configuration that was loaded as `l`, and
reads the answers for what they are. -/
structure Ready (s : State) (conf : JsString) (l : List SrvSec) : Prop where
  /-- A loaded section does not have an option that is marked for deletion. -/
  noneDeleting : ∀ sid x opt, s.values.at conf sid = some x →
    changed (s.changes.at conf sid) opt = none → deleting (s.deletes.at conf sid) opt = true →
    x.opts.get? opt = none
  /-- A loaded section has every option of the server about which nothing is pending. -/
  noneMissing : ∀ z ∈ l, ∀ x opt, s.values.at conf z.name = some x →
    s.deletes.at conf z.name ≠ some .all → changed (s.changes.at conf z.name) opt = none →
    deleting (s.deletes.at conf z.name) opt = false → x.opts.get? opt = none →
    z.opts.get? opt = none
  /-- New sections do not have the name of a loaded one that is not deleted. -/
  apart : ∀ sid, s.creates.at conf sid ≠ none →
    s.values.at conf sid = none ∨ s.deletes.at conf sid = some .all
  /-- A new section that is to have a name is listed under it. -/
  named : ∀ sid y, s.creates.at conf sid = some y →
    y.create.getD [] = [] ∨ y.create = some sid
  /-- Nothing is deleted in a configuration that was reordered. -/
  reordered : Requested s conf → s.deletes.get? conf = none
  /-- Nothing is deleted anywhere when new sections are to be ordered. -/
  answered : Requested s conf → createdSecs s conf ≠ [] → s.deletes.flat = []
  /-- The numbers tell new sections from loaded ones when they are to be ordered. -/
  ranked : Requested s conf → ∀ x ∈ (s.values.row conf).map (·.2), ∀ y ∈ createdSecs s conf,
    y.index ≠ x.index
  /-- Otherwise the numbers have the order in which the server has the loaded sections and is sent
  the new ones. -/
  inOrder : ¬ Requested s conf →
    (liveSecs s conf l).Pairwise (fun x y => x.index < y.index) ∧
      (createdSecs s conf).Pairwise (fun x y => x.index ≤ y.index) ∧
      ∀ x ∈ liveSecs s conf l, ∀ y ∈ createdSecs s conf, x.index ≤ y.index

/-- A section of the local view and one of the server agree: the type, all options, and the name,
unless the section was created without one. -/
structure Same (s : State) (conf : JsString) (x : Sec) (y : SrvSec) : Prop where
  type : y.type = x.type
  opts : ∀ opt, y.opts.get? opt = x.opts.get? opt
  name : x.name = some y.name ∨
    ∃ sid z, s.creates.at conf sid = some z ∧ z.name = x.name ∧ z.create.getD [] = []

/-- What the local view showed of a configuration is on the server, in its order, under distinct
names, and a reordering that was requested went into an order call with these names. -/
structure Saved (s : State) (conf : JsString) (l : List SrvSec) (calls : List Rpc) : Prop where
  same : List.Forall₂ (Same s conf) (sections s conf none) l
  apart : (l.map (·.name)).Nodup
  ordered : Requested s conf →
    calls.filter (·.conf = conf) = [.order conf (l.map fun y => some y.name)]

section Pairs

variable {s : State} {conf sid : JsString} {l : List SrvSec} {v : JsObject Sec}

/-- The listed section under a name, with what the server has there after the first calls. -/
def pairOf (s : State) (conf : JsString) (l : List SrvSec) (sid : JsString) :
    Option (Sec × SrvSec) :=
  (l.find? (·.name = sid)).bind fun z => (z.cut (s.deletes.at conf sid)).bind fun y =>
    (s.values.at conf sid).map fun x =>
      (overlay x (s.changes.at conf sid), y.changed (s.changes.at conf sid))

theorem find?_name (hl : (l.map (·.name)).Nodup) {z : SrvSec} (hz : z ∈ l) :
    l.find? (·.name = z.name) = some z := by
  induction l with
  | nil => simp at hz
  | cons a l ih =>
    obtain ⟨hnot, hl'⟩ := List.nodup_cons.mp hl
    rcases List.mem_cons.mp hz with rfl | hz'
    · exact List.find?_cons_of_pos (by simp)
    · rw [List.find?_cons_of_neg, ih hl' hz']
      intro hname
      exact hnot (List.mem_map.mpr ⟨z, hz', (of_decide_eq_true hname).symm⟩)

/-- A loaded section and the section that it was loaded from. -/
theorem LoadsConf.base_of_mem (h : LoadsConf l s conf) (hl : (l.map (·.name)).Nodup) {z : SrvSec}
    (hz : z ∈ l) : ∃ x, s.values.at conf z.name = some x ∧ x.name = some z.name ∧
      x.type = z.type := by
  have hcell := h.cells z.name
  rw [find?_name hl hz] at hcell
  obtain ⟨x, hx⟩ := Option.isSome_iff_exists.mp hcell.found
  exact ⟨x, hx, hcell.same x z hx rfl⟩

/-- The keys of the table are the names of the server, in some order. -/
theorem LoadsConf.keys_perm (h : LoadsConf l s conf) (hl : (l.map (·.name)).Nodup)
    (hv : s.values.get? conf = some v) : v.keys.Perm (l.map (·.name)) := by
  refine (List.perm_ext_iff_of_nodup v.nodup hl).mpr fun sid => ?_
  have hfound : (v.get? sid).isSome = (l.find? (·.name = sid)).isSome := by
    have hcell := (h.cells sid).found
    rwa [State.cell_base, Table.at, hv] at hcell
  change sid ∈ v.keys ↔ _
  rw [JsObject.mem_keys_iff, ← Option.isSome_iff_exists, hfound, List.find?_isSome, List.mem_map]
  simp

/-- The listed sections are the first parts of the pairs. -/
theorem shown_eq (h : LoadsConf l s conf) (hv : s.values.get? conf = some v) :
    shown s conf v = (v.keys.filterMap (pairOf s conf l)).map (·.1) ++ createdSecs s conf := by
  unfold shown
  congr 1
  rw [List.map_filterMap, JsObject.keys, List.filterMap_map, ← List.filterMap_eq_map,
    List.filterMap_filter]
  refine List.filterMap_congr fun e he => ?_
  have hx : s.values.at conf e.1 = some e.2 := by
    rw [Table.at, hv, Option.bind_some]
    exact JsObject.get?_eq_some_iff.mpr he
  have hcell := (h.cells e.1).found
  rw [State.cell_base, hx] at hcell
  obtain ⟨z, hz⟩ := Option.isSome_iff_exists.mp hcell.symm
  simp only [Function.comp_apply, pairOf, hx, hz, Option.bind_some]
  rcases s.deletes.at conf e.1 with - | - | d <;> rfl

/-- What is left on the server are the second parts of the pairs. -/
theorem map_leftSecs (h : LoadsConf l s conf) (hl : (l.map (·.name)).Nodup) :
    (leftSecs s conf l).map (fun x => x.changed (s.changes.at conf x.name)) =
      ((l.map (·.name)).filterMap (pairOf s conf l)).map (·.2) := by
  rw [leftSecs, List.map_filterMap, List.map_filterMap, List.filterMap_map]
  refine List.filterMap_congr fun z hz => ?_
  obtain ⟨x, hx, -, -⟩ := h.base_of_mem hl hz
  simp only [Function.comp_apply, pairOf, hx, find?_name hl hz, Option.bind_some]
  cases hcut : z.cut (s.deletes.at conf z.name) with
  | none => rfl
  | some y =>
    rw [Option.map_some, SrvSec.name_cut hcut]
    rfl

/-- The numbers in the pairs are those of the sections that are not deleted. -/
theorem map_liveSecs (h : LoadsConf l s conf) (hl : (l.map (·.name)).Nodup) :
    (liveSecs s conf l).map (·.index) =
      ((l.map (·.name)).filterMap (pairOf s conf l)).map (·.1.index) := by
  rw [liveSecs, List.map_filterMap, List.map_filterMap, List.filterMap_map]
  refine List.filterMap_congr fun z hz => ?_
  obtain ⟨x, hx, -, -⟩ := h.base_of_mem hl hz
  simp only [Function.comp_apply, pairOf, hx, find?_name hl hz, Option.bind_some]
  rcases s.deletes.at conf z.name with - | - | d <;> rfl

/-- The options of a section after the deletions of its entry. -/
theorem get?_cut {z y : SrvSec} {d : Option Del} (h : z.cut d = some y) (opt : JsString) :
    y.opts.get? opt = if deleting d opt then none else z.opts.get? opt := by
  rcases d with - | - | o
  · rw [← Option.some.inj h]
    rfl
  · exact absurd h (by simp [SrvSec.cut])
  · rw [← Option.some.inj h]
    refine (JsObject.get?_foldl_del ..).trans ?_
    have hkeys : opt ∈ o.keys ↔ deleting (some (.opts o)) opt = true := by
      rw [JsObject.mem_keys_iff, deleting, Option.isSome_iff_exists]
    by_cases hmem : opt ∈ o.keys
    · rw [if_pos hmem, if_pos (hkeys.mp hmem)]
    · rw [if_neg hmem, if_neg (mt hkeys.mpr hmem)]

theorem get?_changed {y : SrvSec} {c : Option (JsObject Val)} (opt : JsString) :
    (y.changed c).opts.get? opt = (changed c opt).or (y.opts.get? opt) := by
  cases c with
  | none => rfl
  | some c => exact JsObject.get?_foldl_set c y.opts opt

/-- In a ready state, the two parts of a pair agree. -/
theorem Ready.same_of_pairOf (hready : Ready s conf l) (h : LoadsConf l s conf) {p : Sec × SrvSec} (hp : pairOf s conf l sid = some p) :
    Same s conf p.1 p.2 ∧ p.1.name = some sid ∧ p.2.name = sid := by
  obtain ⟨z, hz, hrest⟩ := Option.bind_eq_some_iff.mp hp
  obtain ⟨y, hy, hrest⟩ := Option.bind_eq_some_iff.mp hrest
  obtain ⟨x, hx, rfl⟩ := Option.map_eq_some_iff.mp hrest
  have hzname : z.name = sid := by simpa using List.find?_some hz
  have hmem : z ∈ l := List.mem_of_find?_eq_some hz
  obtain ⟨hxname, hxtype⟩ := (h.cells sid).same x z hx hz
  have hall : s.deletes.at conf sid ≠ some .all := by
    intro hall
    rw [hall] at hy
    exact absurd hy (by simp [SrvSec.cut])
  have hyname : (y.changed (s.changes.at conf sid)).name = sid := by
    rw [SrvSec.name_changed, SrvSec.name_cut hy, hzname]
  have htype : y.type = z.type := by
    rcases hd : s.deletes.at conf sid with - | - | d
    · rw [hd] at hy
      rw [← Option.some.inj hy]
    · exact absurd hd hall
    · rw [hd] at hy
      rw [← Option.some.inj hy]
  refine ⟨⟨?_, fun opt => ?_, Or.inl ?_⟩, hxname, hyname⟩
  · change (y.changed _).type = x.type
    rw [hxtype, ← htype]
    cases s.changes.at conf sid <;> rfl
  · change (y.changed _).opts.get? opt = (overlay x _).opts.get? opt
    rw [get?_changed, get?_overlay, get?_cut hy]
    -- only options without a pending change can differ
    cases hchanged : changed (s.changes.at conf sid) opt with
    | some w => rfl
    | none =>
      rw [Option.none_or, Option.none_or]
      cases hdeleting : deleting (s.deletes.at conf sid) opt with
      | true => exact (hready.noneDeleting sid x opt hx hchanged hdeleting).symm
      | false =>
        rw [if_neg (by simp)]
        cases hget : x.opts.get? opt with
        | none =>
          subst hzname
          exact hready.noneMissing z hmem x opt hx hall hchanged hdeleting hget
        | some w => exact (h.cells sid).options x z opt w hx hz hall hchanged hdeleting hget
  · rw [hyname]
    exact hxname

end Pairs

/-- The names that the server chooses are new, and nobody asks for them. -/
structure Fresh (fresh : JsString → List SrvSec → JsString) (s : State) : Prop where
  chosen : ∀ conf l, fresh conf l ∉ l.map (·.name)
  others : ∀ conf l sid y, s.creates.at conf sid = some y → fresh conf l ≠ y.create.getD []

section Saving

variable {fresh : JsString → List SrvSec → JsString} {srv : Server} {s : State} {conf : JsString}
  {l : List SrvSec} {v : JsObject Sec}

theorem mem_createdSecs {y : Sec} : y ∈ createdSecs s conf ↔ ∃ sid, s.creates.at conf sid = some y := by
  simp [createdSecs, Table.mem_row_iff]

theorem nodup_leftSecs (hl : (l.map (·.name)).Nodup) : ((leftSecs s conf l).map (·.name)).Nodup := by
  refine hl.sublist ?_
  clear hl
  unfold leftSecs
  induction l with
  | nil => exact .slnil
  | cons z l ih =>
    cases hcut : z.cut (s.deletes.at conf z.name) with
    | none =>
      rw [List.filterMap_cons, hcut]
      exact ih.cons _
    | some y =>
      rw [List.filterMap_cons, hcut, List.map_cons, List.map_cons, SrvSec.name_cut hcut]
      exact ih.cons_cons _

/-- What is left on the server was loaded and is not deleted. -/
theorem LoadsConf.live_of_mem (h : LoadsConf l s conf) (hl : (l.map (·.name)).Nodup)
    {sid : JsString} (hsid : sid ∈ (leftSecs s conf l).map (·.name)) :
    s.values.at conf sid ≠ none ∧ s.deletes.at conf sid ≠ some .all := by
  obtain ⟨y, hy, rfl⟩ := List.mem_map.mp hsid
  obtain ⟨z, hz, hcut⟩ := List.mem_filterMap.mp hy
  obtain ⟨x, hx, -, -⟩ := h.base_of_mem hl hz
  rw [SrvSec.name_cut hcut, hx]
  refine ⟨by simp, fun hall => ?_⟩
  rw [hall] at hcut
  exact absurd hcut (by simp [SrvSec.cut])

theorem mem_leftSecs_of_live (h : LoadsConf l s conf) {sid : JsString}
    (hx : s.values.at conf sid ≠ none) (hd : s.deletes.at conf sid ≠ some .all) :
    sid ∈ (leftSecs s conf l).map (·.name) := by
  have hfound := (h.cells sid).found
  rw [State.cell_base, Option.isSome_iff_ne_none.mpr hx] at hfound
  obtain ⟨z, hz⟩ := Option.isSome_iff_exists.mp hfound.symm
  have hname : z.name = sid := by simpa using List.find?_some hz
  subst hname
  obtain ⟨y, hy⟩ : ∃ y, z.cut (s.deletes.at conf z.name) = some y := by
    rcases hdel : s.deletes.at conf z.name with - | - | d
    · exact ⟨_, rfl⟩
    · exact absurd hdel hd
    · exact ⟨_, rfl⟩
  exact List.mem_map.mpr ⟨y, List.mem_filterMap.mpr ⟨z, List.mem_of_find?_eq_some hz, hy⟩,
    SrvSec.name_cut hy⟩

/-- In a ready state the names of new sections are free. -/
theorem Ready.free (hready : Ready s conf l) (h : LoadsConf l s conf)
    (hl : (l.map (·.name)).Nodup) (hfresh : Fresh fresh s) :
    Free (fresh conf) (leftSecs s conf l) (createdSecs s conf) where
  asked := by
    intro x hx hasked hmem
    obtain ⟨sid, hsid⟩ := mem_createdSecs.mp hx
    have hcreate := (hready.named sid x hsid).resolve_left hasked
    rw [hcreate] at hmem
    obtain ⟨hbase, hlive⟩ := h.live_of_mem hl hmem
    rcases hready.apart sid (by rw [hsid]; simp) with hnone | hall
    · exact hbase hnone
    · exact hlive hall
  distinct := by
    have hrow : (s.creates.row conf).Pairwise fun e d => e.1 ≠ d.1 :=
      List.pairwise_map.mp Table.nodup_row
    refine List.pairwise_map.mpr (hrow.imp_of_mem fun {e d} he hd hne hasked hsame => hne ?_)
    have hcreate := (hready.named e.1 e.2 (Table.mem_row_iff.mp he)).resolve_left hasked
    have hcreate' := (hready.named d.1 d.2 (Table.mem_row_iff.mp hd)).resolve_left
      (hsame ▸ hasked)
    rw [hcreate, hcreate'] at hsame
    exact hsame
  chosen := hfresh.chosen conf
  others := by
    intro x hx m
    obtain ⟨sid, hsid⟩ := mem_createdSecs.mp hx
    exact hfresh.others conf m sid x hsid

/-- The listed sections with what the server has after the first calls: the loaded ones under the
given names, and the new ones. -/
def pairs (fresh : JsString → List SrvSec → JsString) (s : State) (conf : JsString)
    (l : List SrvSec) (names : List JsString) : List (Sec × SrvSec) :=
  names.filterMap (pairOf s conf l) ++
    (createdSecs s conf).zip
      (newSections (fresh conf) (leftSecs s conf l) (createdSecs s conf))

theorem length_newSections {f : List SrvSec → JsString} (m : List SrvSec) (xs : List Sec) :
    (newSections f m xs).length = xs.length := (forall₂_newSections xs m).length_eq.symm

theorem pairs_perm {names names' : List JsString} (h : names.Perm names') :
    (pairs fresh s conf l names).Perm (pairs fresh s conf l names') :=
  (h.filterMap _).append_right _

/-- The first parts are what `sections` lists. -/
theorem map_fst_pairs (h : LoadsConf l s conf) (hv : s.values.get? conf = some v) :
    (pairs fresh s conf l v.keys).map (·.1) = shown s conf v := by
  rw [shown_eq h hv, pairs, List.map_append]
  congr 1
  exact List.map_fst_zip (by rw [length_newSections])

/-- The second parts are what the server has after the first calls. -/
theorem map_snd_pairs (h : LoadsConf (srv conf) s conf) (hl : ((srv conf).map (·.name)).Nodup)
    (hfree : Free (fresh conf) (leftSecs s conf (srv conf)) (createdSecs s conf)) :
    (pairs fresh s conf (srv conf) ((srv conf).map (·.name))).map (·.2) =
      (exec fresh srv (saveTasks s)).1 conf := by
  rw [exec_saveTasks hfree, pairs, List.map_append, List.map_append, map_leftSecs h hl]
  congr 1
  rw [List.map_snd_zip (by rw [length_newSections])]
  -- no change is pending under the name of a new section
  refine (List.map_id _).symm.trans (List.map_congr_left fun y hy => ?_)
  have hnodup := nodup_newSections hfree (nodup_leftSecs hl)
  rw [List.map_append, List.nodup_append] at hnodup
  have hchanges : s.changes.at conf y.name = none := by
    by_contra hne
    obtain ⟨hbase, hlive⟩ := (h.cells y.name).changes hne
    exact hnodup.2.2 y.name (mem_leftSecs_of_live h hbase hlive) y.name
      (List.mem_map_of_mem hy) rfl
  rw [hchanges]
  rfl

/-- After the first calls, the server has its sections under distinct names. -/
theorem nodup_exec_saveTasks (hl : ((srv conf).map (·.name)).Nodup)
    (hfree : Free (fresh conf) (leftSecs s conf (srv conf)) (createdSecs s conf)) :
    (((exec fresh srv (saveTasks s)).1 conf).map (·.name)).Nodup := by
  rw [exec_saveTasks hfree, List.map_map]
  have hnames : ∀ m : List SrvSec, m.map ((·.name) ∘ fun x : SrvSec =>
      x.changed (s.changes.at conf x.name)) = m.map (·.name) :=
    fun m => List.map_congr_left fun x _ => SrvSec.name_changed
  rw [hnames]
  exact nodup_newSections hfree (nodup_leftSecs hl)

/-- In a ready state, the two parts of every pair agree. -/
theorem Ready.same_of_mem (hready : Ready s conf l) (h : LoadsConf l s conf)
    {names : List JsString} {p : Sec × SrvSec} (hp : p ∈ pairs fresh s conf l names) :
    Same s conf p.1 p.2 := by
  rcases List.mem_append.mp hp with hp | hp
  · obtain ⟨sid, -, hsid⟩ := List.mem_filterMap.mp hp
    exact (hready.same_of_pairOf h hsid).1
  · have hnew := (List.forall₂_iff_zip.mp
      (forall₂_newSections (f := fresh conf) (createdSecs s conf) (leftSecs s conf l))).2 hp
    obtain ⟨htype, hopts, hname⟩ := hnew
    obtain ⟨sid, hsid⟩ := mem_createdSecs.mp (List.of_mem_zip hp).1
    refine ⟨htype, fun opt => by rw [hopts], ?_⟩
    by_cases hasked : p.1.create.getD [] = []
    · exact Or.inr ⟨sid, p.1, hsid, rfl, hasked⟩
    · have hcreate := (hready.named sid p.1 hsid).resolve_left hasked
      refine Or.inl ?_
      rw [hname hasked, hcreate]
      exact (h.cells sid).created p.1 hsid

/-- `sections` shows the first parts of the pairs, sorted by their numbers. -/
theorem sections_eq (h : LoadsConf l s conf) (hv : s.values.get? conf = some v) :
    sections s conf none =
      ((sortOn (·.1.index) (pairs fresh s conf l v.keys)).map (·.1)).mapIdx
        fun i x => { x with index := i } := by
  have hfilter : (shown s conf v).filter (fun x => (none : Option JsString).all
      fun t => t = [] || t = x.type) = shown s conf v := by
    rw [List.filter_eq_self]
    intros
    rfl
  unfold sections
  simp only [hv, hfilter]
  rw [← @map_fst_pairs fresh _ _ _ _ h hv]
  congr 1
  change sortOn (fun x : Sec => x.index) _ = _
  exact map_sortOn _ _

/-- The numbers that `sections` writes into its copies do not matter. -/
theorem forall₂_sections (hready : Ready s conf l) (h : LoadsConf l s conf)
    (hv : s.values.get? conf = some v) :
    List.Forall₂ (Same s conf) (sections s conf none)
      ((sortOn (·.1.index) (pairs fresh s conf l v.keys)).map (·.2)) := by
  rw [@sections_eq fresh _ _ _ _ h hv, List.forall₂_iff_get]
  refine ⟨by simp, fun i hi hi' => ?_⟩
  simp only [List.length_map] at hi'
  have hmem : (sortOn (·.1.index) (pairs fresh s conf l v.keys))[i] ∈
      pairs fresh s conf l v.keys := sortOn_perm.mem_iff.mp (List.getElem_mem hi')
  obtain ⟨htype, hopts, hname⟩ := hready.same_of_mem h hmem
  simp only [List.get_eq_getElem, List.getElem_mapIdx, List.getElem_map]
  exact ⟨htype, hopts, hname⟩

/-- Without deletions, every loaded section is live. -/
theorem at_deletes_of_get? (hd : s.deletes.get? conf = none) (sid : JsString) :
    s.deletes.at conf sid = none := by
  rw [Table.at, hd]
  rfl

/-- Where `sections` lists nothing or no reordering was noted, no order call is made. -/
theorem filter_orderCalls_of_not (h : ¬ Requested s conf) :
    (orderCalls fresh srv s).filter (·.conf = conf) = [] := by
  rw [orderCalls, filter_reorderTasks, if_neg]
  rintro ⟨hmem, hd, hgathered⟩
  refine h ⟨hmem, ?_⟩
  by_cases hnil : createdSecs s conf = []
  · rw [gathered, filter_renamedCreates_of_nil hnil, List.map_nil, List.nil_append] at hgathered
    obtain ⟨x, hx⟩ := List.exists_mem_of_ne_nil _ hgathered
    obtain ⟨e, he, -⟩ := List.mem_map.mp hx
    refine ⟨e.1, Or.inr ⟨?_, ?_⟩⟩
    · rw [Table.mem_row_iff.mp he]
      simp
    · rw [at_deletes_of_get? hd]
      simp
  · obtain ⟨x, hx⟩ := List.exists_mem_of_ne_nil _ hnil
    obtain ⟨sid, hsid⟩ := mem_createdSecs.mp hx
    exact ⟨sid, Or.inl (by rw [hsid]; simp)⟩

/-- When the numbers have the order of the server, sorting the view gives that order. -/
theorem sortOn_pairs (h : LoadsConf l s conf) (hl : (l.map (·.name)).Nodup)
    (hv : s.values.get? conf = some v)
    (horder : (liveSecs s conf l).Pairwise (fun x y => x.index < y.index) ∧
      (createdSecs s conf).Pairwise (fun x y => x.index ≤ y.index) ∧
      ∀ x ∈ liveSecs s conf l, ∀ y ∈ createdSecs s conf, x.index ≤ y.index) :
    sortOn (·.1.index) (pairs fresh s conf l v.keys) = pairs fresh s conf l (l.map (·.name)) := by
  obtain ⟨hlive, hcreated, hcross⟩ := horder
  have hfst : ((createdSecs s conf).zip
      (newSections (fresh conf) (leftSecs s conf l) (createdSecs s conf))).map (·.1) =
      createdSecs s conf := List.map_fst_zip (by rw [length_newSections])
  refine sortOn_append_eq ((h.keys_perm hl hv).filterMap _) ?_ ?_ ?_
  · have hindex := List.pairwise_map.mpr hlive
    rw [map_liveSecs h hl] at hindex
    exact List.pairwise_map.mp hindex
  · rw [← hfst] at hcreated
    have hindex := List.pairwise_map.mp hcreated
    exact hindex
  · intro p hp q hq
    have hindex : p.1.index ∈ (liveSecs s conf l).map (·.index) := by
      rw [map_liveSecs h hl]
      exact List.mem_map.mpr ⟨p, hp, rfl⟩
    obtain ⟨x, hx, hxp⟩ := List.mem_map.mp hindex
    rw [← hxp]
    exact hcross x hx q.1 (hfst ▸ List.mem_map_of_mem hq)

/-- A call that lists all sections puts them in its order. -/
theorem run_order {f : List SrvSec → JsString} {m n : List SrvSec} (hm : (m.map (·.name)).Nodup)
    (hperm : n.Perm m) :
    ((Rpc.order conf (n.map fun y => some y.name)).run f m).1 = n := by
  have hfind : (n.map fun y => some y.name).filterMap
      (fun sid => m.find? fun x => some x.name = sid) = n := by
    rw [List.filterMap_map]
    refine (List.filterMap_congr fun y hy => ?_).trans List.filterMap_some
    rw [Function.comp_apply]
    simp only [Option.some.injEq]
    exact find?_name hm (hperm.mem_iff.mp hy)
  have hrest : m.filter (fun x => some x.name ∉ n.map fun y => some y.name) = [] := by
    refine List.filter_eq_nil_iff.mpr fun x hx => ?_
    have hmem : some x.name ∈ n.map fun y => some y.name :=
      List.mem_map.mpr ⟨x, hperm.mem_iff.mpr hx, rfl⟩
    simpa using hmem
  change _ ++ _ = n
  rw [hfind, hrest, List.append_nil]

/-- The numbers and names that `reorderSections` gathers, when nothing was deleted and the answers
are those to the new sections. -/
theorem map_gathered (hready : Ready s conf (srv conf)) (h : LoadsConf (srv conf) s conf)
    (hv : s.values.get? conf = some v) (hrequested : Requested s conf)
    (hfree : Free (fresh conf) (leftSecs s conf (srv conf)) (createdSecs s conf)) :
    (gathered s (exec fresh srv (saveTasks s)).2 conf).map (fun x => (x.index, x.name)) =
      ((createdSecs s conf).zip
          (newSections (fresh conf) (leftSecs s conf (srv conf)) (createdSecs s conf)) ++
        v.keys.filterMap (pairOf s conf (srv conf))).map
          fun p => (p.1.index, some p.2.name) := by
  have hd := at_deletes_of_get? (hready.reordered hrequested)
  have hleft : leftSecs s conf (srv conf) = srv conf := by
    unfold leftSecs
    simp only [hd]
    exact List.filterMap_some
  rw [gathered, List.map_append, List.map_append]
  congr 1
  · by_cases hnil : createdSecs s conf = []
    · rw [filter_renamedCreates_of_nil hnil, hnil]
      rfl
    · rw [hleft] at hfree ⊢
      rw [renamed_row (hready.answered hrequested hnil) hfree, List.map_zipWith]
      exact (List.map_zip_eq_zipWith
        (f := fun p : Sec × SrvSec => (p.1.index, some p.2.name))).symm
  · -- nothing is deleted, so every loaded section is in a pair
    have hrow : s.values.row conf = v.entries := by
      rw [Table.row, hv]
      rfl
    rw [hrow, List.map_map, JsObject.keys, List.filterMap_map, List.map_filterMap,
      ← List.filterMap_eq_map]
    refine List.filterMap_congr fun e he => ?_
    have hx : s.values.at conf e.1 = some e.2 := by
      rw [Table.at, hv, Option.bind_some]
      exact JsObject.get?_eq_some_iff.mpr he
    have hcell := (h.cells e.1).found
    rw [State.cell_base, hx] at hcell
    obtain ⟨z, hz⟩ := Option.isSome_iff_exists.mp hcell.symm
    have hname : z.name = e.1 := by simpa using List.find?_some hz
    simp only [Function.comp_apply, pairOf, hx, hz, hd, Option.bind_some, SrvSec.cut,
      Option.map_some, SrvSec.name_changed, hname, ((h.cells e.1).same e.2 z hx hz).1]
    rfl

/-- The order call lists the names that the server has, in the order of the view. -/
theorem filter_orderCalls (hready : Ready s conf (srv conf)) (h : LoadsConf (srv conf) s conf)
    (hv : s.values.get? conf = some v) (hrequested : Requested s conf)
    (hfree : Free (fresh conf) (leftSecs s conf (srv conf)) (createdSecs s conf)) :
    (orderCalls fresh srv s).filter (·.conf = conf) =
      [.order conf ((sortOn (·.1.index) (pairs fresh s conf (srv conf) v.keys)).map
        fun p => some p.2.name)] := by
  have hd := hready.reordered hrequested
  have hgathered := @map_gathered fresh _ _ _ _ hready h hv hrequested hfree
  -- something is listed, so something is gathered
  have hne : gathered s (exec fresh srv (saveTasks s)).2 conf ≠ [] := by
    intro hnil
    rw [hnil, List.map_nil, eq_comm, List.map_eq_nil_iff, List.append_eq_nil_iff,
      List.zip_eq_nil_iff] at hgathered
    obtain ⟨hnone, hbase⟩ := hgathered
    have hcreated : createdSecs s conf = [] := by
      rcases hnone with hnone | hnone
      · exact hnone
      · have hlength := length_newSections (f := fresh conf) (leftSecs s conf (srv conf))
          (createdSecs s conf)
        rw [hnone] at hlength
        exact List.length_eq_zero_iff.mp hlength.symm
    have hshown := shown_eq h hv
    rw [hbase, hcreated, List.map_nil, List.append_nil] at hshown
    obtain ⟨-, sid, hsid | ⟨hx, hlive⟩⟩ := hrequested
    · obtain ⟨y, hy⟩ := Option.ne_none_iff_exists'.mp hsid
      have hmem := (mem_shown_iff hv).mpr (Or.inr ⟨sid, hy⟩)
      rw [hshown] at hmem
      exact absurd hmem (by simp)
    · obtain ⟨x, hx⟩ := Option.ne_none_iff_exists'.mp hx
      have hmem := (mem_shown_iff hv).mpr (Or.inl ⟨sid, x, hx, hlive, rfl⟩)
      rw [hshown] at hmem
      exact absurd hmem (by simp)
  -- new and loaded sections change places, which the numbers undo
  have hcomm : sortOn (·.1.index) ((createdSecs s conf).zip
        (newSections (fresh conf) (leftSecs s conf (srv conf)) (createdSecs s conf)) ++
          v.keys.filterMap (pairOf s conf (srv conf))) =
      sortOn (·.1.index) (pairs fresh s conf (srv conf) v.keys) := by
    refine sortOn_append_comm fun p hp q hq => ?_
    obtain ⟨sid, -, hsid⟩ := List.mem_filterMap.mp hq
    obtain ⟨z, -, hrest⟩ := Option.bind_eq_some_iff.mp hsid
    obtain ⟨y, -, hrest⟩ := Option.bind_eq_some_iff.mp hrest
    obtain ⟨x, hx, rfl⟩ := Option.map_eq_some_iff.mp hrest
    exact hready.ranked hrequested x
      (List.mem_map.mpr ⟨(sid, x), Table.mem_row_iff.mpr hx, rfl⟩) p.1 (List.of_mem_zip hp).1
  rw [orderCalls, filter_reorderTasks, if_pos ⟨hrequested.1, hd, hne⟩]
  congr 2
  -- the call depends on numbers and names only
  have hsort : (sortByIndex (gathered s (exec fresh srv (saveTasks s)).2 conf)).map (·.name) =
      (sortOn (·.1) ((gathered s (exec fresh srv (saveTasks s)).2 conf).map
        fun x => (x.index, x.name))).map (·.2) := by
    rw [map_sortOn, List.map_map]
    rfl
  rw [hsort, hgathered, map_sortOn, List.map_map, hcomm]
  rfl

/-- In a ready state, saving leaves the server with what the local view shows. -/
theorem LoadsConf.saved (h : LoadsConf (srv conf) s conf) (hl : ((srv conf).map (·.name)).Nodup)
    (hready : Ready s conf (srv conf)) (hfresh : Fresh fresh s) :
    Saved s conf (save fresh srv s conf) (orderCalls fresh srv s) := by
  obtain ⟨v, hv⟩ := Option.isSome_iff_exists.mp h.table
  have hfree := hready.free h hl hfresh
  have hfirst := map_snd_pairs h hl hfree
  have hperm : ((sortOn (·.1.index) (pairs fresh s conf (srv conf) v.keys)).map (·.2)).Perm
      ((exec fresh srv (saveTasks s)).1 conf) :=
    hfirst ▸ (sortOn_perm.trans (pairs_perm (h.keys_perm hl hv))).map _
  have hnodup := @nodup_exec_saveTasks fresh _ _ _ hl hfree
  have hsaved : save fresh srv s conf =
      (sortOn (·.1.index) (pairs fresh s conf (srv conf) v.keys)).map (·.2) := by
    rw [save, exec_fst]
    by_cases hrequested : Requested s conf
    · rw [filter_orderCalls hready h hv hrequested hfree, execOn_cons]
      change ((Rpc.order conf _).run (fresh conf) _).1 = _
      have hrun := @run_order conf (fresh conf) _ _ hnodup hperm
      rwa [List.map_map] at hrun
    · rw [filter_orderCalls_of_not hrequested, sortOn_pairs h hl hv (hready.inOrder hrequested)]
      exact hfirst.symm
  refine ⟨?_, ?_, fun hrequested => ?_⟩
  · rw [hsaved]
    exact forall₂_sections hready h hv
  · rw [hsaved]
    exact (hperm.map _).nodup_iff.mpr hnodup
  · rw [filter_orderCalls hready h hv hrequested hfree, hsaved, List.map_map]
    rfl

/-- After every run of edits of loaded configurations, saving in a ready state leaves the server
with what the local view showed, and the order calls name the sections as the server does. -/
theorem saved_of_ready {confs : List JsString} (hconfs : confs.Nodup)
    (hsrv : ∀ conf ∈ confs, ((srv conf).map (·.name)).Nodup) (h : EditRuns srv confs s)
    (hconf : conf ∈ confs) (hready : Ready s conf (srv conf)) (hfresh : Fresh fresh s) :
    Saved s conf (save fresh srv s conf) (orderCalls fresh srv s) :=
  (h.loadsConf hconfs hconf (hsrv conf hconf)).saved (hsrv conf hconf) hready hfresh

end Saving

/-- A server with three interfaces. -/
def threeInterfaces : Server := fun conf =>
  if conf = units "network" then
    [⟨units "lan", units "interface", ∅⟩, ⟨units "wan", units "interface", ∅⟩,
      ⟨units "dmz", units "interface", ∅⟩]
  else []

/-- The configuration is loaded. -/
def loadedNetwork : State :=
  loaded ([units "network"].map fun conf => (conf, threeInterfaces conf))

/-- The last interface is moved before the second one. -/
def moveDmz : Edit := .move (units "network") (some (units "dmz")) (some (units "wan")) false

/-- Before that, the first interface is removed. -/
def removeLan : Edit := .remove (units "network") (units "lan")

/-- A name that is longer than all others. -/
def longName (_ : JsString) (l : List SrvSec) : JsString :=
  units "cfg" ++ List.replicate (l.map (·.name.length)).sum 102

theorem length_name_le {x : SrvSec} {l : List SrvSec} (hx : x ∈ l) :
    x.name.length ≤ (l.map (·.name.length)).sum := by
  induction l with
  | nil => simp at hx
  | cons y l ih =>
    rw [List.map_cons, List.sum_cons]
    rcases List.mem_cons.mp hx with rfl | hx'
    · exact Nat.le_add_right _ _
    · exact (ih hx').trans (Nat.le_add_left _ _)

theorem longName_notMem (conf : JsString) (l : List SrvSec) :
    longName conf l ∉ l.map (·.name) := by
  intro hmem
  obtain ⟨x, hx, hname⟩ := List.mem_map.mp hmem
  have hle := length_name_le hx
  have hlength := congrArg List.length hname
  rw [longName, List.length_append, List.length_replicate] at hlength
  have hcfg : (units "cfg").length = 3 := by decide +kernel
  omega

theorem editRuns_moveDmz : EditRuns threeInterfaces [units "network"] (edit loadedNetwork moveDmz) :=
  .next moveDmz (.start rfl) trivial rfl

theorem nodup_threeInterfaces :
    ∀ conf ∈ [units "network"], ((threeInterfaces conf).map (·.name)).Nodup := by
  intro conf hconf
  rw [List.mem_singleton.mp hconf]
  decide +kernel

/-- Without new sections, the view and the server have the same names. -/
theorem names_of_same {s : State} {conf : JsString} (hnone : s.creates = ∅) {m : List Sec}
    {l : List SrvSec} (h : List.Forall₂ (Same s conf) m l) :
    m.map (·.name) = l.map fun y => some y.name := by
  induction h with
  | nil => rfl
  | cons hsame _ ih =>
    rw [List.map_cons, List.map_cons, ih]
    rcases hsame.name with hname | ⟨sid, z, hz, -⟩
    · rw [hname]
    · rw [hnone] at hz
      exact absurd hz (by simp)

/-- After a section was removed, a move is not carried out. -/
theorem not_saved_removeLan : ¬ Saved (edit (edit loadedNetwork removeLan) moveDmz)
    (units "network")
    (save longName threeInterfaces (edit (edit loadedNetwork removeLan) moveDmz) (units "network"))
    (orderCalls longName threeInterfaces (edit (edit loadedNetwork removeLan) moveDmz)) := by
  intro h
  have hnames := names_of_same rfl h.same
  revert hnames
  decide +kernel

theorem saved_of_ready_moveDmz : Saved (edit loadedNetwork moveDmz) (units "network")
    (save longName threeInterfaces (edit loadedNetwork moveDmz) (units "network"))
    (orderCalls longName threeInterfaces (edit loadedNetwork moveDmz)) := by
  have hcreates : (edit loadedNetwork moveDmz).creates = ∅ := rfl
  have hdeletes : (edit loadedNetwork moveDmz).deletes = ∅ := rfl
  have hnew : createdSecs (edit loadedNetwork moveDmz) (units "network") = [] := rfl
  have hrequested : Requested (edit loadedNetwork moveDmz) (units "network") := by
    refine ⟨by decide +kernel, units "lan", Or.inr ⟨?_, ?_⟩⟩
    · exact Option.isSome_iff_ne_none.mp (by decide +kernel)
    · rw [hdeletes]
      simp
  refine saved_of_ready (by decide) nodup_threeInterfaces editRuns_moveDmz (by simp) ?_ ?_
  · exact
      { noneDeleting := fun sid x opt _ _ hdeleting => by
          rw [hdeletes] at hdeleting
          exact absurd hdeleting (by simp [deleting])
        noneMissing := fun z hz _ opt _ _ _ _ _ => by
          have hall : ∀ y ∈ threeInterfaces (units "network"), y.opts.entries = [] := by
            decide +kernel
          rw [JsObject.get?, hall z hz]
          rfl
        apart := fun sid hne => absurd (by rw [hcreates]; rfl) hne
        named := fun sid y hy => by
          rw [hcreates] at hy
          exact absurd hy (by simp)
        reordered := fun _ => rfl
        answered := fun _ hne => absurd hnew hne
        ranked := fun _ x _ y hy => by
          rw [hnew] at hy
          exact absurd hy (by simp)
        inOrder := fun hnot => absurd hrequested hnot }
  · exact
      { chosen := longName_notMem
        others := fun conf l sid y hy => by
          rw [hcreates] at hy
          exact absurd hy (by simp) }

end NeonWrt.Luci.UciJs
