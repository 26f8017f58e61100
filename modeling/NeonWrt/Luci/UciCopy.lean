import NeonWrt.Luci.UciView

/-!
# Cloning and reordering

Reading a whole section and reordering a configuration write pending edits into the
loaded objects. The map of the local view stays what it was, so the view holds in runs
of all edits and reads. What does change is what `clone` copies: it takes the loaded
object, with the pending edits of its source only if they were written into it.
-/

namespace NeonWrt.Luci.UciJs

open Lib

section Objects

variable {c : Cell} {sid : JsString} {f : Option (JsString → Option Val)}

/-- A loaded object gives way to one that shows the same options. -/
theorem Kept.rebased (h : Kept c sid f) {x x' : Sec} (hx : c.base = some x)
    (hname : x'.name = x.name)
    (hshown : shownOption x' c = shownOption x c) :
    Kept { c with base := some x' } sid f := by
  -- only a deletion mark can hide an object that is there
  have hall : c.base = none ∨ c.deletes = some .all → c.deletes = some .all :=
    fun hfree => hfree.resolve_left (by simp [hx])
  cases h with
  | created y hcreated hyname hchanges hfree hf =>
    exact .created y hcreated hyname hchanges (Or.inr (hall hfree)) hf
  | absent hcreated hchanges hfree hf => exact .absent hcreated hchanges (Or.inr (hall hfree)) hf
  | base y hcreated hbase hyname hdeletes hdisjoint hf =>
    obtain rfl : x = y := Option.some.inj (hx.symm.trans hbase)
    exact .base x' hcreated rfl (hname.trans hyname) hdeletes hdisjoint
      (hf.trans (congrArg some hshown.symm))

theorem name_merge {x : Sec} : (c.merge x).name = x.name := by
  unfold Cell.merge
  rcases c.deletes with - | - | d <;> rfl

/-- Merging the pending edits into the loaded object does not change what it shows with them. -/
theorem shownOption_merge {x : Sec} : shownOption (c.merge x) c = shownOption x c := by
  ext1 opt
  unfold shownOption
  rw [Cell.get?_merge]
  cases hchanged : changed c.changes opt with
  | some v =>
    -- the pending change is on top, whatever the object holds
    rw [Option.some_or, Option.some_or]
  | none =>
    rw [Option.none_or, Option.none_or, Option.none_or]
    split_ifs <;> rfl

theorem Kept.renumbered (h : Kept c sid f) {y : Sec} (hy : c.created = some y) (i : ℕ) :
    Kept { c with created := some { y with index := i } } sid f := by
  cases h with
  | created z hz hname hchanges hfree hf =>
    obtain rfl : y = z := Option.some.inj (hy.symm.trans hz)
    exact .created _ rfl hname hchanges hfree hf
  | base z hnone _ _ _ _ _ => exact absurd (hy.symm.trans hnone) (by simp)
  | absent hnone _ _ _ => exact absurd (hy.symm.trans hnone) (by simp)

end Objects

section Steps

variable {s : State} {m : Model} {conf sid : JsString}

theorem Stands.putValue (h : Stands s m) {x x' : Sec} (hx : s.values.at conf sid = some x)
    (hname : x'.name = x.name)
    (hshown : shownOption x' (s.cell conf sid) = shownOption x (s.cell conf sid)) :
    Stands { s with values := s.values.put conf sid x' } m := by
  intro conf' sid'
  have hput := @Table.at_put _ s.values conf conf' sid sid' x' (Table.isSome_get?_of_at hx)
  rw [State.cell, hput]
  split_ifs with hat
  · rw [hat.1, hat.2]
    exact (h conf sid).rebased hx hname hshown
  · exact h conf' sid'

theorem Stands.withCreated (h : Stands s m) {t : Table Sec} {y : Sec}
    {f : Option (JsString → Option Val)} (ht : ∀ conf' sid', t.at conf' sid' =
      if conf' = conf ∧ sid' = sid then some y else s.creates.at conf' sid')
    (hkept : Kept { s.cell conf sid with created := some y } sid f) (n : ℕ) :
    Stands { s with creates := t, newidx := n } (m.update conf sid f) := by
  intro conf' sid'
  rw [State.cell, ht, Model.update]
  split_ifs with hat
  · rw [hat.1, hat.2]
    exact hkept
  · exact h conf' sid'

theorem Model.update_self : m.update conf sid (m conf sid) = m := by
  funext conf' sid'
  unfold Model.update
  split_ifs with hat
  · rw [hat.1, hat.2]
  · rfl

/-- All that a lookup writes is the merged object. -/
theorem lookup_cases : (lookup s conf sid).1 = s ∨ ∃ x, s.values.at conf sid = some x ∧
    (lookup s conf sid).1 = { s with values := s.values.put conf sid (merge s conf sid x) } := by
  unfold lookup
  split_ifs
  · exact Or.inl rfl
  · exact Or.inl rfl
  · cases hx : s.values.at conf sid with
    | none => exact Or.inl rfl
    | some x => exact Or.inr ⟨x, rfl, rfl⟩

/-- What lookups and new indices keep, the last loop of `move` keeps, also where it throws. -/
theorem renumber_rule {P : State → Prop} (hlookup : ∀ s sid, P s → P (lookup s conf sid).1)
    (hset : ∀ s i ref, P s → P (setIndex s conf i ref)) (h : P s) (i : ℕ) (l : List Sec) :
    P (renumber conf s i l).1 := by
  induction l generalizing s i with
  | nil => exact h
  | cons x rest ih =>
    unfold renumber
    cases resolveSID s conf x.name with
    | none => exact h
    | some sid =>
      have hfirst : P (lookup s conf sid).1 := hlookup s sid h
      cases hresult : lookup s conf sid with
      | mk s' ref =>
        rw [hresult] at hfirst
        cases ref with
        | none => simpa only [hresult] using hfirst
        | some ref => simpa only [hresult] using ih (hset s' i ref hfirst) (i + 1)

theorem Stands.lookup (h : Stands s m) : Stands (lookup s conf sid).1 m := by
  rcases lookup_cases with hsame | ⟨x, hx, hput⟩
  · rwa [hsame]
  · rw [hput]
    exact h.putValue hx (name_merge (c := s.cell conf sid)) shownOption_merge

theorem Stands.setIndex (h : Stands s m) (i : ℕ) (ref : Ref) :
    Stands (setIndex s conf i ref) m := by
  cases ref with
  | created sid =>
    unfold UciJs.setIndex
    cases hy : s.creates.at conf sid with
    | none => simpa only [hy] using h
    | some y =>
      simp only [hy]
      have hput := h.withCreated (fun _ _ => Table.at_put (Table.isSome_get?_of_at hy))
        ((h conf sid).renumbered hy i) s.newidx
      rwa [Model.update_self] at hput
  | base sid =>
    unfold UciJs.setIndex
    cases hx : s.values.at conf sid with
    | none => simpa only [hx] using h
    | some x =>
      simp only [hx]
      exact h.putValue hx rfl rfl

theorem Stands.renumber (h : Stands s m) (i : ℕ) (l : List Sec) :
    Stands (renumber conf s i l).1 m :=
  renumber_rule (P := (Stands · m)) (fun _ _ h => h.lookup) (fun _ i ref h => h.setIndex i ref) h i l

/-- A reordering does not change the map, even one that throws halfway. -/
theorem Stands.move (h : Stands s m) (sid1 sid2 : Option JsString) (after : Bool) :
    Stands (move s conf sid1 sid2 after) m := by
  unfold UciJs.move
  split
  · exact h
  · rename_i sa _
    have hrenumber : Stands (UciJs.renumber conf s 0 sa).1 m := h.renumber 0 sa
    cases hresult : UciJs.renumber conf s 0 sa with
    | mk s' found =>
      rw [hresult] at hrenumber
      cases found with
      | false => simpa only [hresult] using hrenumber
      | true =>
        simp only
        exact hrenumber

theorem Stands.askGet (h : Stands s m) (sid opt : Option JsString) :
    Stands (askGet s conf sid opt).1 m := by
  cases opt with
  | some opt => exact h
  | none =>
    change Stands (UciJs.getSection s conf sid).1 m
    unfold UciJs.getSection
    split
    · exact h
    · exact h.lookup

theorem Stands.ask (h : Stands s m) (q : Query) : Stands (ask s q).1 m := by
  cases q with
  | get conf sid opt => exact h.askGet sid opt
  | getFirst conf type opt => exact h.askGet _ opt
  | getBool conf sid opt =>
    have hstate : (UciJs.ask s (.getBool conf sid opt)).1 = (UciJs.askGet s conf sid opt).1 := by
      cases hget : UciJs.askGet s conf sid opt with
      | mk s' a => cases a <;> simp only [UciJs.ask, hget]
    rw [hstate]
    exact h.askGet sid opt
  | sections conf type => exact h
  | resolveSID conf sid => exact h

/-- The options of the object that `clone` copies. -/
def held (s : State) (conf srcsid : JsString) : JsString → Option Val :=
  fun opt => (s.values.at conf srcsid).bind (·.opts.get? opt)

theorem Stands.clone (h : Stands s m) {type srcsid random : JsString} {name : Option JsString}
    {putNext : Bool}
    (hdrawn : Drawn s (.clone conf type srcsid putNext name random))
    (hconf : (s.values.get? conf).isSome) :
    Stands (clone s conf type srcsid putNext name random)
      (m.update conf random (some (held s conf srcsid))) := by
  obtain ⟨v, hv⟩ := Option.isSome_iff_exists.mp hconf
  have hfree : s.values.at conf random = none ∨ s.deletes.at conf random = some .all :=
    Or.inl hdrawn.2
  -- the copy is made before any edit is written, so it has what the object holds now
  have hcopied : held s conf srcsid = ((v.get? srcsid).elim ∅ (·.opts) : JsObject Val).get? := by
    ext1 opt
    unfold held Table.at
    rw [hv, Option.bind_some]
    cases v.get? srcsid <;> rfl
  unfold UciJs.clone
  simp only [hv]
  have hcreated := h.withCreated (t := (Table.ensure s.creates conf).put conf random
      { type := type, name := some random, create := name, index := 1000 + s.newidx,
        opts := (v.get? srcsid).elim ∅ (·.opts) })
    (fun _ _ => Table.at_put_ensure) (.created _ rfl rfl ((h conf random).changes_eq_none hfree)
      hfree (congrArg some hcopied)) (s.newidx + 1)
  cases putNext with
  | false => exact hcreated
  | true => exact hcreated.move _ _ _

end Steps

section Pruned

variable {s : State} {m : Model} {conf sid sid' : JsString}

/-- A name that is not of the form `@type[n]` stands for itself. -/
theorem resolveSID_of_plain (h : parseExtended sid = none) :
    resolveSID s conf (some sid) = some sid := by
  simp only [resolveSID, h]

/-- The loaded object of a section has no option that is marked for deletion. -/
def Pruned (s : State) (conf sid : JsString) : Prop :=
  ∀ x opt, s.values.at conf sid = some x → deleting (s.deletes.at conf sid) opt = true →
    x.opts.get? opt = none

theorem Pruned.of_free (hfree : s.values.at conf sid = none ∨ s.deletes.at conf sid = some .all) :
    Pruned s conf sid := by
  intro x opt hx hmark
  rcases hfree with hnone | hall
  · exact absurd (hx.symm.trans hnone) (by simp)
  · simp [hall, deleting] at hmark

/-- Another object keeps that if it has no marked option. -/
theorem Pruned.putValue (h : Pruned s conf sid') {x x' : Sec} (hx : s.values.at conf sid = some x)
    (hnone : ∀ opt, x.opts.get? opt = none → deleting (s.deletes.at conf sid) opt = true →
      x'.opts.get? opt = none) :
    Pruned { s with values := s.values.put conf sid x' } conf sid' := by
  intro y opt hy hmark
  rw [Table.at_put (Table.isSome_get?_of_at hx)] at hy
  split_ifs at hy with hat
  · obtain rfl := Option.some.inj hy
    rw [hat.2] at h hmark
    exact hnone opt (h x opt hx hmark) hmark
  · exact h y opt hy hmark

theorem get?_merge_of_deleting {x : Sec} {opt : JsString}
    (hmark : deleting (s.deletes.at conf sid) opt = true) :
    (merge s conf sid x).opts.get? opt = none :=
  (Cell.get?_merge (c := s.cell conf sid)).trans (if_pos hmark)

theorem Pruned.lookup (h : Pruned s conf sid') : Pruned (lookup s conf sid).1 conf sid' := by
  rcases lookup_cases with hsame | ⟨x, hx, hput⟩
  · rwa [hsame]
  · rw [hput]
    exact h.putValue hx fun _ _ => get?_merge_of_deleting

theorem Pruned.setIndex (h : Pruned s conf sid') (i : ℕ) (ref : Ref) :
    Pruned (setIndex s conf i ref) conf sid' := by
  unfold UciJs.setIndex
  split
  · split <;> exact h
  · split
    next x hx => exact h.putValue hx fun _ hnone _ => hnone
    next => exact h

theorem Pruned.renumber (h : Pruned s conf sid') (i : ℕ) (l : List Sec) :
    Pruned (renumber conf s i l).1 conf sid' :=
  renumber_rule (P := (Pruned · conf sid')) (fun _ _ h => h.lookup)
    (fun _ i ref h => h.setIndex i ref) h i l

/-- A section of the map is found, and what it had marked is gone then. -/
theorem Stands.pruned_lookup (h : Stands s m) (hsome : (m conf sid).isSome) :
    (UciJs.lookup s conf sid).2.isSome ∧ Pruned (UciJs.lookup s conf sid).1 conf sid := by
  unfold UciJs.lookup
  cases h conf sid with
  | absent _ _ _ hf => simp [hf] at hsome
  | created y hcreated _ _ hfree _ =>
    rw [State.cell_created] at hcreated
    rw [hcreated, Option.isSome_some, if_pos rfl]
    exact ⟨rfl, .of_free hfree⟩
  | base x hcreated hbase _ hdeletes _ _ =>
    rw [State.cell_created] at hcreated
    rw [State.cell_base] at hbase
    rw [State.cell_deletes] at hdeletes
    rw [hcreated, Option.isSome_none, if_neg Bool.false_ne_true,
      if_neg (mt markedAll_eq_true_iff.mp hdeletes), hbase]
    refine ⟨rfl, fun y opt hy hmark => ?_⟩
    rw [Table.at_put (Table.isSome_get?_of_at hbase), if_pos ⟨rfl, rfl⟩] at hy
    obtain rfl := Option.some.inj hy
    exact get?_merge_of_deleting hmark

/-- The last loop of `move` reaches every section of a list that the map has. -/
theorem Stands.pruned_renumber (h : Stands s m) (i : ℕ) (l : List Sec)
    (hl : ∀ x ∈ l, ∃ sid, x.name = some sid ∧ parseExtended sid = none ∧ (m conf sid).isSome) :
    ∀ x ∈ l, ∀ sid, x.name = some sid → Pruned (UciJs.renumber conf s i l).1 conf sid := by
  induction l generalizing s i with
  | nil => simp
  | cons y rest ih =>
    obtain ⟨sid, hname, hplain, hsome⟩ := hl y List.mem_cons_self
    obtain ⟨hfound, hpruned⟩ := h.pruned_lookup hsome
    have hlookup : Stands (UciJs.lookup s conf sid).1 m := h.lookup
    unfold UciJs.renumber
    simp only [hname, resolveSID_of_plain hplain]
    cases hresult : UciJs.lookup s conf sid with
    | mk s' found =>
      rw [hresult] at hfound hpruned hlookup
      obtain ⟨ref, rfl⟩ := Option.isSome_iff_exists.mp hfound
      intro x hx sid' hsid'
      rcases List.mem_cons.mp hx with rfl | hx
      · obtain rfl : sid = sid' := Option.some.inj (hname.symm.trans hsid')
        exact (hpruned.setIndex i ref).renumber (i + 1) rest
      · exact ih (hlookup.setIndex i ref) (i + 1) (fun z hz => hl z (List.mem_cons_of_mem _ hz)) x
          hx sid' hsid'

/-- The list of `move` has the names it began with. -/
theorem map_moved_perm {sa l : List Sec} {sid1 sid2 : Option JsString} {after : Bool}
    (h : moved sa sid1 sid2 after = some l) : (l.map (·.name)).Perm (sa.map (·.name)) := by
  unfold moved at h
  split at h
  · cases h
  next s1 hfind =>
    have hs1 : s1.name = sid1 := by simpa using List.find?_some hfind
    -- what is taken out has the name of what is put back
    have hrest : ((s1 :: sa.eraseP (·.name = sid1)).map (·.name)).Perm (sa.map (·.name)) := by
      obtain ⟨a, l₁, l₂, -, ha, hsa, herase⟩ :=
        List.exists_of_eraseP (List.mem_of_find?_eq_some hfind) (List.find?_some hfind)
      have hname : a.name = s1.name := (of_decide_eq_true ha).trans hs1.symm
      rw [herase, hsa, List.map_cons, List.map_append, List.map_append, List.map_cons, hname]
      exact List.perm_middle.symm
    refine List.Perm.trans (List.Perm.map _ ?_) hrest
    dsimp only at h
    cases sid2 with
    | none =>
      obtain rfl := Option.some.inj h
      exact List.perm_append_singleton _ _
    | some sid2 =>
      dsimp only at h
      split at h
      · cases h
      next i hi =>
        obtain rfl := Option.some.inj h
        have hlt := (List.findIdx?_eq_some_iff_getElem.mp hi).1
        exact List.perm_insertIdx _ _ (by split_ifs <;> omega)

end Pruned

/-- What a user of the module does: an edit, or a read. -/
inductive Act
  | edit (e : Edit)
  | ask (q : Query)

def act (s : State) : Act → State
  | .edit e => edit s e
  | .ask q => (ask s q).1

/-- An act on the map. A copy has the options of the loaded object. -/
def Model.act (s : State) (m : Model) : Act → Model
  | .edit (.clone conf _ srcsid _ _ random) =>
    if (s.values.get? conf).isSome then m.update conf random (some (held s conf srcsid)) else m
  | .edit e => m.edit s e
  | .ask _ => m

/-- The edits that are not plain are free, except that a copy gets a name that is drawn. -/
def FreeAct (s : State) : Act → Prop
  | .edit (.clone conf type srcsid putNext name random) =>
    Drawn s (.clone conf type srcsid putNext name random)
  | .edit (.move _ _ _ _) => True
  | .edit e => PlainEdit s e
  | .ask _ => True

section FullRuns

variable {s : State} {m : Model} {conf srcsid random : JsString}

theorem Stands.act (h : Stands s m) {a : Act} (hfree : FreeAct s a) :
    Stands (act s a) (m.act s a) := by
  cases a with
  | ask q => exact h.ask q
  | edit e =>
    cases e with
    | add conf type name random => exact h.edit (e := .add conf type name random) hfree
    | remove conf sid => exact h.edit (e := .remove conf sid) hfree
    | set conf sid opt val => exact h.edit (e := .set conf sid opt val) hfree
    | move conf sid1 sid2 after => exact h.move sid1 sid2 after
    | clone conf type srcsid putNext name random =>
      unfold UciJs.act Model.act
      by_cases hconf : (s.values.get? conf).isSome
      · simp only [if_pos hconf]
        exact h.clone hfree hconf
      · -- reading the source throws, after the table of new sections was made
        rw [Option.not_isSome_iff_eq_none] at hconf
        simp only [hconf, UciJs.edit, UciJs.clone]
        intro conf' sid'
        have hsame := h conf' sid'
        have hensure : (Table.ensure s.creates conf).at conf' sid' = s.creates.at conf' sid' :=
          Table.at_ensure
        rw [State.cell, ← hensure] at hsame
        exact hsame

/-- Runs of all edits and reads of a loaded state, beside the map. -/
def FullRuns : State × Model → Prop :=
  Reaches (fun p => Loaded p.1 ∧ p.2 = Model.ofState p.1)
    (fun p a q => q = (act p.1 a, p.2.act p.1 a)) fun p a => FreeAct p.1 a

theorem FullRuns.stands {p : State × Model} (h : FullRuns p) : Stands p.1 p.2 :=
  Reaches.invariant (P := fun q => Stands q.1 q.2)
    (fun q hq => by
      rw [hq.2]
      exact hq.1.stands)
    (fun q a q' hq hfree hstep => by
      rw [hstep]
      exact hq.act hfree) h

/-- In every run of edits and reads, reorderings and whole reads leave the map as it is, a copy
adds the loaded object to it, and the reads show the map exactly while no option that is loaded is
marked for deletion. -/
theorem full_view (h : FullRuns (s, m)) (hconf : (s.values.get? conf).isSome) :
    OneView s m conf ↔ NoneDeleting s conf :=
  h.stands.oneView_iff hconf

/-- In every run, a move that finds its sections leaves nothing that is marked for deletion in the
loaded objects, so that all reads show the map behind it. -/
theorem move_view (h : FullRuns (s, m)) (hconf : (s.values.get? conf).isSome)
    (hplain : ∀ sid, (m conf sid).isSome → parseExtended sid = none)
    {sid1 sid2 : Option JsString} {after : Bool} {l : List Sec}
    (hmoved : moved (sections s conf none) (resolveSID s conf sid1) (resolveSID s conf sid2) after =
      some l) : OneView (move s conf sid1 sid2 after) m conf := by
  have hs : Stands s m := h.stands
  have hmove : Stands (move s conf sid1 sid2 after) m := hs.move sid1 sid2 after
  obtain ⟨v, hv⟩ := Option.isSome_iff_exists.mp hconf
  have hnames : (l.map (·.name)).Perm ((shown s conf v).map (·.name)) :=
    (map_moved_perm hmoved).trans (map_sections_perm (fun _ _ => rfl) hv)
  have hl : ∀ x ∈ l, ∃ sid, x.name = some sid ∧ parseExtended sid = none ∧
      (m conf sid).isSome := by
    intro x hx
    obtain ⟨y, hy, hyx⟩ := List.mem_map.mp (hnames.mem_iff.mp (List.mem_map_of_mem hx))
    obtain ⟨sid, hsid, -⟩ := hs.shown_cases hv hy
    have hsome : (m conf sid).isSome := (hs.exists_shown_iff hv).mp ⟨y, hy, hsid⟩
    exact ⟨sid, hyx.symm.trans hsid, hplain sid hsome, hsome⟩
  have hpruned : ∀ sid, (m conf sid).isSome → Pruned (move s conf sid1 sid2 after) conf sid := by
    intro sid hsome
    obtain ⟨y, hy, hname⟩ := (hs.exists_shown_iff hv).mpr hsome
    obtain ⟨x, hx, hxy⟩ := List.mem_map.mp (hnames.mem_iff.mpr (List.mem_map_of_mem hy))
    have hloop := hs.pruned_renumber 0 l hl x hx sid (hxy.trans hname)
    unfold UciJs.move
    simp only [hmoved]
    cases hresult : renumber conf s 0 l with
    | mk s' found =>
      rw [hresult] at hloop
      cases found <;> exact hloop
  refine (hmove.oneView_iff ((steps_move sid1 sid2 after).loaded conf hconf)).mpr ?_
  intro sid x opt _ hx hmark
  cases hmove conf sid with
  | created _ _ _ _ hfree _ => exact Pruned.of_free hfree x opt hx hmark
  | absent _ _ hfree _ => exact Pruned.of_free hfree x opt hx hmark
  | base _ _ _ _ _ _ hf => exact hpruned sid (by rw [hf]; rfl) x opt hx hmark

/-- The loaded object of a section has its pending edits. -/
def Written (s : State) (conf sid : JsString) : Prop :=
  ∀ opt, opt.head? ≠ some 46 →
    (∀ v, changed (s.changes.at conf sid) opt = some v → held s conf sid opt = some v) ∧
      (deleting (s.deletes.at conf sid) opt = true → held s conf sid opt = none)

/-- In every run, a copy of a loaded section shows what its source shows if and only if the edits
of the source have been written into the loaded object. -/
theorem clone_shows_iff (h : FullRuns (s, m)) {type : JsString} {putNext : Bool}
    {name : Option JsString} (hdrawn : Drawn s (.clone conf type srcsid putNext name random))
    (hsrc : parseExtended srcsid = none) (hrandom : parseExtended random = none)
    (hbase : (s.values.at conf srcsid).isSome) (hcreated : s.creates.at conf srcsid = none)
    (hdeletes : s.deletes.at conf srcsid ≠ some .all) :
    (∀ opt, opt.head? ≠ some 46 →
      get (clone s conf type srcsid putNext name random) conf (some random) opt =
        get s conf (some srcsid) opt) ↔ Written s conf srcsid := by
  have hs : Stands s m := h.stands
  obtain ⟨x, hx⟩ := Option.isSome_iff_exists.mp hbase
  have hconf : (s.values.get? conf).isSome := Table.isSome_get?_of_at hx
  have hcopy : Stands (clone s conf type srcsid putNext name random)
      (m.update conf random (some (held s conf srcsid))) := hs.clone hdrawn hconf
  have hheld : held s conf srcsid = x.opts.get? := by
    ext1 opt
    rw [held, hx, Option.bind_some]
  -- the source is kept as a loaded section
  obtain ⟨hdisjoint, hm⟩ : (∀ opt, changed (s.changes.at conf srcsid) opt ≠ none →
      deleting (s.deletes.at conf srcsid) opt = false) ∧
      m conf srcsid = some (shownOption x (s.cell conf srcsid)) := by
    cases hs conf srcsid with
    | created y hy _ _ _ _ => exact absurd (hcreated.symm.trans hy) (by simp)
    | absent _ _ hfree _ =>
      rcases hfree with hnone | hall
      · exact absurd (hx.symm.trans hnone) (by simp)
      · exact absurd hall hdeletes
    | base y _ hy _ _ hdisjoint hf =>
      obtain rfl : x = y := Option.some.inj (hx.symm.trans hy)
      exact ⟨hdisjoint, hf⟩
  have hsides : ∀ opt, opt.head? ≠ some 46 →
      (get (clone s conf type srcsid putNext name random) conf (some random) opt =
        get s conf (some srcsid) opt ↔
      x.opts.get? opt = shownOption x (s.cell conf srcsid) opt) := by
    intro opt hopt
    rw [hcopy.get hopt, hs.get hopt, resolveSID_of_plain hsrc, resolveSID_of_plain hrandom,
      Option.bind_some, Option.bind_some, Model.update, if_pos ⟨rfl, rfl⟩, hm, hheld]
    rfl
  refine forall_congr' fun opt => forall_congr' fun hopt => (hsides opt hopt).trans ?_
  rw [hheld, shownOption, State.cell_changes, State.cell_deletes]
  cases hchanged : changed (s.changes.at conf srcsid) opt with
  | some v =>
    have hmark := hdisjoint opt (by simp [hchanged])
    simp [hmark]
  | none => cases hmark : deleting (s.deletes.at conf srcsid) opt <;> simp

end FullRuns

/-- The interface is copied and the copy put behind it. -/
def cloneLan : Edit :=
  .clone (units "network") (units "interface") (units "lan") true none (units "new00002a")

theorem drawn_cloneLan : Drawn network cloneLan := ⟨rfl, rfl⟩

theorem full_view_cloneLan : OneView (act network (.edit cloneLan))
      ((Model.ofState network).act network (.edit cloneLan)) (units "network") ↔
    NoneDeleting (act network (.edit cloneLan)) (units "network") :=
  full_view (.next (.edit cloneLan) (.start (s := (network, Model.ofState network))
    ⟨loaded_network, rfl⟩) drawn_cloneLan rfl) (by decide +kernel)

theorem clone_shows_iff_lan : (∀ opt, opt.head? ≠ some 46 →
      get (clone network (units "network") (units "interface") (units "lan") true none
        (units "new00002a")) (units "network") (some (units "new00002a")) opt =
        get network (units "network") (some (units "lan")) opt) ↔
    Written network (units "network") (units "lan") :=
  clone_shows_iff (.start (s := (network, Model.ofState network)) ⟨loaded_network, rfl⟩)
    drawn_cloneLan rfl rfl rfl rfl (by simp [network, loaded])

theorem move_view_lan : OneView (move network (units "network") (some (units "lan")) none false)
    (Model.ofState network) (units "network") := by
  refine move_view (.start (s := (network, Model.ofState network)) ⟨loaded_network, rfl⟩)
    (by decide +kernel) (fun sid hsome => ?_) rfl
  by_cases hsid : sid = units "lan"
  · rw [hsid]
    rfl
  · change (((∅ : JsObject Sec).set (units "lan") _).get? sid |>.map _).isSome = true at hsome
    rw [JsObject.get?_set, if_neg hsid] at hsome
    cases hsome

end NeonWrt.Luci.UciJs
