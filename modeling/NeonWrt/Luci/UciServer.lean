import NeonWrt.Luci.UciState

/-!
# What the remote calls do

The server keeps a list of sections for every configuration. This file says what the
four remote calls of `save` do to such a list and what they answer, and works out the
effect of the loops of calls that `save` makes.
-/

namespace NeonWrt.Luci.UciJs

open Lib

/-- The sections of all configurations on the server. -/
abbrev Server := JsString → List SrvSec

/-- The configuration of a call. -/
def Rpc.conf : Rpc → JsString
  | .delete conf _ _ | .add conf _ _ _ | .set conf _ _ | .order conf _ => conf

/-- Options with others assigned over them. -/
def assignAll (values opts : JsObject Val) : JsObject Val :=
  values.entries.foldl (fun o e => o.set e.1 e.2) opts

/-- What a call does to the sections of its configuration, and its answer if that is a section
name. The name of a section that is added without one is the server's choice. The call that orders
sections skips names that the server does not have. -/
def Rpc.run (fresh : List SrvSec → JsString) (l : List SrvSec) : Rpc → List SrvSec × Option JsString
  | .delete _ sid none => (l.filter (·.name ≠ sid), none)
  | .delete _ sid (some opts) =>
    (l.map fun x => if x.name = sid then { x with opts := opts.foldl (·.del ·) x.opts } else x, none)
  | .add _ type name values =>
    if name.getD [] = [] then (l ++ [⟨fresh l, type, values⟩], some (fresh l))
    else if name.getD [] ∈ l.map (·.name) then
      (l.map fun x =>
        if x.name = name.getD [] then ⟨x.name, type, assignAll values x.opts⟩ else x,
        some (name.getD []))
    else (l ++ [⟨name.getD [], type, values⟩], some (name.getD []))
  | .set _ sid values =>
    (l.map fun x => if x.name = sid then { x with opts := assignAll values x.opts } else x, none)
  | .order _ sids =>
    (sids.filterMap (fun sid => l.find? fun x => some x.name = sid) ++
      l.filter (fun x => some x.name ∉ sids), none)

/-- Calls on one configuration. -/
def execOn (fresh : List SrvSec → JsString) :
    List SrvSec → List Rpc → List SrvSec × List (Option JsString)
  | l, [] => (l, [])
  | l, r :: rs =>
    let (l', answer) := r.run fresh l
    let (l'', answers) := execOn fresh l' rs
    (l'', answer :: answers)

/-- Calls on all configurations, with their answers. -/
def exec (fresh : JsString → List SrvSec → JsString) :
    Server → List Rpc → Server × List (Option JsString)
  | srv, [] => (srv, [])
  | srv, r :: rs =>
    let (l, answer) := r.run (fresh r.conf) (srv r.conf)
    let (srv', answers) := exec fresh (Function.update srv r.conf l) rs
    (srv', answer :: answers)

/-- The order calls of `save`, which use the answers to the calls before. -/
def orderCalls (fresh : JsString → List SrvSec → JsString) (srv : Server) (s : State) : List Rpc :=
  reorderTasks s (exec fresh srv (saveTasks s)).2

/-- The server after `save`. -/
def save (fresh : JsString → List SrvSec → JsString) (srv : Server) (s : State) : Server :=
  (exec fresh (exec fresh srv (saveTasks s)).1 (orderCalls fresh srv s)).1

section Exec

variable {fresh : JsString → List SrvSec → JsString} {f : List SrvSec → JsString}
  {srv : Server} {l : List SrvSec} {conf : JsString} {r : Rpc} {rs rs' : List Rpc}

theorem execOn_cons : execOn f l (r :: rs) =
    ((execOn f (r.run f l).1 rs).1, (r.run f l).2 :: (execOn f (r.run f l).1 rs).2) := rfl

theorem execOn_append : execOn f l (rs ++ rs') =
    ((execOn f (execOn f l rs).1 rs').1,
      (execOn f l rs).2 ++ (execOn f (execOn f l rs).1 rs').2) := by
  induction rs generalizing l with
  | nil => rfl
  | cons r rs ih =>
    rw [List.cons_append, execOn_cons, ih, execOn_cons]
    rfl

theorem exec_cons : exec fresh srv (r :: rs) =
    ((exec fresh (Function.update srv r.conf (r.run (fresh r.conf) (srv r.conf)).1) rs).1,
      (r.run (fresh r.conf) (srv r.conf)).2 ::
        (exec fresh (Function.update srv r.conf (r.run (fresh r.conf) (srv r.conf)).1) rs).2) :=
  rfl

theorem exec_append : exec fresh srv (rs ++ rs') =
    ((exec fresh (exec fresh srv rs).1 rs').1,
      (exec fresh srv rs).2 ++ (exec fresh (exec fresh srv rs).1 rs').2) := by
  induction rs generalizing srv with
  | nil => rfl
  | cons r rs ih =>
    rw [List.cons_append, exec_cons, ih, exec_cons]
    rfl

theorem length_exec_snd : (exec fresh srv rs).2.length = rs.length := by
  induction rs generalizing srv with
  | nil => rfl
  | cons r rs ih => rw [exec_cons, List.length_cons, List.length_cons, ih]

/-- A configuration sees its own calls only. -/
theorem exec_fst : (exec fresh srv rs).1 conf =
    (execOn (fresh conf) (srv conf) (rs.filter (·.conf = conf))).1 := by
  induction rs generalizing srv with
  | nil => rfl
  | cons r rs ih =>
    rw [exec_cons, ih]
    by_cases hconf : r.conf = conf
    · subst hconf
      rw [List.filter_cons_of_pos (by simp), execOn_cons, Function.update_self]
    · rw [List.filter_cons_of_neg (by simpa using hconf), Function.update_of_ne (Ne.symm hconf)]

/-- The answers to the calls of a configuration are those it gives on its own. -/
theorem exec_snd : ((rs.zip (exec fresh srv rs).2).filter (·.1.conf = conf)).map (·.2) =
    (execOn (fresh conf) (srv conf) (rs.filter (·.conf = conf))).2 := by
  induction rs generalizing srv with
  | nil => rfl
  | cons r rs ih =>
    rw [exec_cons, List.zip_cons_cons]
    by_cases hconf : r.conf = conf
    · subst hconf
      rw [List.filter_cons_of_pos (by simp), List.filter_cons_of_pos (by simp), List.map_cons, ih,
        execOn_cons, Function.update_self]
    · rw [List.filter_cons_of_neg (by simpa using hconf),
        List.filter_cons_of_neg (by simpa using hconf), ih, Function.update_of_ne (Ne.symm hconf)]

end Exec

section Loops

variable {f : List SrvSec → JsString} {conf : JsString}

/-- The options that a call deletes; none stands for the whole section. -/
def Del.options : Del → Option (List JsString)
  | .all => none
  | .opts o => some o.keys

/-- A section after the deletions of its entry. -/
def SrvSec.cut (x : SrvSec) : Option Del → Option SrvSec
  | some .all => none
  | some (.opts o) => some { x with opts := o.keys.foldl (·.del ·) x.opts }
  | none => some x

/-- A section after the changes of its entry. -/
def SrvSec.changed (x : SrvSec) : Option (JsObject Val) → SrvSec
  | some c => { x with opts := assignAll c x.opts }
  | none => x

theorem SrvSec.name_cut {x y : SrvSec} {d : Option Del} (h : x.cut d = some y) :
    y.name = x.name := by
  rcases d with - | - | o
  · rw [← Option.some.inj h]
  · exact absurd h (by simp [SrvSec.cut])
  · rw [← Option.some.inj h]

@[simp] theorem SrvSec.name_changed {x : SrvSec} {c : Option (JsObject Val)} :
    (x.changed c).name = x.name := by
  cases c <;> rfl

/-- The entry of a key in a list. -/
def entryOf {α : Type} (L : List (JsString × α)) (k : JsString) : Option α :=
  (L.find? (·.1 = k)).map (·.2)

theorem entryOf_cons {α : Type} {e : JsString × α} {L : List (JsString × α)} {k : JsString} :
    entryOf (e :: L) k = if e.1 = k then some e.2 else entryOf L k := by
  unfold entryOf
  by_cases h : e.1 = k
  · rw [if_pos h, List.find?_cons_of_pos (by simpa using h)]
    rfl
  · rw [if_neg h, List.find?_cons_of_neg (by simpa using h)]

theorem entryOf_eq_none {α : Type} {L : List (JsString × α)} {k : JsString}
    (h : k ∉ L.map (·.1)) : entryOf L k = none := by
  unfold entryOf
  rw [Option.map_eq_none_iff, List.find?_eq_none]
  intro e he hk
  exact h (List.mem_map.mpr ⟨e, he, of_decide_eq_true hk⟩)

theorem run_delete (l : List SrvSec) (sid : JsString) (d : Del) :
    ((Rpc.delete conf sid d.options).run f l).1 =
      l.filterMap fun x => if x.name = sid then x.cut (some d) else some x := by
  cases d with
  | all =>
    change l.filter (fun x => decide (x.name ≠ sid)) = _
    rw [← List.filterMap_eq_filter]
    refine List.filterMap_congr fun x _ => ?_
    by_cases h : x.name = sid <;> simp [h, SrvSec.cut, Option.guard]
  | opts o =>
    change l.map (fun x => if x.name = sid then
      { x with opts := o.keys.foldl (·.del ·) x.opts } else x) = _
    rw [← List.filterMap_eq_map]
    refine List.filterMap_congr fun x _ => ?_
    by_cases h : x.name = sid <;> simp [h, SrvSec.cut]

/-- The loop of deletions cuts every section by its entry. -/
theorem execOn_deletes {L : List (JsString × Del)} (hL : (L.map (·.1)).Nodup) (l : List SrvSec) :
    (execOn f l (L.map fun e => .delete conf e.1 e.2.options)).1 =
      l.filterMap fun x => x.cut (entryOf L x.name) := by
  induction L generalizing l with
  | nil => exact (List.filterMap_some).symm
  | cons e L ih =>
    obtain ⟨hnot, hL'⟩ := List.nodup_cons.mp hL
    rw [List.map_cons, execOn_cons, run_delete, ih hL', List.filterMap_filterMap]
    refine List.filterMap_congr fun x _ => ?_
    rw [entryOf_cons]
    by_cases h : x.name = e.1
    · -- no later entry is about the section
      rw [if_pos h, if_pos h.symm]
      cases hcut : x.cut (some e.2) with
      | none => rfl
      | some y =>
        rw [Option.bind_some, SrvSec.name_cut hcut, h, entryOf_eq_none hnot]
        rfl
    · rw [if_neg h, if_neg (Ne.symm h), Option.bind_some]

/-- The loop of changes assigns every section its entry. -/
theorem execOn_sets {L : List (JsString × JsObject Val)} (hL : (L.map (·.1)).Nodup)
    (l : List SrvSec) : (execOn f l (L.map fun e => .set conf e.1 e.2)).1 =
      l.map fun x => x.changed (entryOf L x.name) := by
  induction L generalizing l with
  | nil => exact (List.map_id'' (fun _ => rfl) l).symm
  | cons e L ih =>
    obtain ⟨hnot, hL'⟩ := List.nodup_cons.mp hL
    rw [List.map_cons, execOn_cons, ih hL']
    change (l.map _).map _ = _
    rw [List.map_map]
    refine List.map_congr_left fun x _ => ?_
    simp only [Function.comp_apply, entryOf_cons]
    by_cases h : x.name = e.1
    · rw [if_pos h, if_pos h.symm]
      have hnone : entryOf L x.name = none := by
        rw [h]
        exact entryOf_eq_none hnot
      change SrvSec.changed _ (entryOf L x.name) = _
      rw [hnone]
      rfl
    · rw [if_neg h, if_neg (Ne.symm h)]

/-- The name of a new section: the one that was asked for, or the server's choice. -/
def newName (f : List SrvSec → JsString) (l : List SrvSec) (x : Sec) : JsString :=
  if x.create.getD [] = [] then f l else x.create.getD []

/-- The new sections on the server, one after the other. -/
def newSections (f : List SrvSec → JsString) : List SrvSec → List Sec → List SrvSec
  | _, [] => []
  | l, x :: xs =>
    let y : SrvSec := ⟨newName f l x, x.type, x.opts⟩
    y :: newSections f (l ++ [y]) xs

/-- Names that are asked for are free, and the server's choices are too, now and later. -/
structure Free (f : List SrvSec → JsString) (l : List SrvSec) (xs : List Sec) : Prop where
  asked : ∀ x ∈ xs, x.create.getD [] ≠ [] → x.create.getD [] ∉ l.map (·.name)
  distinct : xs.Pairwise fun x y =>
    x.create.getD [] ≠ [] → x.create.getD [] ≠ y.create.getD []
  chosen : ∀ l, f l ∉ l.map (·.name)
  others : ∀ x ∈ xs, ∀ l, f l ≠ x.create.getD []

theorem Free.newName_notMem {l : List SrvSec} {x : Sec} {xs : List Sec} (h : Free f l (x :: xs)) :
    newName f l x ∉ l.map (·.name) := by
  unfold newName
  split_ifs with hnew
  · exact h.chosen l
  · exact h.asked x (by simp) hnew

theorem Free.tail {l : List SrvSec} {x : Sec} {xs : List Sec} (h : Free f l (x :: xs))
    (opts : JsObject Val) (type : JsString) :
    Free f (l ++ [⟨newName f l x, type, opts⟩]) xs where
  asked := by
    intro y hy hasked
    rw [List.map_append, List.mem_append]
    rintro (hmem | hmem)
    · exact h.asked y (by simp [hy]) hasked hmem
    · have hname : y.create.getD [] = newName f l x := by simpa using hmem
      unfold newName at hname
      split_ifs at hname with hnew
      · exact h.others y (by simp [hy]) l hname.symm
      · exact (List.pairwise_cons.mp h.distinct).1 y hy hnew hname.symm
  distinct := (List.pairwise_cons.mp h.distinct).2
  chosen := h.chosen
  others := fun y hy => h.others y (by simp [hy])

/-- The loop of new sections appends them all, and is answered by their names. -/
theorem execOn_adds {xs : List Sec} {l : List SrvSec} (h : Free f l xs) :
    execOn f l (xs.map fun x => .add conf x.type x.create x.opts) =
      (l ++ newSections f l xs, (newSections f l xs).map fun y => some y.name) := by
  induction xs generalizing l with
  | nil => simp [execOn, newSections]
  | cons x xs ih =>
    have hrun : (Rpc.add conf x.type x.create x.opts).run f l =
        (l ++ [⟨newName f l x, x.type, x.opts⟩], some (newName f l x)) := by
      unfold Rpc.run newName
      by_cases hnew : x.create.getD [] = []
      · simp [hnew]
      · have hnot := h.asked x (by simp) hnew
        simp only [if_neg hnew, if_neg hnot]
    rw [List.map_cons, execOn_cons, hrun, ih (h.tail x.opts x.type)]
    simp [newSections]

theorem nodup_newSections {xs : List Sec} {l : List SrvSec} (h : Free f l xs)
    (hl : (l.map (·.name)).Nodup) : ((l ++ newSections f l xs).map (·.name)).Nodup := by
  induction xs generalizing l with
  | nil => simpa [newSections] using hl
  | cons x xs ih =>
    have hone : ((l ++ [(⟨newName f l x, x.type, x.opts⟩ : SrvSec)]).map (·.name)).Nodup := by
      rw [List.map_append, List.nodup_append]
      refine ⟨hl, by simp, ?_⟩
      intro a ha b hb hab
      have hb' : b = newName f l x := List.mem_singleton.mp hb
      exact h.newName_notMem (hb' ▸ hab ▸ ha)
    have hrest := ih (h.tail x.opts x.type) hone
    simpa [newSections] using hrest

theorem forall₂_newSections (xs : List Sec) (l : List SrvSec) :
    List.Forall₂ (fun x y => y.type = x.type ∧ y.opts = x.opts ∧
      (x.create.getD [] ≠ [] → y.name = x.create.getD [])) xs (newSections f l xs) := by
  induction xs generalizing l with
  | nil => exact .nil
  | cons x xs ih => exact .cons ⟨rfl, rfl, fun hne => if_neg hne⟩ (ih _)

end Loops

end NeonWrt.Luci.UciJs
