import NeonWrt.Luci.UciState

/-!
# What reads leave behind

Reading a whole section merges its pending edits into the loaded object, and later edits
look at that object to decide what must be deleted. All other reads leave the tables
alone, and so does the read of a section whose pending edits are merged already.
-/

namespace NeonWrt.Luci.UciJs

open Lib

/-- Every pending change of the section is in its base object, and no option that is to be
deleted is. -/
structure Merged (s : State) (conf sid : JsString) : Prop where
  changes : ∀ x c opt v, s.values.at conf sid = some x → s.changes.at conf sid = some c →
    c.get? opt = some v → x.opts.get? opt = some v
  deletes : ∀ x d opt, s.values.at conf sid = some x → s.deletes.at conf sid = some (.opts d) →
    opt ∈ d.keys → x.opts.get? opt = none

theorem foldl_set_eq_self {o : JsObject Val} {l : List (JsString × Val)}
    (h : ∀ e ∈ l, o.get? e.1 = some e.2) : l.foldl (fun o e => o.set e.1 e.2) o = o := by
  induction l with
  | nil => rfl
  | cons e l ih =>
    rw [List.foldl_cons, JsObject.set_get? (h e (by simp))]
    exact ih fun d hd => h d (by simp [hd])

theorem foldl_del_eq_self {o : JsObject Val} {l : List JsString}
    (h : ∀ k ∈ l, o.get? k = none) : l.foldl (fun o k => o.del k) o = o := by
  induction l with
  | nil => rfl
  | cons k l ih =>
    rw [List.foldl_cons, JsObject.del_of_get?_eq_none (h k (by simp))]
    exact ih fun d hd => h d (by simp [hd])

theorem merge_eq_self {s : State} {conf sid : JsString} {x : Sec} (h : Merged s conf sid)
    (hx : s.values.at conf sid = some x) : merge s conf sid x = x := by
  have hchanges : overlay x (s.changes.at conf sid) = x := by
    have hopts : ((s.changes.at conf sid).elim [] (·.entries)).foldl
        (fun o e => o.set e.1 e.2) x.opts = x.opts := by
      refine foldl_set_eq_self fun e he => ?_
      cases hc : s.changes.at conf sid with
      | none => simp [hc] at he
      | some c =>
        rw [hc] at he
        exact h.changes x c e.1 e.2 hx hc (JsObject.get?_eq_some_iff.mpr he)
    rw [overlay, hopts]
  rw [merge, hchanges]
  cases hd : s.deletes.at conf sid with
  | none => rfl
  | some d =>
    cases d with
    | all => rfl
    | opts d =>
      have hopts : d.keys.foldl (fun o k => o.del k) x.opts = x.opts :=
        foldl_del_eq_self fun k hk => h.deletes x d k hx hd hk
      simp only [hopts]

/-- Reading the whole section has nothing to merge: it was just created, it is marked for
deletion, it does not exist, or it is merged. -/
def HarmlessSection (s : State) (conf : JsString) (sid : Option JsString) : Prop :=
  ∀ name, resolveSID s conf sid = some name →
    s.creates.at conf name ≠ none ∨ s.deletes.at conf name = some .all ∨ Merged s conf name

/-- Reads of options and lists of sections are harmless, reads of whole sections may be. -/
def Harmless (s : State) : Query → Prop
  | .get conf sid none | .getBool conf sid none => HarmlessSection s conf sid
  | .getFirst conf type none => HarmlessSection s conf (firstName s conf type)
  | _ => True

theorem getSection_fst {s : State} {conf : JsString} {sid : Option JsString}
    (h : HarmlessSection s conf sid) : (getSection s conf sid).1 = s := by
  unfold getSection
  cases hr : resolveSID s conf sid with
  | none => rfl
  | some name =>
    suffices hlookup : (lookup s conf name).1 = s from hlookup
    unfold lookup
    split_ifs with hcreated hdeleted
    · rfl
    · rfl
    · cases hx : s.values.at conf name with
      | none => rfl
      | some x =>
        have hmerged : Merged s conf name := by
          rcases h name hr with hc | hd | hm
          · exact absurd (Option.isSome_iff_ne_none.mpr hc) hcreated
          · exact absurd (markedAll_eq_true_iff.mpr hd) hdeleted
          · exact hm
        change { s with values := s.values.put conf name (merge s conf name x) } = s
        rw [merge_eq_self hmerged hx, Table.put_at hx]

theorem askGet_fst {s : State} {conf : JsString} {sid opt : Option JsString}
    (h : opt = none → HarmlessSection s conf sid) : (askGet s conf sid opt).1 = s := by
  cases opt with
  | some opt => rfl
  | none => exact getSection_fst (h rfl)

/-- A harmless read leaves the state as it is. -/
theorem ask_of_harmless {s : State} {q : Query} (h : Harmless s q) : (ask s q).1 = s := by
  cases q with
  | get conf sid opt => exact askGet_fst fun hopt => by subst hopt; exact h
  | getFirst conf type opt => exact askGet_fst fun hopt => by subst hopt; exact h
  | getBool conf sid opt =>
    have hget : (askGet s conf sid opt).1 = s := askGet_fst fun hopt => by subst hopt; exact h
    simp only [ask]
    split <;> rename_i heq <;> rw [heq] at hget <;> exact hget
  | sections conf type => rfl
  | resolveSID conf sid => rfl

/-- An edit, a read, or a read that was inserted. -/
inductive Item
  | edit (e : Edit)
  | ask (q : Query)
  | inserted (q : Query)

/-- The run without what was inserted. -/
def strip (items : List Item) : List Item :=
  items.filter fun
    | .inserted _ => false
    | _ => true

/-- The state at the end, and the results of the reads that were not inserted. -/
def run : State → List Item → State × List Answer
  | s, [] => (s, [])
  | s, .edit e :: items => run (edit s e) items
  | s, .ask q :: items =>
    let (s', a) := ask s q
    let (s'', rest) := run s' items
    (s'', a :: rest)
  | s, .inserted q :: items => run (ask s q).1 items

/-- Every inserted read of the run is harmless where it stands. -/
def HarmlessRun : State → List Item → Prop
  | _, [] => True
  | s, .edit e :: items => HarmlessRun (edit s e) items
  | s, .ask q :: items => HarmlessRun (ask s q).1 items
  | s, .inserted q :: items => Harmless s q ∧ HarmlessRun (ask s q).1 items

/-- The inserted reads leave no trace in the run. -/
theorem run_strip {s : State} {items : List Item} (h : HarmlessRun s items) :
    run s (strip items) = run s items := by
  induction items generalizing s with
  | nil => rfl
  | cons item items ih =>
    cases item with
    | edit e => exact ih h
    | ask q =>
      have hrest := ih h
      change run s (.ask q :: strip items) = _
      simp only [run, hrest]
    | inserted q =>
      obtain ⟨hq, hrest⟩ := h
      have hstate := ask_of_harmless hq
      rw [hstate] at hrest
      change run s (strip items) = run (ask s q).1 items
      rw [hstate]
      exact ih hrest

/-- Inserted reads that are harmless change neither the result of another read nor the remote
calls of a `save` at the end. -/
theorem inserted_reads_pure (s : State) (items : List Item) (h : HarmlessRun s items) :
    (run s items).2 = (run s (strip items)).2 ∧
      saveTasks (run s items).1 = saveTasks (run s (strip items)).1 ∧
      ∀ responses, reorderTasks (run s items).1 responses
        = reorderTasks (run s (strip items)).1 responses := by
  rw [run_strip h]
  exact ⟨rfl, rfl, fun _ => rfl⟩

/-- An option is set, the section is read, and the option is unset again. -/
def readBetween : List Item :=
  [.edit (.set (units "network") (some (units "lan")) (units "mtu") (some (.str (units "1500")))),
    .inserted (.get (units "network") (some (units "lan")) none),
    .edit (.set (units "network") (some (units "lan")) (units "mtu") none)]

/-- With a harmless read instead, of a section without pending edits. -/
def readBefore : List Item :=
  [.inserted (.get (units "network") (some (units "lan")) none),
    .edit (.set (units "network") (some (units "lan")) (units "mtu") (some (.str (units "1500")))),
    .ask (.get (units "network") (some (units "lan")) (some (units "mtu")))]

/-- The read makes `save` delete an option that the server never had. -/
theorem saveTasks_readBetween :
    saveTasks (run network readBetween).1 ≠ saveTasks (run network (strip readBetween)).1 := by
  intro h
  have hlength := congrArg List.length h
  revert hlength
  decide +kernel

theorem inserted_reads_pure_readBefore :
    (run network readBefore).2 = (run network (strip readBefore)).2 ∧
      saveTasks (run network readBefore).1 = saveTasks (run network (strip readBefore)).1 ∧
      ∀ responses, reorderTasks (run network readBefore).1 responses
        = reorderTasks (run network (strip readBefore)).1 responses := by
  refine inserted_reads_pure network readBefore ⟨fun name hname => Or.inr (Or.inr ?_), trivial⟩
  have hchanges : ∀ conf sid, network.changes.at conf sid = none := fun _ _ => rfl
  have hdeletes : ∀ conf sid, network.deletes.at conf sid = none := fun _ _ => rfl
  exact ⟨fun x c opt v _ hc _ => absurd hc (by simp [hchanges]),
    fun x d opt _ hd _ => absurd hd (by simp [hdeletes])⟩

end NeonWrt.Luci.UciJs
