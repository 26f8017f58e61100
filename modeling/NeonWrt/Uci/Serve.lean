import NeonWrt.Uci.Watch

/-!
# Commits are served

The invariant of the watch loop, and what follows from it: a commit that is not
served yet waits in the inotify queue, among the pending packages, in an
application that has still to come to the translator, or for a reload that is due
before the next poll. An idle daemon has none of these left.
-/

namespace NeonWrt.Uci

open Lib

variable (d : Daemon)

/-- A list of distinct packages within the search buffer. -/
def WellFormed (csv : Bytes) : Prop :=
  ∃ names, AllValid names ∧ names.Nodup ∧ (csvOf names).length < searchSize ∧ csv = csvOf names

/-- The invariant: what is collected is well formed, no event follows the loss of the
directory, and whatever is unserved is due. -/
structure Inv (s : State) : Prop where
  pending : WellFormed s.pending
  batch : ∀ changed todo, s.pc = .batch changed todo → WellFormed changed ∧ changed ≠ []
  live : ∀ w, s.watch = some w → w.live = true → .gone ∉ w.queue
  due : ∀ t ∈ d.translators, ∀ p, Obliged d t p → Unserved s.log t p → Due s t p

variable {d} {s s' : State} {t : Translator} {p : Bytes}

theorem wellFormed_nil : WellFormed [] :=
  ⟨[], by simp [AllValid], List.nodup_nil, by decide, rfl⟩

theorem unserved_commit_iff {q : Bytes} {log : List Entry} :
    Unserved (.commit q :: log) t p ↔ p = q ∨ Unserved log t p := by
  by_cases hpq : p = q
  · subst hpq
    simp [Unserved]
  · have hqp : ¬ q = p := fun h => hpq h.symm
    simp [Unserved, hpq, hqp]

theorem unserved_ran_iff {u : Translator} {log : List Entry} :
    Unserved (.ran u :: log) t p ↔ u ≠ t ∧ Unserved log t p := by
  simp only [Unserved, List.mem_cons, reduceCtorEq, false_or, ne_eq, not_false_eq_true,
    decide_true, List.takeWhile_cons_of_pos, Entry.ran.injEq, not_or]
  constructor
  · rintro ⟨hmem, hne, hran⟩
    exact ⟨fun h => hne h.symm, hmem, hran⟩
  · rintro ⟨hne, hmem, hran⟩
    exact ⟨hmem, fun h => hne h.symm, hran⟩

theorem enqueue_cases (capacity : ℕ) (queue : List Note) (e : Note) :
    ∃ es, enqueue capacity queue e = queue ++ es ∧ (∀ x ∈ es, x = e ∨ x = .overflow) ∧
      (queue.length < capacity → es = [e]) := by
  unfold enqueue
  split_ifs with hroom hover
  · exact ⟨[e], rfl, by simp, fun _ => rfl⟩
  · exact ⟨[], by simp, by simp, fun h => absurd h hroom⟩
  · exact ⟨[.overflow], rfl, by simp, fun h => absurd h hroom⟩

@[simp] theorem packagesOf_nil : packagesOf [] = [] := rfl

@[simp] theorem packagesOf_gone (rest : List Note) : packagesOf (.gone :: rest) = [] := by
  simp [packagesOf]

theorem packagesOf_cons {e : Note} (he : e ≠ .gone) (rest : List Note) :
    packagesOf (e :: rest) = e.package?.toList ++ packagesOf rest := by
  cases hpackage : e.package? <;> simp [packagesOf, he, hpackage]

/-- Events behind others are collected after them, unless the directory is lost first. -/
theorem packagesOf_append (l m : List Note) :
    packagesOf (l ++ m) = packagesOf l ++ if .gone ∈ l then [] else packagesOf m := by
  induction l with
  | nil => simp
  | cons e rest ih =>
    by_cases he : e = .gone
    · subst he
      simp
    · have hne : ¬ Note.gone = e := fun h => he h.symm
      rw [List.cons_append, packagesOf_cons he, packagesOf_cons he, ih]
      simp [hne]

/-- What enters the queue behind a package leaves it queued. -/
theorem Queued.of_append {w w' : Watch} {es : List Note} (h : Queued s p) (hw : s.watch = some w)
    (hw' : s'.watch = some w') (hqueue : w'.queue = w.queue ++ es) : Queued s' p := by
  obtain ⟨v, hv, hmem⟩ := h
  obtain rfl := Option.some_inj.mp (hv.symm.trans hw)
  refine ⟨w', hw', ?_⟩
  rw [hqueue, packagesOf_append]
  exact List.mem_append_left _ hmem

theorem notify_queue (capacity : ℕ) (name : Bytes) (w : Watch) :
    ∃ es, (w.notify capacity name).queue = w.queue ++ es ∧ .gone ∉ es := by
  unfold Watch.notify
  split_ifs
  · obtain ⟨es, hes, hcases, -⟩ := enqueue_cases capacity w.queue (.named name)
    refine ⟨es, hes, fun hgone => ?_⟩
    rcases hcases _ hgone with h | h <;> simp at h
  · exact ⟨[], by simp, by simp⟩

theorem lose_queue (capacity : ℕ) (w : Watch) :
    ∃ es, (w.lose capacity).queue = w.queue ++ es := by
  unfold Watch.lose
  split_ifs
  · obtain ⟨es, hes, -⟩ := enqueue_cases capacity w.queue .gone
    exact ⟨es, hes⟩
  · exact ⟨[], by simp⟩

/-- An event for a name keeps what is queued. -/
theorem Queued.notify {name : Bytes} (h : Queued s p)
    (hw : s'.watch = s.watch.map (Watch.notify d.capacity name)) : Queued s' p := by
  obtain ⟨w, hsw, hmem⟩ := h
  obtain ⟨es, hes, -⟩ := notify_queue d.capacity name w
  exact Queued.of_append ⟨w, hsw, hmem⟩ hsw (by rw [hw, hsw]; rfl) hes

/-- The loss of the directory keeps what is queued. -/
theorem Queued.lose (h : Queued s p) (hw : s'.watch = s.watch.map (Watch.lose d.capacity)) :
    Queued s' p := by
  obtain ⟨w, hsw, hmem⟩ := h
  obtain ⟨es, hes⟩ := lose_queue d.capacity w
  exact Queued.of_append ⟨w, hsw, hmem⟩ hsw (by rw [hw, hsw]; rfl) hes

/-- A live watch with room queues the package. -/
theorem queued_of_room {w : Watch} (hinv : Inv d s) (hw : s.watch = some w)
    (hlive : w.live = true) (hroom : w.queue.length < d.capacity)
    (hp : (Note.named p).package? = some p)
    (hw' : s'.watch = s.watch.map (Watch.notify d.capacity p)) : Queued s' p := by
  obtain ⟨es, hes, -, hone⟩ := enqueue_cases d.capacity w.queue (.named p)
  obtain rfl := hone hroom
  have hqueue : (w.notify d.capacity p).queue = w.queue ++ [.named p] := by
    rw [Watch.notify, if_pos hlive, hes]
  refine ⟨w.notify d.capacity p, by rw [hw', hw]; rfl, ?_⟩
  rw [hqueue, packagesOf_append, if_neg (hinv.live w hw hlive), packagesOf_cons (by simp), hp]
  simp

/-- The one spec lemma for the read loop: it keeps the descriptor unless the directory
is lost, and adds the packages named before that. -/
theorem readLoop_eq {names : List Bytes} (hnames : AllValid names) (notes : List Note)
    (hfits : (csvOf ((packagesOf notes).foldl addTo names)).length < maxCsv) :
    readLoop notes (csvOf names) =
      (decide (.gone ∉ notes), csvOf ((packagesOf notes).foldl addTo names)) := by
  induction notes generalizing names with
  | nil => rfl
  | cons e rest ih =>
    by_cases he : e = .gone
    · subst he
      simp [readLoop]
    · have hne : ¬ Note.gone = e := fun h => he h.symm
      have hgone : decide (.gone ∉ e :: rest) = decide (.gone ∉ rest) := by simp [hne]
      rw [packagesOf_cons he] at hfits ⊢
      rw [readLoop_cons he, hgone]
      cases hpackage : e.package? with
      | none =>
        rw [hpackage] at hfits
        exact ih hnames hfits
      | some name =>
        have hvalid : packageNameValid name = true := by
          cases e with
          | gone => exact absurd rfl he
          | overflow => simp [Note.package?] at hpackage
          | named n =>
            simp only [Note.package?] at hpackage
            split_ifs at hpackage with hn
            exact Option.some_inj.mp hpackage ▸ hn.2
        rw [hpackage, Option.toList_some, List.singleton_append, List.foldl_cons] at hfits
        have hlen : (csvOf (addTo names name)).length < maxCsv :=
          lt_of_le_of_lt (length_csvOf_foldl_addTo_le _ _) hfits
        have hsize : (csvOf names).length < maxCsv :=
          lt_of_le_of_lt (length_csvOf_addTo_le _ _) hlen
        simp only [Option.elim_some, csvAddUnique_csvOf hnames hvalid hsize, hlen, if_true,
          Option.toList_some, List.singleton_append, List.foldl_cons]
        exact ih (hnames.addTo hvalid) hfits

/-- Events keep the invariant on live watches. -/
theorem Inv.live_notify (hinv : Inv d s) {name : Bytes} {w' : Watch}
    (hw' : s.watch.map (Watch.notify d.capacity name) = some w') (hlive : w'.live = true) :
    .gone ∉ w'.queue := by
  obtain ⟨w, hw, rfl⟩ := Option.map_eq_some_iff.mp hw'
  have hold : w.live = true := by
    unfold Watch.notify at hlive
    split_ifs at hlive with h
    · exact h
    · exact absurd hlive h
  obtain ⟨es, hes, hgone⟩ := notify_queue d.capacity name w
  rw [hes]
  simp [hinv.live w hw hold, hgone]

theorem Inv.commit {q : Bytes} (hinv : Inv d s) (hok : LabelOk d s (.commit q))
    (h : WatchStep d s (.commit q) s') : Inv d s' := by
  obtain rfl := Option.some_inj.mp h
  refine ⟨hinv.pending, hinv.batch, fun w' hw' hlive => hinv.live_notify hw' hlive, ?_⟩
  intro t ht p hobliged hunserved
  have hkeep (hdue : Due s t p) : Due { s with
      log := .commit q :: s.log, watch := s.watch.map (Watch.notify d.capacity q) } t p :=
    hdue.imp_left fun hqueued => hqueued.notify rfl
  rcases unserved_commit_iff.mp hunserved with rfl | hold
  · rcases hok with ⟨w, hw, hlive, hroom, hp⟩ | hdue
    · exact Or.inl (queued_of_room hinv hw hlive hroom hp rfl)
    · exact hkeep (hdue t ht hobliged)
  · exact hkeep (hinv.due t ht p hobliged hold)

theorem Inv.touch {name : Bytes} (hinv : Inv d s) (h : WatchStep d s (.touch name) s') :
    Inv d s' := by
  obtain rfl := Option.some_inj.mp h
  refine ⟨hinv.pending, hinv.batch, fun w' hw' hlive => hinv.live_notify hw' hlive, ?_⟩
  intro t ht p hobliged hunserved
  exact (hinv.due t ht p hobliged hunserved).imp_left fun hqueued => hqueued.notify rfl

theorem Inv.dirGone (hinv : Inv d s) (h : WatchStep d s .dirGone s') : Inv d s' := by
  obtain rfl := Option.some_inj.mp h
  refine ⟨hinv.pending, hinv.batch, ?_, ?_⟩
  · intro w' hw' hlive
    obtain ⟨w, hw, rfl⟩ := Option.map_eq_some_iff.mp hw'
    unfold Watch.lose at hlive
    split_ifs at hlive with hold
    exact absurd hlive hold
  · intro t ht p hobliged hunserved
    exact (hinv.due t ht p hobliged hunserved).imp_left fun hqueued => hqueued.lose rfl

theorem Inv.sighup (hinv : Inv d s) (h : WatchStep d s .sighup s') : Inv d s' := by
  obtain rfl := Option.some_inj.mp h
  refine ⟨hinv.pending, hinv.batch, hinv.live, ?_⟩
  intro t ht p hobliged hunserved
  rcases hinv.due t ht p hobliged hunserved with hqueued | hpending | htodo | hreload | hstopped
  · exact Or.inl hqueued
  · exact Or.inr (Or.inl hpending)
  · exact Or.inr (Or.inr (Or.inl htodo))
  · exact Or.inr (Or.inr (Or.inr (Or.inl ⟨rfl, hreload.2⟩)))
  · exact Or.inr (Or.inr (Or.inr (Or.inr hstopped)))

theorem Inv.sigterm (hinv : Inv d s) (h : WatchStep d s .sigterm s') : Inv d s' := by
  obtain rfl := Option.some_inj.mp h
  exact ⟨hinv.pending, hinv.batch, hinv.live, hinv.due⟩

/-- The daemon moves on, to a place where the same translators are still to come. -/
theorem Inv.move {pc' : Pc} (hinv : Inv d s) (htodo : ∀ t p, ¬ s.pc.Todo t p)
    (hreload : s.reload = true → s.pc.BeforeReload → pc'.BeforeReload) (hstop : s.pc ≠ .stopped)
    (hbatch : ∀ changed todo, pc' ≠ .batch changed todo) : Inv d { s with pc := pc' } := by
  refine ⟨hinv.pending, fun changed todo h => absurd h (hbatch changed todo), hinv.live, ?_⟩
  intro t ht p hobliged hunserved
  rcases hinv.due t ht p hobliged hunserved with hqueued | hpending | h | h | h
  · exact Or.inl hqueued
  · exact Or.inr (Or.inl hpending)
  · exact absurd h (htodo t p)
  · exact Or.inr (Or.inr (Or.inr (Or.inl ⟨h.1, hreload h.1 h.2⟩)))
  · exact absurd h hstop

theorem unserved_of_turn {changed : Bytes} {u : Translator} {log : List Entry}
    (h : Unserved (turn d changed u log) t p) :
    Unserved log t p ∧ (handles d.env changed u = true → u ≠ t) := by
  unfold turn at h
  split_ifs at h with hhandles
  · obtain ⟨hne, hold⟩ := unserved_ran_iff.mp h
    exact ⟨hold, fun _ => hne⟩
  · exact ⟨h, fun hh => absurd hh hhandles⟩

/-- The turn of a translator that is first in line: it runs if it has to, and the
others stay in line. -/
theorem Inv.turn {changed : Bytes} {u : Translator} {pc' : Pc} (hinv : Inv d s)
    (htodo : ∀ t p, Obliged d t p → s.pc.Todo t p →
      (t = u ∧ handles d.env changed u = true) ∨ pc'.Todo t p)
    (hreload : s.pc.BeforeReload → pc'.BeforeReload) (hstop : s.pc ≠ .stopped)
    (hbatch : ∀ c todo, pc' = .batch c todo → WellFormed c ∧ c ≠ []) :
    Inv d { s with log := turn d changed u s.log, pc := pc' } := by
  refine ⟨hinv.pending, hbatch, hinv.live, ?_⟩
  intro t ht p hobliged hunserved
  obtain ⟨hold, hran⟩ := unserved_of_turn hunserved
  rcases hinv.due t ht p hobliged hold with hqueued | hpending | h | h | h
  · exact Or.inl hqueued
  · exact Or.inr (Or.inl hpending)
  · rcases htodo t p hobliged h with ⟨rfl, hhandles⟩ | h
    · exact absurd rfl (hran hhandles)
    · exact Or.inr (Or.inr (Or.inl h))
  · exact Or.inr (Or.inr (Or.inr (Or.inl ⟨h.1, hreload h.2⟩)))
  · exact absurd h hstop

/-- A full application runs every translator that has to run. -/
theorem Obliged.handles_star (h : Obliged d t p) : handles d.env (ascii "*") t = true := by
  simp [handles, translatorMatchesPackages, h.1, h.2.1]

/-- A batch runs every translator that has to run for one of its packages. -/
theorem Obliged.handles_batch {changed : Bytes} (h : Obliged d t p) (hwf : WellFormed changed)
    (hne : changed ≠ []) (hp : p ∈ csvNames changed) : handles d.env changed t = true := by
  obtain ⟨names, hvalid, -, hfits, rfl⟩ := hwf
  rw [csvNames_csvOf hvalid] at hp
  have hmatches := (translatorMatchesPackages_csvOf t hvalid (List.ne_nil_of_mem hp)).mpr
    ⟨hfits, p, hp, h.2.2⟩
  simp [handles, h.1, h.2.1, hmatches]

theorem Inv.apply (hinv : Inv d s) (h : WatchStep d s .apply s') : Inv d s' := by
  unfold WatchStep exec at h
  dsimp only at h
  split at h
  next hpc =>
    obtain rfl := Option.some_inj.mp h
    apply hinv.move <;> simp [hpc, Pc.Todo, Pc.BeforeReload]
  next u todo hpc =>
    obtain rfl := Option.some_inj.mp h
    apply hinv.turn
    · intro t p hobliged htodo
      rw [hpc] at htodo
      rcases List.mem_cons.mp htodo with rfl | htodo
      · exact Or.inl ⟨rfl, hobliged.handles_star⟩
      · exact Or.inr htodo
    all_goals simp [hpc, Pc.BeforeReload]
  next hpc =>
    obtain rfl := Option.some_inj.mp h
    apply hinv.move <;> simp [hpc, Pc.Todo, Pc.BeforeReload]
  next u todo hpc =>
    obtain rfl := Option.some_inj.mp h
    apply hinv.turn
    · intro t p hobliged htodo
      rw [hpc] at htodo
      rcases List.mem_cons.mp htodo with rfl | htodo
      · exact Or.inl ⟨rfl, hobliged.handles_star⟩
      · exact Or.inr htodo
    all_goals simp [hpc, Pc.BeforeReload]
  next changed hpc =>
    obtain rfl := Option.some_inj.mp h
    apply hinv.move <;> simp [hpc, Pc.Todo, Pc.BeforeReload]
  next changed u todo hpc =>
    obtain rfl := Option.some_inj.mp h
    obtain ⟨hwf, hne⟩ := hinv.batch _ _ hpc
    apply hinv.turn
    · intro t p hobliged htodo
      rw [hpc] at htodo
      obtain ⟨htodo, hp⟩ := htodo
      rcases List.mem_cons.mp htodo with rfl | htodo
      · exact Or.inl ⟨rfl, hobliged.handles_batch hwf hne hp⟩
      · exact Or.inr ⟨htodo, hp⟩
    · simp [hpc, Pc.BeforeReload]
    · simp [hpc]
    · intro c todo' heq
      obtain ⟨rfl, rfl⟩ := Pc.batch.inj heq
      exact ⟨hwf, hne⟩
  next => simp at h

theorem Inv.enter (hinv : Inv d s) (h : WatchStep d s .enter s') : Inv d s' := by
  unfold WatchStep exec at h
  dsimp only at h
  split at h
  next hpc =>
    split_ifs at h with hstop hwatch
    · obtain rfl := Option.some_inj.mp h
      refine ⟨hinv.pending, by simp, by simp, ?_⟩
      intro t ht p hobliged hunserved
      exact Or.inr (Or.inr (Or.inr (Or.inr rfl)))
    · obtain rfl := Option.some_inj.mp h
      apply hinv.move <;> simp [hpc, Pc.Todo, Pc.BeforeReload]
  next => simp at h

theorem Inv.watchFails (hinv : Inv d s) (h : WatchStep d s .watchFails s') : Inv d s' := by
  unfold WatchStep exec at h
  dsimp only at h
  split at h
  next hpc =>
    split_ifs at h
    exact Option.some_inj.mp h ▸ hinv
  next => simp at h

theorem Inv.watchOk (hinv : Inv d s) (h : WatchStep d s .watchOk s') : Inv d s' := by
  unfold WatchStep exec at h
  dsimp only at h
  split at h
  next hpc =>
    split_ifs at h with hwatch
    obtain rfl := Option.some_inj.mp h
    simp only [Option.isSome_iff_exists, not_or, not_exists] at hwatch
    refine ⟨hinv.pending, by simp, ?_, ?_⟩
    · rintro w ⟨⟩ -
      simp
    · intro t ht p hobliged hunserved
      rcases hinv.due t ht p hobliged hunserved with ⟨w, hw, -⟩ | hpending | h | h | h
      · exact absurd hw (hwatch.2 w)
      · exact Or.inr (Or.inl hpending)
      · simp [hpc, Pc.Todo] at h
      · exact Or.inr (Or.inr (Or.inr (Or.inl ⟨h.1, trivial⟩)))
      · simp [hpc] at h
  next => simp at h

theorem Inv.pass (hinv : Inv d s) (h : WatchStep d s .pass s') : Inv d s' := by
  unfold WatchStep exec at h
  dsimp only at h
  split at h
  next hpc =>
    split_ifs at h with hreload
    · -- A full application begins, so every translator is in line.
      obtain rfl := Option.some_inj.mp h
      refine ⟨hinv.pending, by simp, hinv.live, ?_⟩
      intro t ht p hobliged hunserved
      exact Or.inr (Or.inr (Or.inl ht))
    · obtain rfl := Option.some_inj.mp h
      apply hinv.move <;> simp [hpc, hreload, Pc.Todo]
  next => simp at h

theorem Inv.fails (hinv : Inv d s) (hok : LabelOk d s .fails) (h : WatchStep d s .fails s') :
    Inv d s' := by
  unfold WatchStep exec at h
  dsimp only at h
  split at h
  next hpc =>
    obtain rfl := Option.some_inj.mp h
    refine ⟨hinv.pending, by simp, by simp, ?_⟩
    intro t ht p hobliged hunserved
    have hapart : DueApart s t p := by
      rcases hinv.due t ht p hobliged hunserved with hqueued | hapart
      · exact hok t ht p hobliged hqueued
      · exact hapart
    rcases hapart with hpending | h | h | h
    · exact Or.inr (Or.inl hpending)
    · simp [hpc, Pc.Todo] at h
    · simp [hpc, Pc.BeforeReload] at h
    · simp [hpc] at h
  next => simp at h

theorem Inv.interrupted (hinv : Inv d s) (h : WatchStep d s .interrupted s') : Inv d s' := by
  unfold WatchStep exec at h
  dsimp only at h
  split at h
  next hpc =>
    obtain rfl := Option.some_inj.mp h
    apply hinv.move <;> simp [hpc, Pc.Todo, Pc.BeforeReload]
  next => simp at h

theorem WellFormed.length_lt {csv : Bytes} (h : WellFormed csv) : csv.length < maxCsv := by
  obtain ⟨names, -, -, hfits, rfl⟩ := h
  exact lt_trans hfits (by decide)

theorem Inv.timeout (hinv : Inv d s) (h : WatchStep d s .timeout s') : Inv d s' := by
  unfold WatchStep exec at h
  dsimp only at h
  split at h
  next hpc =>
    split_ifs at h with hqueue hpending
    · -- What is pending becomes the batch, with every translator in line.
      obtain rfl := Option.some_inj.mp h
      have hcopy : snprintf maxCsv s.pending = s.pending :=
        snprintf_of_length_lt hinv.pending.length_lt
      refine ⟨wellFormed_nil, ?_, hinv.live, ?_⟩
      · intro changed todo heq
        obtain ⟨rfl, -⟩ := Pc.batch.inj heq
        rw [hcopy]
        exact ⟨hinv.pending, hpending⟩
      · intro t ht p hobliged hunserved
        rcases hinv.due t ht p hobliged hunserved with hqueued | hp | h | h | h
        · exact Or.inl hqueued
        · exact Or.inr (Or.inr (Or.inl ⟨ht, by rwa [hcopy]⟩))
        · simp [hpc, Pc.Todo] at h
        · simp [hpc, Pc.BeforeReload] at h
        · simp [hpc] at h
    · obtain rfl := Option.some_inj.mp h
      apply hinv.move <;> simp [hpc, Pc.Todo, Pc.BeforeReload]
  next => simp at h

theorem mem_foldl_addTo {names more : List Bytes} :
    p ∈ more.foldl addTo names ↔ p ∈ names ∨ p ∈ more := by
  induction more generalizing names with
  | nil => simp
  | cons n rest ih => rw [List.foldl_cons, ih, mem_addTo, List.mem_cons, or_assoc]

theorem allValid_packagesOf (notes : List Note) : AllValid (packagesOf notes) := by
  intro n hn
  obtain ⟨e, -, he⟩ := List.mem_filterMap.mp hn
  cases e with
  | gone => simp [Note.package?] at he
  | overflow => simp [Note.package?] at he
  | named name =>
    simp only [Note.package?] at he
    split_ifs at he with hname
    exact Option.some_inj.mp he ▸ hname.2

/-- What is read is collected, and the rest stays queued unless the directory is lost. -/
theorem Inv.read {n : ℕ} (hinv : Inv d s) (hok : LabelOk d s (.read n))
    (h : WatchStep d s (.read n) s') : Inv d s' := by
  unfold WatchStep exec at h
  dsimp only at h
  split at h
  next w hpc hw =>
    have hn : ¬ (n = 0 ∨ w.queue.length < n) := by
      intro hn
      simp [hn] at h
    rw [if_neg hn] at h
    obtain ⟨names, hvalid, hnodup, hfits, hpending⟩ := hinv.pending
    have hcollected := hok w hw
    rw [hpending, csvNames_csvOf hvalid] at hcollected
    have hdistinct := foldl_addTo_eq_distinct hnodup hcollected
    rw [← hdistinct] at hcollected
    have hread := readLoop_eq hvalid (w.queue.take n) (lt_trans hcollected (by decide))
    have hvalid' : AllValid ((packagesOf (w.queue.take n)).foldl addTo names) := by
      intro m hm
      rcases mem_foldl_addTo.mp hm with hm | hm
      · exact hvalid m hm
      · exact allValid_packagesOf _ m hm
    rw [hpending, hread] at h
    dsimp only at h
    obtain rfl := Option.some_inj.mp h
    refine ⟨⟨_, hvalid', hdistinct ▸ nodup_distinct _, hcollected, rfl⟩, by simp, ?_, ?_⟩
    · intro w' hw' hlive
      dsimp only at hw'
      split_ifs at hw'
      obtain rfl := Option.some_inj.mp hw'
      exact fun hgone => hinv.live w hw hlive (List.mem_of_mem_drop hgone)
    · intro t ht p hobliged hunserved
      have hsplit := packagesOf_append (w.queue.take n) (w.queue.drop n)
      rw [List.take_append_drop] at hsplit
      have hcollect (hp : p ∈ names ∨ p ∈ packagesOf (w.queue.take n)) :
          p ∈ csvNames (csvOf ((packagesOf (w.queue.take n)).foldl addTo names)) := by
        rw [csvNames_csvOf hvalid']
        exact mem_foldl_addTo.mpr hp
      rcases hinv.due t ht p hobliged hunserved with ⟨v, hv, hp⟩ | hp | h | h | h
      · obtain rfl := Option.some_inj.mp (hv.symm.trans hw)
        rw [hsplit] at hp
        rcases List.mem_append.mp hp with hp | hp
        · exact Or.inr (Or.inl (hcollect (Or.inr hp)))
        · split_ifs at hp with hgone
          · simp at hp
          · exact Or.inl ⟨⟨v.queue.drop n, v.live⟩, by simp [hgone], hp⟩
      · rw [hpending, csvNames_csvOf hvalid] at hp
        exact Or.inr (Or.inl (hcollect (Or.inl hp)))
      · simp [hpc, Pc.Todo] at h
      · simp [hpc, Pc.BeforeReload] at h
      · simp [hpc] at h
  next => simp at h

/-- One step that meets the condition keeps the invariant. -/
theorem Inv.step {a : Label} (hinv : Inv d s) (hok : LabelOk d s a) (h : WatchStep d s a s') :
    Inv d s' := by
  cases a with
  | commit q => exact hinv.commit hok h
  | touch name => exact hinv.touch h
  | dirGone => exact hinv.dirGone h
  | sighup => exact hinv.sighup h
  | sigterm => exact hinv.sigterm h
  | apply => exact hinv.apply h
  | enter => exact hinv.enter h
  | watchFails => exact hinv.watchFails h
  | watchOk => exact hinv.watchOk h
  | pass => exact hinv.pass h
  | fails => exact hinv.fails hok h
  | interrupted => exact hinv.interrupted h
  | timeout => exact hinv.timeout h
  | read n => exact hinv.read hok h

theorem Inv.init : Inv d (State.init d) := by
  refine ⟨wellFormed_nil, by simp [State.init], by simp [State.init], ?_⟩
  intro t ht p hobliged hunserved
  simp [Unserved, State.init] at hunserved

/-- In every run whose steps meet the condition, when the daemon is idle each enabled
translator that declares a package has run since its last commit. -/
theorem idle_serves_commits (d : Daemon) (s : State)
    (h : Reaches (· = State.init d) (WatchStep d) (LabelOk d) s) (hidle : Idle s) :
    ∀ t ∈ d.translators, ∀ p, Obliged d t p → ¬ Unserved s.log t p := by
  have hinv : Inv d s := by
    refine h.invariant ?_ fun _ _ _ hinv hok hstep => hinv.step hok hstep
    rintro _ rfl
    exact Inv.init
  obtain ⟨hpc, hpending, hqueue⟩ := hidle
  intro t ht p hobliged hunserved
  rcases hinv.due t ht p hobliged hunserved with ⟨w, hw, hp⟩ | hp | h | h | h
  · simp [hqueue w hw] at hp
  · simp [hpending, csvNames] at hp
  · simp [hpc, Pc.Todo] at h
  · simp [hpc, Pc.BeforeReload] at h
  · simp [hpc] at h

/-! ### Two short runs

One translator, of the package `network`. A commit is made during the initial
application in the one run, and right after it in the other. -/

/-- The daemon of both runs. -/
def networkDaemon : Daemon := ⟨allSucceed, networkDir "", 16384⟩

/-- Its translator. -/
def networkTranslator : Translator where
  manifestPath := .print 4096 (ascii "/etc/neon-uci.d/10-network.conf")
  name := .print 128 (ascii "network")
  packages := .print 1024 (ascii "network")
  command := .print 4096 (ascii "/bin/true")
  units := .print 1024 []
  action := .print 64 (ascii "none")
  enabled := true
  unitOptional := true

theorem networkDaemon_translators : networkDaemon.translators = [networkTranslator] := by
  decide +kernel

theorem networkDaemon_init :
    State.init networkDaemon = ⟨[], .initial [networkTranslator], none, [], false, false⟩ := by
  rw [State.init, networkDaemon_translators]

theorem obliged_network : Obliged networkDaemon networkTranslator (ascii "network") :=
  ⟨rfl, rfl, by decide⟩

/-- The idle daemon with the given log. -/
def idleWith (log : List Entry) : State := ⟨log, .poll, some ⟨[], true⟩, [], false, false⟩

theorem idle_idleWith (log : List Entry) : Idle (idleWith log) := by
  refine ⟨rfl, rfl, ?_⟩
  rintro w ⟨⟩
  rfl

/-- From the top of the loop without a descriptor, the daemon becomes idle. -/
theorem reaches_idleWith {ok : State → Label → Prop} {log : List Entry}
    (h : Reaches (· = State.init networkDaemon) (WatchStep networkDaemon) ok
      ⟨log, .top, none, [], false, false⟩)
    (hok : ∀ s, ok s .watchOk ∧ ok s .pass) :
    Reaches (· = State.init networkDaemon) (WatchStep networkDaemon) ok (idleWith log) :=
  .next .pass (.next .watchOk h (hok _).1 rfl) (hok _).2 rfl

/-- A commit during the initial application is served. -/
theorem early_commit_served :
    Idle (idleWith [.ran networkTranslator, .commit (ascii "network")]) ∧
      ¬ Unserved [.ran networkTranslator, .commit (ascii "network")] networkTranslator
        (ascii "network") := by
  have hinit := networkDaemon_init.symm
  have hcommit : Reaches (· = State.init networkDaemon) (WatchStep networkDaemon)
      (LabelOk networkDaemon)
      ⟨[.commit (ascii "network")], .initial [networkTranslator], none, [], false, false⟩ := by
    refine .next (.commit (ascii "network")) (.start hinit) (Or.inr ?_) rfl
    intro t ht _
    rw [networkDaemon_translators] at ht
    exact Or.inr (Or.inr (Or.inl ht))
  have happly : Reaches (· = State.init networkDaemon) (WatchStep networkDaemon)
      (LabelOk networkDaemon)
      ⟨[.ran networkTranslator, .commit (ascii "network")], .top, none, [], false, false⟩ :=
    .next .apply (.next .apply hcommit trivial rfl) trivial rfl
  have hidle := reaches_idleWith happly fun _ => ⟨trivial, trivial⟩
  refine ⟨idle_idleWith _, ?_⟩
  exact idle_serves_commits networkDaemon _ hidle (idle_idleWith _) networkTranslator
    (by rw [networkDaemon_translators]; exact List.mem_singleton_self _) _ obliged_network

/-- A commit between the initial application and the creation of the watch is lost. -/
theorem exists_lost_commit :
    ¬ ∀ d s, Reaches (· = State.init d) (WatchStep d) (fun _ _ => True) s → Idle s →
      ∀ t ∈ d.translators, ∀ p, Obliged d t p → ¬ Unserved s.log t p := by
  intro h
  have hinit := networkDaemon_init.symm
  have hcommit : Reaches (· = State.init networkDaemon) (WatchStep networkDaemon)
      (fun _ _ => True)
      ⟨[.commit (ascii "network"), .ran networkTranslator], .top, none, [], false, false⟩ :=
    .next (.commit (ascii "network"))
      (.next .apply (.next .apply (.start hinit) trivial rfl) trivial rfl) trivial rfl
  have hidle := reaches_idleWith hcommit fun _ => ⟨trivial, trivial⟩
  apply h networkDaemon _ hidle (idle_idleWith _) networkTranslator
    (by rw [networkDaemon_translators]; exact List.mem_singleton_self _) _ obliged_network
  exact ⟨List.mem_cons_self, by simp [idleWith]⟩

end NeonWrt.Uci
