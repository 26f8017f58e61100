import NeonWrt.Uci.Apply

/-!
# One pass over the translators

The report of an application keeps handlers and systemctl calls apart. Here the
pass is a trace, in which both stand in the order they happen, and which gives
the report back. The trace obeys the law of the README: handlers in the order of
the manifest names, actions only after their handler, and a status that counts
what was tried.

A pass is bounded in ways the law does not mention: a directory has at most 128
manifests, a path has a limit, and a handler has to be executable. A list of
packages longer than the buffer it is searched in matches nothing.
-/

namespace NeonWrt.Uci

open Lib

variable (env : Env)

/-- A step of a pass. -/
inductive PassEvent where
  | handler (t : Translator) (status : ℤ)
  | notExecutable (t : Translator)
  | systemctl (t : Translator) (argv : List Bytes) (status : ℤ) (failure : Failure)
  | skipped (t : Translator) (unit : Bytes)
  | refused (t : Translator) (why : Failure)
  deriving DecidableEq

/-- The translator whose handler is run. -/
def PassEvent.ran? : PassEvent → Option Translator
  | .handler t _ => some t
  | _ => none

/-- The call to systemctl. -/
def PassEvent.call? : PassEvent → Option (List Bytes)
  | .systemctl _ argv _ _ => some argv
  | _ => none

/-- The failure of a step that was tried; a skipped unit is none. -/
def PassEvent.failure? : PassEvent → Option Failure
  | .handler _ status => if status ≠ 0 then some (.handlerFailed status) else none
  | .notExecutable _ => some .notExecutable
  | .systemctl _ _ status failure => if status ≠ 0 then some failure else none
  | .skipped _ _ => none
  | .refused _ why => some why

/-- `run_handler`. -/
def handlerEvent (changed : Bytes) (t : Translator) : PassEvent :=
  if !env.executable t.command.bytes then .notExecutable t
  else
    let entry := snprintf (maxCsv + 64)
      (ascii "NEON_UCI_CHANGED_PACKAGES=" ++ if changed ≠ [] then changed else ascii "*")
    .handler t (env.handler t.command.bytes entry)

/-- The loop body of `run_systemctl_action`. -/
def unitEvent (t : Translator) (unit : Bytes) : PassEvent :=
  if !safeToken unit then .refused t (.invalidUnit unit)
  else if t.unitOptional && !unitExists env unit then .skipped t unit
  else
    let argv := [t.action.bytes, unit]
    .systemctl t argv (env.systemctl argv) (.actionFailed unit (env.systemctl argv))

/-- `run_systemctl_action`. -/
def actionTrace (t : Translator) : List PassEvent :=
  if t.action.bytes = ascii "none" then []
  else if t.action.bytes = ascii "daemon-reload" then
    let argv := [ascii "daemon-reload"]
    [.systemctl t argv (env.systemctl argv) (.daemonReloadFailed (env.systemctl argv))]
  else if t.units.bytes = [] then [.refused t .requiresUnits]
  else if searchSize ≤ t.units.bytes.length then [.refused t .unitsTooLong]
  else (csvNames t.units.bytes).map (unitEvent env t)

/-- The loop body of `apply_translators`. -/
def translatorTrace (changed : Bytes) (t : Translator) : List PassEvent :=
  if !t.enabled then []
  else if !translatorMatchesPackages t changed then []
  else
    let e := handlerEvent env changed t
    if e.failure? ≠ none then [e] else e :: actionTrace env t

/-- The loop of `apply_translators`. -/
def passTrace (changed : Bytes) (ts : List Translator) : List PassEvent :=
  ts.flatMap (translatorTrace env changed)

/-- What a trace amounts to. -/
def report (trace : List PassEvent) : Report :=
  ⟨trace.filterMap PassEvent.ran?, trace.filterMap PassEvent.call?,
    trace.filterMap PassEvent.failure?⟩

theorem report_append (xs ys : List PassEvent) :
    report (xs ++ ys) = (report xs).append (report ys) := by
  simp [report, Report.append]

variable {env}

theorem report_handlerEvent (changed : Bytes) (t : Translator) :
    report [handlerEvent env changed t] = runHandler env changed t := by
  unfold handlerEvent runHandler
  split
  · rfl
  · simp only [report, List.filterMap_cons, List.filterMap_nil, PassEvent.ran?, PassEvent.call?,
      PassEvent.failure?]
    split_ifs <;> rfl

theorem report_unitEvent (t : Translator) (unit : Bytes) :
    report [unitEvent env t unit] = runUnit env t unit := by
  unfold unitEvent runUnit
  split
  · rfl
  · split
    · rfl
    · simp only [report, List.filterMap_cons, List.filterMap_nil, PassEvent.ran?, PassEvent.call?,
        PassEvent.failure?]
      split_ifs <;> rfl

theorem report_unitEvents (t : Translator) (units : List Bytes) :
    report (units.map (unitEvent env t)) = runUnits env t units := by
  induction units with
  | nil => rfl
  | cons unit rest ih =>
    rw [List.map_cons, ← List.singleton_append, report_append, report_unitEvent, ih]
    rfl

theorem report_actionTrace (t : Translator) :
    report (actionTrace env t) = runSystemctlAction env t := by
  unfold actionTrace runSystemctlAction
  split
  · rfl
  · split
    · simp only [report, List.filterMap_cons, List.filterMap_nil, PassEvent.ran?, PassEvent.call?,
        PassEvent.failure?]
      split_ifs <;> rfl
    · split
      · rfl
      · split
        · rfl
        · exact report_unitEvents t _

theorem failure_handlerEvent (changed : Bytes) (t : Translator) :
    (handlerEvent env changed t).failure? ≠ none ↔ (runHandler env changed t).failures ≠ [] := by
  rw [← report_handlerEvent]
  cases h : (handlerEvent env changed t).failure? <;> simp [report, h]

theorem report_translatorTrace (changed : Bytes) (t : Translator) :
    report (translatorTrace env changed t) = applyOne env changed t := by
  unfold translatorTrace applyOne
  split
  · rfl
  · split
    · rfl
    · simp only [failure_handlerEvent]
      split
      · exact report_handlerEvent changed t
      · rw [← List.singleton_append, report_append, report_handlerEvent, report_actionTrace]

/-- The trace of a pass amounts to its report. -/
theorem report_passTrace (changed : Bytes) (ts : List Translator) :
    report (passTrace env changed ts) = applyLoop env changed ts := by
  induction ts with
  | nil => rfl
  | cons t rest ih =>
    rw [passTrace, List.flatMap_cons, report_append, report_translatorTrace]
    exact congrArg (Report.append _) ih

/-- Each call to systemctl for a translator comes after a run of its handler that
succeeded. -/
def AfterHandler (trace : List PassEvent) : Prop :=
  ∀ before t argv status failure after,
    trace = before ++ .systemctl t argv status failure :: after → .handler t 0 ∈ before

theorem AfterHandler.nil : AfterHandler [] := by
  intro before t argv status failure after h
  simp at h

theorem AfterHandler.append {xs ys : List PassEvent} (hxs : AfterHandler xs)
    (hys : AfterHandler ys) : AfterHandler (xs ++ ys) := by
  intro before t argv status failure after h
  rcases List.append_eq_append_iff.mp h with ⟨mid, rfl, hmid⟩ | ⟨mid, rfl, hmid⟩
  · exact List.mem_append_right _ (hys mid t argv status failure after hmid)
  -- the call is the first event of the second trace, or it is in the first one
  · cases mid with
    | nil => simpa using hys [] t argv status failure after hmid.symm
    | cons e mid =>
      obtain ⟨rfl, -⟩ := List.cons.inj hmid
      exact hxs before t argv status failure mid rfl

/-- The calls of an action are for its translator. -/
theorem translator_of_mem_actionTrace {t u : Translator} {argv : List Bytes} {status : ℤ}
    {failure : Failure} (h : .systemctl u argv status failure ∈ actionTrace env t) : u = t := by
  unfold actionTrace at h
  split_ifs at h
  · simp at h
  · simp only [List.mem_singleton, PassEvent.systemctl.injEq] at h
    exact h.1
  · simp at h
  · simp at h
  · obtain ⟨unit, -, hunit⟩ := List.mem_map.mp h
    unfold unitEvent at hunit
    split_ifs at hunit
    exact (PassEvent.systemctl.inj hunit).1.symm

theorem afterHandler_translatorTrace (changed : Bytes) (t : Translator) :
    AfterHandler (translatorTrace env changed t) := by
  have hhandler (u : Translator) (argv : List Bytes) (status : ℤ) (failure : Failure) :
      handlerEvent env changed t ≠ .systemctl u argv status failure := by
    unfold handlerEvent
    split <;> nofun
  unfold translatorTrace
  split
  · exact AfterHandler.nil
  · split
    · exact AfterHandler.nil
    · dsimp only
      intro before u argv status failure after h
      split at h
      -- a handler that failed is the only event
      · cases before with
        | nil => exact absurd (List.cons.inj h).1 (hhandler _ _ _ _)
        | cons e before => simp at h
      next hok =>
        cases before with
        | nil => exact absurd (List.cons.inj h).1 (hhandler _ _ _ _)
        | cons e before =>
          obtain ⟨rfl, htail⟩ := List.cons.inj h
          -- the call comes from the action
          have hmem : PassEvent.systemctl u argv status failure ∈ actionTrace env t := by
            rw [htail]
            simp
          have hu : u = t := translator_of_mem_actionTrace hmem
          -- A handler that did not fail was run, with status 0.
          have hzero : handlerEvent env changed t = .handler t 0 := by
            unfold handlerEvent at hok ⊢
            split_ifs at hok ⊢
            · simp [PassEvent.failure?] at hok
            all_goals
              simp only [PassEvent.failure?, ne_eq, ite_eq_right_iff, reduceCtorEq, imp_false,
                not_not] at hok
              simp only [hok]
          rw [hzero, hu]
          exact List.mem_cons_self

theorem afterHandler_passTrace (changed : Bytes) (ts : List Translator) :
    AfterHandler (passTrace env changed ts) := by
  induction ts with
  | nil => exact AfterHandler.nil
  | cons t rest ih => exact (afterHandler_translatorTrace changed t).append ih

/-- The path of a manifest. -/
def manifestPathOf (dir : Directory) (name : Bytes) : Bytes := dir.path ++ ascii "/" ++ name

/-- `t` is parsed from the manifest `name` of the directory. -/
def Manifest (dir : Directory) (name : Bytes) (t : Translator) : Prop :=
  ∃ es content, dir.entries = some es ∧ (name, content) ∈ es ∧ isManifest name = true ∧
    parseManifest (manifestPathOf dir name) content = .ok t

/-- A directory that can be read, whose manifests are valid. -/
structure ValidDirectory (dir : Directory) (es : List (Bytes × Option Bytes)) : Prop where
  entries : dir.entries = some es
  names : (es.map Prod.fst).Nodup
  valid : ∀ m ∈ es, isManifest m.1 = true →
    ∃ t, parseManifest (manifestPathOf dir m.1) m.2 = .ok t

/-- The manifests among the entries. -/
def manifestsOf (es : List (Bytes × Option Bytes)) : List (Bytes × Option Bytes) :=
  es.filter fun m => isManifest m.1

/-- The translator of a manifest, if it is valid. -/
def parsedFrom (dir : Directory) (m : Bytes × Option Bytes) : Translator :=
  match parseManifest (manifestPathOf dir m.1) m.2 with
  | .ok t => t
  | .error _ => .init (manifestPathOf dir m.1)

theorem parsedFrom_eq {dir : Directory} {m : Bytes × Option Bytes} {t : Translator}
    (h : parseManifest (manifestPathOf dir m.1) m.2 = .ok t) : parsedFrom dir m = t := by
  simp [parsedFrom, h]

theorem manifestsOf_skip {m : Bytes × Option Bytes} {es : List (Bytes × Option Bytes)}
    (h : isManifest m.1 = false) : manifestsOf (m :: es) = manifestsOf es := by
  simp [manifestsOf, h]

theorem manifestsOf_take {m : Bytes × Option Bytes} {es : List (Bytes × Option Bytes)}
    (h : isManifest m.1 = true) : manifestsOf (m :: es) = m :: manifestsOf es := by
  simp [manifestsOf, h]

/-- An entry that is no manifest is passed over. -/
theorem loadLoop_skip {dir : Bytes} {m : Bytes × Option Bytes} {es : List (Bytes × Option Bytes)}
    {before : List Translator} (h : isManifest m.1 = false) :
    loadLoop dir (m :: es) before = loadLoop dir es before := by
  rw [loadLoop, h]
  rfl

/-- A valid manifest is loaded when there is room. -/
theorem loadLoop_take {dir : Directory} {m : Bytes × Option Bytes}
    {es : List (Bytes × Option Bytes)} {before : List Translator} {t : Translator}
    (h : isManifest m.1 = true) (hroom : before.length < 128)
    (hpath : (manifestPathOf dir m.1).length < 4096)
    (ht : parseManifest (manifestPathOf dir m.1) m.2 = .ok t) :
    loadLoop dir.path (m :: es) before = loadLoop dir.path es (before ++ [t]) := by
  rw [manifestPathOf] at hpath ht
  rw [loadLoop]
  simp only [h, Bool.not_true, Bool.false_eq_true, if_false, not_le.mpr hroom, not_le.mpr hpath, ht]

/-- Valid manifests, not too many and not too deep, are all loaded. -/
theorem loadLoop_eq {dir : Directory} {es : List (Bytes × Option Bytes)} {before : List Translator}
    (hvalid : ∀ m ∈ es, isManifest m.1 = true →
      (∃ t, parseManifest (manifestPathOf dir m.1) m.2 = .ok t) ∧
        (manifestPathOf dir m.1).length < 4096)
    (hcount : before.length + (manifestsOf es).length ≤ 128) :
    loadLoop dir.path es before = .ok (before ++ (manifestsOf es).map (parsedFrom dir)) := by
  induction es generalizing before with
  | nil => simp [loadLoop, manifestsOf]
  | cons m rest ih =>
    have hrest : ∀ m ∈ rest, isManifest m.1 = true → _ := fun m hm =>
      hvalid m (List.mem_cons_of_mem _ hm)
    cases hname : isManifest m.1 with
    | false =>
      rw [manifestsOf_skip hname] at hcount ⊢
      rw [loadLoop_skip hname]
      exact ih hrest hcount
    | true =>
      obtain ⟨⟨t, ht⟩, hpath⟩ := hvalid m List.mem_cons_self hname
      rw [manifestsOf_take hname, List.length_cons] at hcount
      have hcount' : (before ++ [t]).length + (manifestsOf rest).length ≤ 128 := by
        rw [List.length_append, List.length_singleton]
        omega
      rw [loadLoop_take hname (by omega) hpath ht, ih hrest hcount', manifestsOf_take hname,
        List.map_cons, parsedFrom_eq ht, List.append_assoc, List.singleton_append]

/-- Too many valid manifests are not loaded. -/
theorem loadLoop_tooMany {dir : Directory} {es : List (Bytes × Option Bytes)}
    {before : List Translator}
    (hvalid : ∀ m ∈ es, isManifest m.1 = true →
      (∃ t, parseManifest (manifestPathOf dir m.1) m.2 = .ok t) ∧
        (manifestPathOf dir m.1).length < 4096)
    (hcount : 128 < before.length + (manifestsOf es).length) (hbefore : before.length ≤ 128) :
    loadLoop dir.path es before = .error .tooMany := by
  induction es generalizing before with
  | nil =>
    simp only [manifestsOf, List.filter_nil, List.length_nil] at hcount
    omega
  | cons m rest ih =>
    have hrest : ∀ m ∈ rest, isManifest m.1 = true → _ := fun m hm =>
      hvalid m (List.mem_cons_of_mem _ hm)
    cases hname : isManifest m.1 with
    | false =>
      rw [manifestsOf_skip hname] at hcount
      rw [loadLoop_skip hname]
      exact ih hrest hcount hbefore
    | true =>
      -- the list is full, or there is room for one more
      by_cases hfull : 128 ≤ before.length
      · simp [loadLoop, hname, hfull]
      · obtain ⟨⟨t, ht⟩, hpath⟩ := hvalid m List.mem_cons_self hname
        rw [manifestsOf_take hname, List.length_cons] at hcount
        have hlength : (before ++ [t]).length = before.length + 1 := by simp
        rw [loadLoop_take hname (by omega) hpath ht]
        exact ih hrest (by omega) (by omega)

theorem append_le_append_iff (p a b : Bytes) : p ++ a ≤ p ++ b ↔ a ≤ b := by
  induction p with
  | nil => rfl
  | cons c p ih =>
    rw [List.cons_append, List.cons_append, ← ih, List.le_iff_lt_or_eq, List.le_iff_lt_or_eq]
    simp

/-- By name. -/
def nameLe (a b : Bytes × Option Bytes) : Prop := a.1 ≤ b.1

instance : DecidableRel nameLe := fun a b => inferInstanceAs (Decidable (a.1 ≤ b.1))

instance : Std.Total nameLe := ⟨fun a b => List.le_total a.1 b.1⟩

instance : IsTrans (Bytes × Option Bytes) nameLe := ⟨fun _ _ _ h h' => List.le_trans h h'⟩

/-- The manifests in the order of their names. -/
def sortedManifests (es : List (Bytes × Option Bytes)) : List (Bytes × Option Bytes) :=
  (manifestsOf es).insertionSort nameLe

theorem mem_sortedManifests {es : List (Bytes × Option Bytes)} {m : Bytes × Option Bytes} :
    m ∈ sortedManifests es ↔ m ∈ es ∧ isManifest m.1 = true := by
  rw [sortedManifests, List.mem_insertionSort, manifestsOf, List.mem_filter]

/-- The names of a directory are in strict order when sorted. -/
theorem sortedManifests_pairwise {es : List (Bytes × Option Bytes)}
    (hnodup : (es.map Prod.fst).Nodup) : ((sortedManifests es).map Prod.fst).Pairwise (· < ·) := by
  have hle : (sortedManifests es).Pairwise nameLe := List.pairwise_insertionSort _ _
  -- sorting does not repeat a name
  have hdiff : (sortedManifests es).Pairwise fun a b => a.1 ≠ b.1 := by
    have hperm : (sortedManifests es).Perm (manifestsOf es) := List.perm_insertionSort _ _
    have hsub : ((manifestsOf es).map Prod.fst).Nodup :=
      hnodup.sublist (List.filter_sublist.map Prod.fst)
    exact List.pairwise_map.mp ((hperm.map Prod.fst).nodup_iff.mpr hsub)
  rw [List.pairwise_map]
  refine (hle.and hdiff).imp fun {a b} ⟨hab, hne⟩ => ?_
  by_contra hlt
  exact hne (List.le_antisymm hab hlt)

/-- A directory of valid manifests is loaded in the order of its names, whatever
the order its entries are read in. -/
theorem loadTranslators_eq {dir : Directory} {es : List (Bytes × Option Bytes)}
    (hdir : ValidDirectory dir es)
    (hpath : ∀ m ∈ es, isManifest m.1 = true → (manifestPathOf dir m.1).length < 4096)
    (hcount : (manifestsOf es).length ≤ 128) :
    loadTranslators dir = .ok ((sortedManifests es).map (parsedFrom dir)) := by
  have hload := @loadLoop_eq dir es [] (fun m hm hname => ⟨hdir.valid m hm hname, hpath m hm hname⟩)
    (by simpa using hcount)
  have hmanifest (m : Bytes × Option Bytes) (hm : m ∈ manifestsOf es) :
      (parsedFrom dir m).manifestPath.bytes = manifestPathOf dir m.1 := by
    obtain ⟨hm, hname⟩ := List.mem_filter.mp hm
    obtain ⟨t, ht⟩ := hdir.valid m hm hname
    rw [parsedFrom_eq ht, parseManifest_path ht]
    exact snprintf_of_length_lt (hpath m hm hname)
  -- the paths differ in the name alone, so they are in the order of the names
  have hsort : (sortedManifests es).map (parsedFrom dir) =
      ((manifestsOf es).map (parsedFrom dir)).insertionSort (translatorLe · ·) := by
    refine List.map_insertionSort _ _ _ _ fun a ha b hb => ?_
    rw [translatorLe, decide_eq_true_iff, hmanifest a ha, hmanifest b hb, manifestPathOf,
      manifestPathOf, append_le_append_iff]
    rfl
  rw [loadTranslators, hdir.entries]
  simp only [hload, List.nil_append, Except.map, hsort]

/-- The translator declares one of the selected packages, or all are selected. -/
def Selected (changed : Bytes) (t : Translator) : Prop :=
  changed = [] ∨ changed = ascii "*" ∨ ∃ p ∈ csvNames changed, t.Declares p

/-- The trace of a pass over a directory. -/
def dirTrace (env : Env) (dir : Directory) (changed : Bytes) : List PassEvent :=
  passTrace env changed (translators dir)

/-- The handlers of the translators to be handled are run once each, in the order
of the manifest names and whatever becomes of them; actions come after their
handler; and the pass returns 0 if nothing that was tried failed. -/
structure PassLaw (env : Env) (dir : Directory) (changed : Bytes) (handled : Translator → Prop) :
    Prop where
  handlers : ∃ order : List (Bytes × Translator),
    (dirTrace env dir changed).filterMap PassEvent.ran? = order.map Prod.snd ∧
      (order.map Prod.fst).Pairwise (· < ·) ∧
        ∀ name t, (name, t) ∈ order ↔ Manifest dir name t ∧ handled t
  actions : AfterHandler (dirTrace env dir changed)
  status : (applyTranslators env dir changed).1 = 0 ↔
    ∀ e ∈ dirTrace env dir changed, e.failure? = none

theorem translatorMatchesPackages_iff (t : Translator) {changed : Bytes}
    (h : changed.length < searchSize) :
    translatorMatchesPackages t changed = true ↔ Selected changed t := by
  have hpackages : ¬ searchSize ≤ t.packages.bytes.length := by
    have := t.packages.fits
    rw [searchSize]
    omega
  unfold translatorMatchesPackages Selected Translator.Declares
  -- all packages, or those that the list names
  by_cases hall : changed = [] ∨ changed = ascii "*"
  · simp only [if_pos hall, true_iff]
    tauto
  · obtain ⟨hnil, hstar⟩ := not_or.mp hall
    have hcontains (p : Bytes) : csvContains changed p = true ↔ p ∈ csvNames changed := by
      rw [csvContains, if_neg (not_le.mpr h), List.contains_iff_mem]
    rw [if_neg hall, if_neg hpackages, List.any_eq_true]
    simp only [hnil, hstar, false_or, hcontains]
    constructor
    · rintro ⟨p, hp, hc⟩
      exact ⟨p, hc, hp⟩
    · rintro ⟨p, hc, hp⟩
      exact ⟨p, hp, hc⟩

theorem status_iff {dir : Directory} {ts : List Translator} (changed : Bytes)
    (hload : loadTranslators dir = .ok ts) :
    (applyTranslators env dir changed).1 = 0 ↔
      ∀ e ∈ dirTrace env dir changed, e.failure? = none := by
  have hfailures : (applyLoop env changed ts).failures = [] ↔
      ∀ e ∈ dirTrace env dir changed, e.failure? = none := by
    rw [← report_passTrace, dirTrace, translators, hload]
    exact List.filterMap_eq_nil_iff
  rw [← hfailures, applyTranslators, hload]
  by_cases h : (applyLoop env changed ts).failures = [] <;> simp [h]

/-- A manifest of the package `network`. -/
def networkManifest : Bytes :=
  ascii "[translator]\nname=network\npackages=network\ncommand=/bin/true\n"

/-- What is parsed from `networkManifest`. -/
def parsedNetwork (path : Bytes) : Translator :=
  { Translator.init path with
    name := .print 128 (ascii "network")
    packages := .print 1024 (ascii "network")
    command := .print 4096 (ascii "/bin/true") }

theorem parse_networkManifest (path : Bytes) :
    parseManifest path (some networkManifest) = .ok (parsedNetwork path) := by
  rfl

/-- A directory with such manifests under the given names. -/
def networkDirAt (path : Bytes) (names : List Bytes) : Directory where
  path := path
  entries := some (names.map fun name => (name, some networkManifest))

theorem validDirectory_networkDirAt {path : Bytes} {names : List Bytes} (hnames : names.Nodup) :
    ValidDirectory (networkDirAt path names) (names.map fun name => (name, some networkManifest))
    where
  entries := rfl
  names := by simpa [List.map_map, Function.comp_def] using hnames
  valid := by
    intro m hm _
    obtain ⟨name, -, rfl⟩ := List.mem_map.mp hm
    exact ⟨_, parse_networkManifest _⟩

theorem manifest_networkDirAt {path name : Bytes} {names : List Bytes} (hname : name ∈ names)
    (hconf : isManifest name = true) :
    Manifest (networkDirAt path names) name
      (parsedNetwork (manifestPathOf (networkDirAt path names) name)) :=
  ⟨_, _, rfl, List.mem_map_of_mem hname, hconf, parse_networkManifest _⟩

/-- A pass that runs no handler misses those that are to be handled. -/
theorem not_passLaw_of_none {dir : Directory} {changed : Bytes} {handled : Translator → Prop}
    (hnone : (dirTrace env dir changed).filterMap PassEvent.ran? = []) {name : Bytes}
    {t : Translator} (hmanifest : Manifest dir name t) (hhandled : handled t) :
    ¬ PassLaw env dir changed handled := by
  intro hlaw
  obtain ⟨order, hran, -, hmem⟩ := hlaw.handlers
  have horder : order = [] := List.map_eq_nil_iff.mp (hran.symm.trans hnone)
  have hin := (hmem name t).mpr ⟨hmanifest, hhandled⟩
  simp [horder] at hin

/-- The names of 129 manifests. -/
def manyNames : List Bytes :=
  (List.range 129).map fun k => 98 :: List.replicate k 97 ++ ascii ".conf"

theorem nodup_manyNames : manyNames.Nodup := by
  refine List.nodup_range.map fun k l hkl => ?_
  have hlength := congrArg List.length hkl
  simpa using hlength

theorem length_lt_of_mem_manyNames {name : Bytes} (h : name ∈ manyNames) : name.length < 135 := by
  obtain ⟨k, hk, rfl⟩ := List.mem_map.mp h
  have hsuffix : (ascii ".conf").length = 5 := rfl
  have hk := List.mem_range.mp hk
  simp only [List.length_append, List.length_cons, List.length_replicate, hsuffix]
  omega

/-- The translators that the law would have handled, executable or not. -/
def Wanted (changed : Bytes) (t : Translator) : Prop := t.enabled = true ∧ Selected changed t

/-- With every manifest valid, the law holds. -/
def Lawful (env : Env) (dir : Directory) (changed : Bytes) : Prop :=
  ∀ es, ValidDirectory dir es → PassLaw env dir changed (Wanted changed)

theorem not_lawful_of_none {env : Env} {path changed name : Bytes}
    (hnone : (dirTrace env (networkDirAt path [name]) changed).filterMap PassEvent.ran? = [])
    (hconf : isManifest name = true)
    (hwanted : Wanted changed (parsedNetwork (manifestPathOf (networkDirAt path [name]) name))) :
    ¬ Lawful env (networkDirAt path [name]) changed := fun hlawful =>
  not_passLaw_of_none hnone (manifest_networkDirAt List.mem_cons_self hconf) hwanted
    (hlawful _ (validDirectory_networkDirAt (List.nodup_singleton name)))

end NeonWrt.Uci
