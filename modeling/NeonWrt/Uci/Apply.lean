import NeonWrt.Uci.Csv

/-!
# Applying and checking translators

`apply_translators` loads the translators of a directory, runs the handlers of
the enabled ones that match the changed packages, and asks systemctl for the
action of each whose handler succeeded. `check_configuration` loads the same
directory and looks for errors without running anything. The watch loop calls
the former with the packages it has collected.

Both are modelled over an `Env` that says what the handlers and systemctl do;
an application is reported by the handlers it runs, its systemctl calls and its
failures, in order.
-/

namespace NeonWrt.Uci

open Lib

/-- What the daemon's surroundings do: which files are executable, the exit status
of a handler given its environment entry, the output of `systemctl show` for a
unit (`none` if it fails), and the exit status of other systemctl calls. -/
structure Env where
  executable : Bytes → Bool
  handler : Bytes → Bytes → ℤ
  showState : Bytes → Option Bytes
  systemctl : List Bytes → ℤ

/-- The errors of an application. -/
inductive Failure where
  | notExecutable
  | handlerFailed (status : ℤ)
  | daemonReloadFailed (status : ℤ)
  | requiresUnits
  | unitsTooLong
  | invalidUnit (unit : Bytes)
  | actionFailed (unit : Bytes) (status : ℤ)
  deriving DecidableEq

/-- What an application did. -/
structure Report where
  handlers : List Translator
  calls : List (List Bytes)
  failures : List Failure
  deriving DecidableEq

/-- Nothing was done. -/
def Report.none : Report := ⟨[], [], []⟩

/-- One thing after the other. -/
def Report.append (r s : Report) : Report :=
  ⟨r.handlers ++ s.handlers, r.calls ++ s.calls, r.failures ++ s.failures⟩

/-- Only a failure. -/
def Report.fail (f : Failure) : Report := ⟨[], [], [f]⟩

variable (env : Env)

/-- `run_handler`. -/
def runHandler (changed : Bytes) (t : Translator) : Report :=
  if !env.executable t.command.bytes then .fail .notExecutable
  else
    let entry := snprintf (maxCsv + 64)
      (ascii "NEON_UCI_CHANGED_PACKAGES=" ++ if changed ≠ [] then changed else ascii "*")
    let status := env.handler t.command.bytes entry
    ⟨[t], [], if status ≠ 0 then [.handlerFailed status] else []⟩

/-- `unit_exists`, which reads at most 63 bytes. -/
def unitExists (unit : Bytes) : Bool :=
  match env.showState unit with
  | none => false
  | some out =>
    let p := trim (cstr (out.take 63))
    p ≠ ascii "not-found" && p ≠ []

/-- The loop body of `run_systemctl_action`. -/
def runUnit (t : Translator) (unit : Bytes) : Report :=
  if !safeToken unit then .fail (.invalidUnit unit)
  else if t.unitOptional && !unitExists env unit then .none
  else
    let argv := [t.action.bytes, unit]
    let status := env.systemctl argv
    ⟨[], [argv], if status ≠ 0 then [.actionFailed unit status] else []⟩

/-- The loop of `run_systemctl_action`. -/
def runUnits (t : Translator) : List Bytes → Report
  | [] => .none
  | unit :: rest => (runUnit env t unit).append (runUnits t rest)

/-- `run_systemctl_action`. -/
def runSystemctlAction (t : Translator) : Report :=
  if t.action.bytes = ascii "none" then .none
  else if t.action.bytes = ascii "daemon-reload" then
    let argv := [ascii "daemon-reload"]
    let status := env.systemctl argv
    ⟨[], [argv], if status ≠ 0 then [.daemonReloadFailed status] else []⟩
  else if t.units.bytes = [] then .fail .requiresUnits
  else if searchSize ≤ t.units.bytes.length then .fail .unitsTooLong
  else runUnits env t (csvNames t.units.bytes)

/-- The loop body of `apply_translators`. -/
def applyOne (changed : Bytes) (t : Translator) : Report :=
  if !t.enabled then .none
  else if !translatorMatchesPackages t changed then .none
  else
    let r := runHandler env changed t
    if r.failures ≠ [] then r else r.append (runSystemctlAction env t)

/-- The loop of `apply_translators`. -/
def applyLoop (changed : Bytes) : List Translator → Report
  | [] => .none
  | t :: rest => (applyOne env changed t).append (applyLoop changed rest)

/-- `apply_translators`: its return value and what it did. -/
def applyTranslators (dir : Directory) (changed : Bytes) : ℤ × Report :=
  match loadTranslators dir with
  | .error _ => (-1, .none)
  | .ok ts =>
    let r := applyLoop env changed ts
    (if r.failures ≠ [] then -1 else 0, r)

/-- The branch of `watch_loop` for a poll that times out. -/
def debounce (dir : Directory) (pending : Bytes) : Report :=
  if pending ≠ [] then (applyTranslators env dir (snprintf maxCsv pending)).2 else .none

/-- The translators of a directory; none if it does not load. -/
def translators (dir : Directory) : List Translator :=
  match loadTranslators dir with
  | .error _ => []
  | .ok ts => ts

/-- The errors that `check_configuration` counts. -/
inductive CheckFailure where
  | notExecutable
  | packagesTooLong
  | invalidPackage (p : Bytes)
  deriving DecidableEq

/-- The loop body of `check_configuration`. -/
def checkOne (t : Translator) : List CheckFailure :=
  if !t.enabled then []
  else
    (if !env.executable t.command.bytes then [.notExecutable] else []) ++
      if searchSize ≤ t.packages.bytes.length then [.packagesTooLong]
      else ((csvNames t.packages.bytes).filter (!packageNameValid ·)).map .invalidPackage

/-- `check_configuration`. -/
def checkConfiguration (dir : Directory) : ℕ :=
  match loadTranslators dir with
  | .error _ => 1
  | .ok ts => if ts.flatMap (checkOne env) ≠ [] then 1 else 0

/-- The application for `changed` runs the handler of `t`. -/
def handles (changed : Bytes) (t : Translator) : Bool :=
  t.enabled && translatorMatchesPackages t changed && env.executable t.command.bytes

variable {env}

@[simp] theorem runUnit_handlers (t : Translator) (unit : Bytes) :
    (runUnit env t unit).handlers = [] := by
  unfold runUnit
  split_ifs <;> rfl

@[simp] theorem runUnits_handlers (t : Translator) (units : List Bytes) :
    (runUnits env t units).handlers = [] := by
  induction units with
  | nil => rfl
  | cons unit rest ih => simp [runUnits, Report.append, ih]

@[simp] theorem runSystemctlAction_handlers (t : Translator) :
    (runSystemctlAction env t).handlers = [] := by
  unfold runSystemctlAction
  split_ifs
  · rfl
  · rfl
  · rfl
  · rfl
  · exact runUnits_handlers t _

theorem runHandler_handlers (changed : Bytes) (t : Translator) :
    (runHandler env changed t).handlers = if env.executable t.command.bytes then [t] else [] := by
  cases h : env.executable t.command.bytes <;> simp [runHandler, h, Report.fail]

theorem applyOne_handlers (changed : Bytes) (t : Translator) :
    (applyOne env changed t).handlers = if handles env changed t then [t] else [] := by
  have haction : (runHandler env changed t).handlers =
      (if (runHandler env changed t).failures ≠ [] then runHandler env changed t
        else (runHandler env changed t).append (runSystemctlAction env t)).handlers := by
    split_ifs
    · rfl
    · simp [Report.append]
  rw [runHandler_handlers] at haction
  unfold applyOne handles
  cases t.enabled
  · rfl
  · cases translatorMatchesPackages t changed
    · rfl
    · simpa using haction.symm

/-- An application runs the handlers of the translators it handles, in order. -/
theorem applyLoop_handlers (changed : Bytes) (ts : List Translator) :
    (applyLoop env changed ts).handlers = ts.filter (handles env changed) := by
  induction ts with
  | nil => rfl
  | cons t rest ih =>
    rw [applyLoop, Report.append, List.filter_cons, applyOne_handlers, ih]
    split_ifs <;> rfl

theorem applyTranslators_handlers (dir : Directory) (changed : Bytes) :
    (applyTranslators env dir changed).2.handlers =
      (translators dir).filter (handles env changed) := by
  unfold applyTranslators translators
  cases loadTranslators dir with
  | error e => rfl
  | ok ts => exact applyLoop_handlers changed ts

/-- The pending string holds each added name once, and applying it runs the handlers
of exactly the enabled translators that declare an added name, each once. -/
def BatchExact (env : Env) (dir : Directory) (names : List Bytes) (csv : Bytes) : Prop :=
  (∀ n ∈ names, (csvNames csv).count n = 1) ∧
    (debounce env dir csv).handlers = (translators dir).filter fun t =>
      t.enabled && env.executable t.command.bytes && decide (∃ n ∈ names, t.Declares n)

/-- The handlers that a joined list of at least one name runs. -/
theorem debounce_handlers {dir : Directory} {names : List Bytes} (h : AllValid names)
    (hne : names ≠ []) (hlen : (csvOf names).length < maxCsv) :
    (debounce env dir (csvOf names)).handlers = (translators dir).filter fun t =>
      t.enabled && env.executable t.command.bytes &&
        decide ((csvOf names).length < searchSize ∧ ∃ n ∈ names, t.Declares n) := by
  have hempty : csvOf names ≠ [] := mt (csvOf_eq_nil_iff h).mp hne
  rw [debounce, if_pos hempty, snprintf_of_length_lt hlen, applyTranslators_handlers]
  apply List.filter_congr
  intro t _
  rw [handles, Bool.and_right_comm]
  congr 1
  rw [Bool.eq_iff_iff, translatorMatchesPackages_csvOf t h hne, decide_eq_true_iff]

/-- A batch is exact if the distinct names fit the search buffer; otherwise only if
no handler is called for, and no name is repeated too late. -/
theorem batch_exact_iff (env : Env) (dir : Directory) (names : List Bytes) (csv : Bytes)
    (h : csvAddAll maxCsv names [] = some csv) :
    BatchExact env dir names csv ↔
      (csvOf (distinct names)).length < searchSize ∨
        (¬ LateRepeat names ∧ ∀ t ∈ translators dir, t.enabled = true →
          env.executable t.command.bytes = true → ∀ n ∈ names, ¬ t.Declares n) := by
  obtain ⟨hvalid, hcsv, hlen⟩ := (@csvAddAll_eq_some_iff names maxCsv [] csv (by simp [AllValid])
    (by decide)).mp h
  have hadded : AllValid (added names) := fun n hn => hvalid n (mem_added.mp hn)
  have hcount : (∀ n ∈ names, (csvNames csv).count n = 1) ↔ (added names).Nodup := by
    rw [hcsv, List.nodup_iff_count_eq_one]
    change (∀ n ∈ names, (csvNames (csvOf (added names))).count n = 1) ↔ _
    simp only [csvNames_csvOf hadded, mem_added]
  have hhandlers : (debounce env dir csv).handlers = (translators dir).filter fun t =>
      t.enabled && env.executable t.command.bytes &&
        decide ((csvOf (distinct names)).length < searchSize ∧ ∃ n ∈ names, t.Declares n) := by
    by_cases hne : names = []
    · subst hne
      simp [hcsv, debounce, csvOf, Report.none]
    · have hne' : added names ≠ [] := by
        intro hnil
        obtain ⟨n, hn⟩ := List.exists_mem_of_ne_nil names hne
        have := mem_added.mpr hn
        simp [hnil] at this
      rw [hcsv] at hlen ⊢
      rw [show csvOf (names.foldl addTo []) = csvOf (added names) from rfl] at hlen ⊢
      rw [debounce_handlers hadded hne' hlen]
      simp only [(added_eq_distinct names).2, mem_added]
  rw [BatchExact, hcount, hhandlers, nodup_added_iff]
  by_cases hfits : (csvOf (distinct names)).length < searchSize
  · have hnodup : (added names).Nodup := (added_eq_distinct names).1 hfits ▸ nodup_distinct names
    simp [hfits, (nodup_added_iff names).mp hnodup]
  · simp only [hfits, false_and, decide_false, Bool.and_false, List.filter_false, false_or]
    rw [eq_comm, List.filter_eq_nil_iff]
    simp

/-- Every file is executable and every program succeeds. -/
def allSucceed : Env := ⟨fun _ => true, fun _ _ => 0, fun _ => some (ascii "loaded"), fun _ => 0⟩

/-- A directory with one manifest, that of a translator of the package `network`
with the given further lines. -/
def networkDir (lines : String) : Directory where
  path := ascii "/etc/neon-uci.d"
  entries := some [(ascii "10-network.conf",
    some (ascii ("[translator]\nname=network\npackages=network\ncommand=/bin/true\n" ++ lines)))]

/-- One changed package makes an exact batch. -/
theorem batch_network_exact :
    csvAddAll maxCsv [ascii "network"] [] = some (ascii "network") ∧
      BatchExact allSucceed (networkDir "") [ascii "network"] (ascii "network") :=
  ⟨by decide, (batch_exact_iff _ _ _ _ (by decide)).mpr (Or.inl (by decide))⟩

/-- The package `network` and nine packages with names of 255 bytes. -/
def longBatch : List Bytes :=
  ascii "network" :: (List.range 9).map fun k => List.replicate 254 97 ++ [48 + UInt8.ofNat k]

/-- After `longBatch` the handler for `network` does not run. -/
theorem exists_batch_not_exact :
    ¬ ∀ env dir names csv, csvAddAll maxCsv names [] = some csv → BatchExact env dir names csv := by
  intro h
  have hvalid : AllValid longBatch := by unfold AllValid; decide +kernel
  have hadded : added longBatch = longBatch := by decide +kernel
  have hlen : (csvOf longBatch).length = 2311 := by decide +kernel
  have hadd : csvAddAll maxCsv longBatch [] = some (csvOf longBatch) := by
    apply (@csvAddAll_eq_some_iff longBatch maxCsv [] _ (by simp [AllValid]) (by decide)).mpr
    refine ⟨hvalid, ?_, by rw [hlen]; decide⟩
    exact congrArg csvOf hadded.symm
  have hrun := (h allSucceed (networkDir "") longBatch _ hadd).2
  rw [debounce_handlers hvalid (List.cons_ne_nil _ _) (by rw [hlen]; decide), hlen] at hrun
  -- At 2311 bytes nothing matches, so no handler may have been called for.
  have hnone : ∀ t ∈ translators (networkDir ""), ¬ (t.enabled = true ∧
      ∃ n ∈ longBatch, t.Declares n) := by
    intro t ht hdeclares
    simp only [searchSize, show ¬ 2311 < 2048 by decide, false_and, decide_false, Bool.and_false,
      List.filter_false] at hrun
    have hmiss := List.filter_eq_nil_iff.mp hrun.symm t ht
    simp [allSucceed, hdeclares] at hmiss
  have hnetwork : ∃ t ∈ translators (networkDir ""), t.enabled = true ∧
      t.Declares (ascii "network") := by decide +kernel
  obtain ⟨t, ht, henabled, hdeclares⟩ := hnetwork
  exact hnone t ht ⟨henabled, _, List.mem_cons_self, hdeclares⟩

/-- The units of the translator can be acted on: they are given where the action
needs them, and each is a safe token. -/
def UnitsOk (t : Translator) : Prop :=
  t.action.bytes ∈ unitActions →
    t.units.bytes ≠ [] ∧ ∀ u ∈ csvNames t.units.bytes, safeToken u = true

/-- Handlers and systemctl succeed. -/
structure Succeeds (env : Env) : Prop where
  handler : ∀ command entry, env.handler command entry = 0
  systemctl : ∀ argv, env.systemctl argv = 0

theorem runUnits_failures (hsucc : Succeeds env) (t : Translator) (units : List Bytes) :
    (runUnits env t units).failures = [] ↔ ∀ u ∈ units, safeToken u = true := by
  induction units with
  | nil => simp [runUnits, Report.none]
  | cons u rest ih =>
    have hunit : (runUnit env t u).failures = [] ↔ safeToken u = true := by
      unfold runUnit
      cases hsafe : safeToken u
      · simp [Report.fail]
      · cases t.unitOptional && !unitExists env u <;> simp [Report.none, hsucc.systemctl]
    rw [runUnits, Report.append]
    simp [hunit, ih]

theorem runSystemctlAction_failures (hsucc : Succeeds env) {t : Translator}
    (haction : actionValid t.action.bytes = true) :
    (runSystemctlAction env t).failures = [] ↔ UnitsOk t := by
  have hunits : ¬ searchSize ≤ t.units.bytes.length := by
    have := t.units.fits
    rw [searchSize]
    omega
  unfold runSystemctlAction UnitsOk
  simp only [actionValid, Bool.or_eq_true, beq_iff_eq, List.contains_iff_mem] at haction
  rcases haction with (hnone | hneeds) | hreload
  · have hneedless : ascii "none" ∉ unitActions := by decide
    simp [hnone, hneedless, Report.none]
  · have hnone : t.action.bytes ≠ ascii "none" := by
      intro h
      rw [h] at hneeds
      exact absurd hneeds (by decide)
    have hreload : t.action.bytes ≠ ascii "daemon-reload" := by
      intro h
      rw [h] at hneeds
      exact absurd hneeds (by decide)
    by_cases hempty : t.units.bytes = []
    · simp [hnone, hreload, hneeds, hempty, Report.fail]
    · simp [hnone, hreload, hneeds, hempty, hunits, runUnits_failures hsucc]
  · have hneedless : ascii "daemon-reload" ∉ unitActions := by decide
    have hnone : ascii "daemon-reload" ≠ ascii "none" := by decide
    simp [hneedless, hreload, hnone, hsucc.systemctl]

theorem applyOne_failures (hsucc : Succeeds env) {t : Translator}
    (haction : actionValid t.action.bytes = true)
    (hexec : t.enabled = true → env.executable t.command.bytes = true) :
    (applyOne env (ascii "*") t).failures = [] ↔ (t.enabled = true → UnitsOk t) := by
  unfold applyOne
  cases henabled : t.enabled
  · simp [Report.none]
  · have hmatches : translatorMatchesPackages t (ascii "*") = true := by
      simp [translatorMatchesPackages]
    simp [hmatches, runHandler, hexec henabled, hsucc.handler, Report.append,
      runSystemctlAction_failures hsucc haction]

theorem applyLoop_failures (hsucc : Succeeds env) {ts : List Translator}
    (hts : ∀ t ∈ ts, actionValid t.action.bytes = true ∧
      (t.enabled = true → env.executable t.command.bytes = true)) :
    (applyLoop env (ascii "*") ts).failures = [] ↔ ∀ t ∈ ts, t.enabled = true → UnitsOk t := by
  induction ts with
  | nil => simp [applyLoop, Report.none]
  | cons t rest ih =>
    obtain ⟨haction, hexec⟩ := hts t (by simp)
    rw [applyLoop, Report.append, List.append_eq_nil_iff, applyOne_failures hsucc haction hexec,
      ih fun u hu => hts u (by simp [hu]), List.forall_mem_cons]

/-- A directory that passes the check has only executable handlers. -/
theorem executable_of_checkConfiguration {dir : Directory} {ts : List Translator}
    (hload : loadTranslators dir = .ok ts) (hcheck : checkConfiguration env dir = 0) :
    ∀ t ∈ ts, t.enabled = true → env.executable t.command.bytes = true := by
  intro t ht henabled
  have hnone : ts.flatMap (checkOne env) = [] := by
    by_contra hne
    simp [checkConfiguration, hload, hne] at hcheck
  have hone : checkOne env t = [] := List.flatMap_eq_nil_iff.mp hnone t ht
  by_contra hexec
  simp [checkOne, henabled, hexec] at hone

/-- With handlers and systemctl that succeed, a directory that passes `--check` can be
applied exactly if its enabled translators have acceptable units, which the check
does not look at. -/
theorem check_suffices_iff (env : Env) (dir : Directory) (hsucc : Succeeds env) :
    (checkConfiguration env dir = 0 → (applyTranslators env dir (ascii "*")).1 = 0) ↔
      (checkConfiguration env dir = 0 → ∀ t ∈ translators dir, t.enabled = true → UnitsOk t) := by
  apply forall_congr'
  intro hcheck
  cases hload : loadTranslators dir with
  | error e => simp [checkConfiguration, hload] at hcheck
  | ok ts =>
    have hts : ∀ t ∈ ts, actionValid t.action.bytes = true ∧
        (t.enabled = true → env.executable t.command.bytes = true) := by
      intro t ht
      obtain ⟨path, content, hparse⟩ := loadTranslators_ok hload t ht
      exact ⟨(parseManifest_ok hparse).2.2.2, executable_of_checkConfiguration hload hcheck t ht⟩
    simp only [applyTranslators, translators, hload]
    rw [← applyLoop_failures hsucc hts]
    by_cases hfail : (applyLoop env (ascii "*") ts).failures = [] <;> simp [hfail]

theorem succeeds_allSucceed : Succeeds allSucceed := ⟨fun _ _ => rfl, fun _ => rfl⟩

/-- A manifest with a unit to restart passes the check and can be applied. -/
theorem check_suffices_network :
    checkConfiguration allSucceed (networkDir "units=a.service\naction=restart\n") = 0 ∧
      (applyTranslators allSucceed (networkDir "units=a.service\naction=restart\n")
        (ascii "*")).1 = 0 :=
  ⟨by decide +kernel, (check_suffices_iff allSucceed _ succeeds_allSucceed).mpr
    (fun _ => by unfold UnitsOk; decide +kernel) (by decide +kernel)⟩

/-- A manifest without units for its restart passes the check, and applying it fails. -/
theorem exists_checked_not_applicable :
    ¬ ∀ env dir, Succeeds env → checkConfiguration env dir = 0 →
      (applyTranslators env dir (ascii "*")).1 = 0 := by
  intro h
  have hzero := h allSucceed (networkDir "action=restart\n") succeeds_allSucceed
    (by decide +kernel)
  exact absurd hzero (by decide +kernel)

end NeonWrt.Uci
