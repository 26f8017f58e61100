import NeonWrt.Procd.Instance

/-!
# Triggers

procd.sh writes the triggers of a service as nested JSON arrays, with the array
builder of jshn, and neon-procd evaluates them when an event arrives. The nested
arrays are a small untyped language: conditions (`eq`, `ne`, `and`, `or`, `not`)
over the data of the event, and expressions (`run_script`, `if`, lists of
expressions). This file models both ends, gives the language an abstract syntax
with its meaning, and shows that the evaluator computes that meaning.

A script is reported by its argument vector, so the value of an evaluation is
the list of argument vectors handed to `runv`, in order.
-/

namespace NeonWrt.Procd

open Lib

/-- The arrays that are open, the innermost one first. -/
abbrev Builder := List (List Json)

/-- A value appended to the innermost array. -/
def jsonAdd (v : Json) : Builder → Builder
  | items :: outer => (items ++ [v]) :: outer
  | [] => []

/-- `json_add_string ""`. -/
def jsonAddString (s : CStr) : Builder → Builder := jsonAdd (.str s.bytes)

/-- `json_add_int ""`. -/
def jsonAddInt (n : ℤ) : Builder → Builder := jsonAdd (.int n)

/-- `json_add_array ""`. -/
def jsonAddArray (b : Builder) : Builder := [] :: b

/-- `json_close_array`. -/
def jsonCloseArray : Builder → Builder
  | items :: outer => jsonAdd (.arr items) outer
  | [] => []

/-- `_procd_add_array_data`. -/
def procdAddArrayData : List CStr → Builder → Builder
  | [], b => b
  | s :: rest, b => procdAddArrayData rest (jsonAddString s b)

theorem procdAddArrayData_cons (words : List CStr) (items : List Json) (outer : Builder) :
    procdAddArrayData words (items :: outer) =
      (items ++ words.map fun w => .str w.bytes) :: outer := by
  induction words generalizing items with
  | nil => simp [procdAddArrayData]
  | cons w words ih =>
    rw [procdAddArrayData, jsonAddString, jsonAdd, ih]
    simp

/-- The part that `_procd_add_interface_trigger` and `_procd_add_config_trigger`
share: a script that runs if `key` has the given value. -/
def procdAddIf (pattern key value : CStr) (script : List CStr) (b : Builder) : Builder :=
  let b := procdAddArrayData [pattern] (jsonAddArray b)
  let b := procdAddArrayData [CStr.lit "if"] (jsonAddArray b)
  let b := jsonCloseArray (procdAddArrayData [CStr.lit "eq", key, value] (jsonAddArray b))
  let b := jsonCloseArray (procdAddArrayData (CStr.lit "run_script" :: script) (jsonAddArray b))
  jsonCloseArray b

/-- `_procd_add_interface_trigger`. -/
def procdAddInterfaceTrigger (pattern iface : CStr) (script : List CStr) (b : Builder) : Builder :=
  jsonCloseArray (procdAddIf pattern (CStr.lit "interface") iface script b)

/-- `_procd_add_config_trigger`. -/
def procdAddConfigTrigger (pattern package : CStr) (script : List CStr) (b : Builder) : Builder :=
  jsonCloseArray (procdAddIf pattern (CStr.lit "package") package script b)

/-- `_procd_add_data_trigger`. The delay is `PROCD_RELOAD_DELAY`, `none` if that is
not a number. -/
def procdAddDataTrigger (delay : Option ℤ) (value : CStr) (script : List CStr) (b : Builder) :
    Builder :=
  let b := procdAddIf (CStr.lit "service.data.update") (CStr.lit "name") value script b
  jsonCloseArray (match delay with
    | some d => if 0 < d then jsonAddInt d b else b
    | none => b)

/-- `_procd_add_raw_trigger`; an empty timeout counts as 0. -/
def procdAddRawTrigger (pattern timeout : CStr) (script : List CStr) (b : Builder) : Builder :=
  let b := procdAddArrayData [pattern] (jsonAddArray b)
  let b := procdAddArrayData (CStr.lit "run_script" :: script) (jsonAddArray (jsonAddArray b))
  let b := jsonCloseArray (jsonCloseArray b)
  jsonCloseArray (jsonAddInt (Json.parseInt timeout.bytes) b)

/-- `execute_argv_slice`: the argument vector it runs, if any. -/
def executeArgvSlice (a : List Json) (start : ℕ) : List (List CStr) :=
  if a.length ≤ start ∨ maxArgs ≤ a.length - start then []
  else
    match (a.drop start).mapM Json.getString with
    | none => []
    | some argv => [argv]

/-- `event_data_value`. -/
def eventDataValue (data : Json) (key : Option CStr) : Option CStr := do
  let v ← data.get? (← key)
  v.getString

/-- The `equal` of `eval_condition`. -/
def equal (data key want : Json) : Bool :=
  match eventDataValue data key.getString, want.getString with
  | some got, some want => got = want
  | _, _ => false

mutual

/-- `eval_condition`. -/
def evalCondition (data : Json) : Json → Bool
  | .arr (first :: args) =>
    match first.getString with
    | none => false
    | some op =>
      if op = CStr.lit "eq" ∧ 2 ≤ args.length then equal data (args.getD 0 .null) (args.getD 1 .null)
      else if op = CStr.lit "ne" ∧ 2 ≤ args.length then
        !equal data (args.getD 0 .null) (args.getD 1 .null)
      else if op = CStr.lit "and" then evalAnd data args
      else if op = CStr.lit "or" then evalOr data args
      else if op = CStr.lit "not" then evalNot data args
      else false
  | _ => false

/-- The loop of `and`, which ends at the first condition that is false. -/
def evalAnd (data : Json) : List Json → Bool
  | [] => true
  | c :: rest => evalCondition data c && evalAnd data rest

/-- The loop of `or`, which ends at the first condition that is true. -/
def evalOr (data : Json) : List Json → Bool
  | [] => false
  | c :: rest => evalCondition data c || evalOr data rest

/-- `not` looks at its first argument only. -/
def evalNot (data : Json) : List Json → Bool
  | [] => false
  | c :: _ => !evalCondition data c

end

/-- `json_object_is_type(v, json_type_array)`. -/
def isArray : Json → Bool
  | .arr _ => true
  | _ => false

mutual

/-- `execute_trigger_expr`. -/
def executeTriggerExpr (data : Json) : Json → List (List CStr)
  | .arr (first :: args) =>
    if isArray first then executeTriggerExpr data first ++ executeAll data args
    else
      match first.getString with
      | none => []
      | some op =>
        if op = CStr.lit "run_script" then executeArgvSlice (first :: args) 1
        else if op = CStr.lit "if" then executeIf data args
        else []
  | _ => []

/-- The `if`: only the action is looked at, an else branch is ignored. -/
def executeIf (data : Json) : List Json → List (List CStr)
  | cond :: action :: _ => if evalCondition data cond then executeTriggerExpr data action else []
  | _ => []

/-- The loop over a list of expressions. -/
def executeAll (data : Json) : List Json → List (List CStr)
  | [] => []
  | e :: rest => executeTriggerExpr data e ++ executeAll data rest

end

/-- `inspect_trigger`, for a given `fnmatch`. -/
def inspectTrigger (fnmatch : CStr → CStr → Bool) (etype : CStr) (data : Json) :
    Json → List (List CStr)
  | .arr (first :: expr :: _) =>
    match first.getString with
    | none => []
    | some pattern => if fnmatch pattern etype then executeTriggerExpr data expr else []
  | _ => []

/-- An argument vector within the limit of `execute_argv_slice`. -/
structure Argv where
  words : List CStr
  within : words.length < maxArgs

/-- What running a vector runs: the vector, unless it names no program. -/
def Argv.runs (a : Argv) : List (List CStr) := if a.words = [] then [] else [a.words]

/-- A vector as the arguments of `run_script`. -/
def Argv.toJson (a : Argv) : Json :=
  .arr (.str (CStr.lit "run_script").bytes :: a.words.map fun w => .str w.bytes)

/-- Conditions over the data of an event. -/
inductive Cond where
  | eq (key want : Json)
  | ne (key want : Json)
  | and (cs : List Cond)
  | or (cs : List Cond)
  | not (c : Cond)

/-- Expressions. An `if` may carry further elements, such as an else branch, which
have no meaning; an unknown operation runs nothing. -/
inductive Expr where
  | script (argv : Argv)
  | ifThen (c : Cond) (action : Expr) (rest : List Json)
  | list (es : List Expr)
  | unknown (op : CStr) (args : List Json) (script : op ≠ CStr.lit "run_script")
      (ifThen : op ≠ CStr.lit "if")

/-- `data[key]` is present, not null, and written as the value is. -/
def DataIs (data key want : Json) : Prop :=
  ∃ k v, key.getString = some k ∧ want.getString = some v ∧
    ∃ j, data.get? k = some j ∧ j.getString = some v

mutual

/-- The array of a condition. -/
def Cond.toJson : Cond → Json
  | .eq key want => .arr [.str (CStr.lit "eq").bytes, key, want]
  | .ne key want => .arr [.str (CStr.lit "ne").bytes, key, want]
  | .and cs => .arr (.str (CStr.lit "and").bytes :: Cond.toJsons cs)
  | .or cs => .arr (.str (CStr.lit "or").bytes :: Cond.toJsons cs)
  | .not c => .arr [.str (CStr.lit "not").bytes, c.toJson]

def Cond.toJsons : List Cond → List Json
  | [] => []
  | c :: cs => c.toJson :: Cond.toJsons cs

end

mutual

/-- The boolean meaning of a condition. -/
def Cond.Holds (data : Json) : Cond → Prop
  | .eq key want => DataIs data key want
  | .ne key want => ¬ DataIs data key want
  | .and cs => Cond.AllHold data cs
  | .or cs => Cond.SomeHolds data cs
  | .not c => ¬ c.Holds data

def Cond.AllHold (data : Json) : List Cond → Prop
  | [] => True
  | c :: cs => c.Holds data ∧ Cond.AllHold data cs

def Cond.SomeHolds (data : Json) : List Cond → Prop
  | [] => False
  | c :: cs => c.Holds data ∨ Cond.SomeHolds data cs

end

mutual

/-- The array of an expression. -/
def Expr.toJson : Expr → Json
  | .script argv => argv.toJson
  | .ifThen c action rest =>
    .arr (.str (CStr.lit "if").bytes :: c.toJson :: action.toJson :: rest)
  | .list es => .arr (Expr.toJsons es)
  | .unknown op args _ _ => .arr (.str op.bytes :: args)

def Expr.toJsons : List Expr → List Json
  | [] => []
  | e :: es => e.toJson :: Expr.toJsons es

end

open Classical in
mutual

/-- The scripts reachable through lists and through conditions that hold, from
left to right. -/
noncomputable def Expr.scripts (data : Json) : Expr → List (List CStr)
  | .script argv => argv.runs
  | .ifThen c action _ => if c.Holds data then action.scripts data else []
  | .list es => Expr.scriptsAll data es
  | .unknown _ _ _ _ => []

noncomputable def Expr.scriptsAll (data : Json) : List Expr → List (List CStr)
  | [] => []
  | e :: es => e.scripts data ++ Expr.scriptsAll data es

end

variable {data : Json}

theorem equal_eq_true_iff {key want : Json} : equal data key want = true ↔ DataIs data key want := by
  unfold equal eventDataValue DataIs
  cases hkey : key.getString with
  | none => simp
  | some k =>
    cases hget : data.get? k with
    | none => simp [hget]
    | some j =>
      cases hj : j.getString with
      | none => simp [hget, hj]
      | some got =>
        cases hwant : want.getString with
        | none => simp [hget, hj]
        | some v => simp [hget, hj]

theorem evalCondition_eq (key want : Json) :
    evalCondition data (.arr [.str (CStr.lit "eq").bytes, key, want]) = equal data key want := rfl

theorem evalCondition_ne (key want : Json) :
    evalCondition data (.arr [.str (CStr.lit "ne").bytes, key, want]) = !equal data key want := rfl

theorem evalCondition_and (args : List Json) :
    evalCondition data (.arr (.str (CStr.lit "and").bytes :: args)) = evalAnd data args := rfl

theorem evalCondition_or (args : List Json) :
    evalCondition data (.arr (.str (CStr.lit "or").bytes :: args)) = evalOr data args := rfl

theorem evalCondition_not (args : List Json) :
    evalCondition data (.arr (.str (CStr.lit "not").bytes :: args)) = evalNot data args := rfl

mutual

/-- Evaluating the array of a condition computes its boolean meaning. -/
theorem evalCondition_toJson (c : Cond) :
    evalCondition data c.toJson = true ↔ c.Holds data := by
  match c with
  | .eq key want =>
    rw [Cond.toJson, evalCondition_eq]
    exact equal_eq_true_iff
  | .ne key want =>
    rw [Cond.toJson, evalCondition_ne, Bool.not_eq_true', ← Bool.not_eq_true]
    exact not_congr equal_eq_true_iff
  | .and cs =>
    rw [Cond.toJson, evalCondition_and]
    exact evalAnd_toJsons cs
  | .or cs =>
    rw [Cond.toJson, evalCondition_or]
    exact evalOr_toJsons cs
  | .not c =>
    rw [Cond.toJson, evalCondition_not, evalNot, Bool.not_eq_true', ← Bool.not_eq_true]
    exact not_congr (evalCondition_toJson c)

theorem evalAnd_toJsons (cs : List Cond) :
    evalAnd data (Cond.toJsons cs) = true ↔ Cond.AllHold data cs := by
  match cs with
  | [] => simp [Cond.toJsons, evalAnd, Cond.AllHold]
  | c :: cs =>
    rw [Cond.toJsons, evalAnd, Bool.and_eq_true, Cond.AllHold]
    exact and_congr (evalCondition_toJson c) (evalAnd_toJsons cs)

theorem evalOr_toJsons (cs : List Cond) :
    evalOr data (Cond.toJsons cs) = true ↔ Cond.SomeHolds data cs := by
  match cs with
  | [] => simp [Cond.toJsons, evalOr, Cond.SomeHolds]
  | c :: cs =>
    rw [Cond.toJsons, evalOr, Bool.or_eq_true, Cond.SomeHolds]
    exact or_congr (evalCondition_toJson c) (evalOr_toJsons cs)

end

theorem mapM_getString_words (words : List CStr) :
    (words.map fun w => Json.str w.bytes).mapM Json.getString = some words := by
  induction words with
  | nil => rfl
  | cons w words ih => simp [ih, Json.getString_str]

theorem executeTriggerExpr_argv (argv : Argv) :
    executeTriggerExpr data argv.toJson = argv.runs := by
  have hop : executeTriggerExpr data argv.toJson =
      executeArgvSlice (.str (CStr.lit "run_script").bytes :: argv.words.map fun w => .str w.bytes)
        1 := rfl
  have hlimit : ¬ maxArgs ≤ argv.words.length := not_le.mpr argv.within
  rw [hop, executeArgvSlice, List.drop_succ_cons, List.drop_zero, mapM_getString_words, Argv.runs]
  simp [hlimit, List.length_eq_zero_iff]

theorem executeTriggerExpr_if (cond action : Json) (rest : List Json) :
    executeTriggerExpr data (.arr (.str (CStr.lit "if").bytes :: cond :: action :: rest)) =
      if evalCondition data cond then executeTriggerExpr data action else [] := rfl

theorem isArray_toJson (e : Expr) : isArray e.toJson = true := by
  cases e <;> rfl

theorem executeTriggerExpr_list (es : List Expr) :
    executeTriggerExpr data (.arr (Expr.toJsons es)) = executeAll data (Expr.toJsons es) := by
  cases es with
  | nil => rfl
  | cons e es => simp [Expr.toJsons, executeTriggerExpr, executeAll, isArray_toJson]

mutual

/-- Evaluating the array of an expression runs its scripts. -/
theorem executeTriggerExpr_toJson (e : Expr) :
    executeTriggerExpr data e.toJson = e.scripts data := by
  match e with
  | .script argv => exact executeTriggerExpr_argv argv
  | .ifThen c action rest =>
    rw [Expr.toJson, executeTriggerExpr_if, Expr.scripts, executeTriggerExpr_toJson action]
    by_cases hc : c.Holds data
    · rw [if_pos hc, if_pos ((evalCondition_toJson c).mpr hc)]
    · rw [if_neg hc, if_neg (mt (evalCondition_toJson c).mp hc)]
  | .list es =>
    rw [Expr.toJson, executeTriggerExpr_list, Expr.scripts]
    exact executeAll_toJsons es
  | .unknown op args hscript hif =>
    simp [Expr.toJson, executeTriggerExpr, Expr.scripts, isArray, Json.getString_str, hscript, hif]

theorem executeAll_toJsons (es : List Expr) :
    executeAll data (Expr.toJsons es) = Expr.scriptsAll data es := by
  match es with
  | [] => rfl
  | e :: es =>
    rw [Expr.toJsons, executeAll, Expr.scriptsAll, executeTriggerExpr_toJson e,
      executeAll_toJsons es]

end

/-- A trigger as an init script asks procd.sh for it. -/
inductive Trigger where
  | interface (pattern iface : CStr)
  | data (value : CStr)
  | config (pattern package : CStr)
  | raw (pattern timeout : CStr)

/-- The builder of a trigger. -/
def Trigger.add (delay : Option ℤ) (script : List CStr) : Trigger → Builder → Builder
  | .interface pattern iface => procdAddInterfaceTrigger pattern iface script
  | .data value => procdAddDataTrigger delay value script
  | .config pattern package => procdAddConfigTrigger pattern package script
  | .raw pattern timeout => procdAddRawTrigger pattern timeout script

/-- The event pattern of a trigger. -/
def Trigger.pattern : Trigger → CStr
  | .interface pattern _ => pattern
  | .data _ => CStr.lit "service.data.update"
  | .config pattern _ => pattern
  | .raw pattern _ => pattern

/-- The key and the value that a conditional trigger compares. -/
def Trigger.condition : Trigger → Option (CStr × CStr)
  | .interface _ iface => some (CStr.lit "interface", iface)
  | .data value => some (CStr.lit "name", value)
  | .config _ package => some (CStr.lit "package", package)
  | .raw _ _ => none

/-- The event is one the trigger waits for. -/
def Trigger.Fires (t : Trigger) (fnmatch : CStr → CStr → Bool) (etype : CStr) (data : Json) :
    Prop :=
  fnmatch t.pattern etype = true ∧
    ∀ key value, t.condition = some (key, value) → ∃ j, data.get? key = some j ∧
      j.getString = some value

/-- The expression a trigger stores. -/
def Trigger.expr (t : Trigger) (argv : Argv) : Expr :=
  match t.condition with
  | some (key, value) => .ifThen (.eq (.str key.bytes) (.str value.bytes)) (.script argv) []
  | none => .list [.script argv]

/-- What follows the expression in the array of a trigger. -/
def Trigger.tail (delay : Option ℤ) : Trigger → List Json
  | .data _ => match delay with
    | some d => if 0 < d then [.int d] else []
    | none => []
  | .raw _ timeout => [.int (Json.parseInt timeout.bytes)]
  | _ => []

/-- The array of a trigger. -/
def Trigger.toJson (t : Trigger) (delay : Option ℤ) (argv : Argv) : Json :=
  .arr (.str t.pattern.bytes :: (t.expr argv).toJson :: t.tail delay)

theorem procdAddIf_cons (pattern key value : CStr) (argv : Argv) (b : Builder) :
    procdAddIf pattern key value argv.words b =
      [.str pattern.bytes, Expr.toJson (.ifThen (.eq (.str key.bytes) (.str value.bytes))
        (.script argv) [])] :: b := by
  simp only [procdAddIf, jsonAddArray, procdAddArrayData_cons, jsonCloseArray, jsonAdd]
  rfl

/-- procd.sh appends the array of the trigger to the open array. -/
theorem Trigger.add_cons (t : Trigger) (delay : Option ℤ) (argv : Argv) (items : List Json)
    (outer : Builder) :
    t.add delay argv.words (items :: outer) = (items ++ [t.toJson delay argv]) :: outer := by
  cases t with
  | interface pattern iface =>
    simp only [Trigger.add, procdAddInterfaceTrigger, procdAddIf_cons, jsonCloseArray, jsonAdd]
    rfl
  | config pattern package =>
    simp only [Trigger.add, procdAddConfigTrigger, procdAddIf_cons, jsonCloseArray, jsonAdd]
    rfl
  | data value =>
    simp only [Trigger.add, procdAddDataTrigger, procdAddIf_cons]
    cases delay with
    | none => rfl
    | some d =>
      by_cases hd : 0 < d
      · simp only [hd, if_true, jsonAddInt, jsonAdd, jsonCloseArray, Trigger.toJson, Trigger.tail]
        rfl
      · simp only [hd, if_false, jsonAdd, jsonCloseArray, Trigger.toJson, Trigger.tail]
        rfl
  | raw pattern timeout =>
    simp only [Trigger.add, procdAddRawTrigger, jsonAddArray, procdAddArrayData_cons,
      jsonCloseArray, jsonAdd, jsonAddInt]
    rfl

theorem dataIs_str_iff {key value : CStr} : DataIs data (.str key.bytes) (.str value.bytes) ↔
    ∃ j, data.get? key = some j ∧ j.getString = some value := by
  simp only [DataIs, Json.getString_str, Option.some_inj]
  constructor
  · rintro ⟨k, v, rfl, rfl, h⟩
    exact h
  · intro h
    exact ⟨key, value, rfl, rfl, h⟩

theorem Trigger.inspect_toJson (t : Trigger) (delay : Option ℤ) (argv : Argv)
    (fnmatch : CStr → CStr → Bool) (etype : CStr) :
    inspectTrigger fnmatch etype data (t.toJson delay argv) =
      if fnmatch t.pattern etype then (t.expr argv).scripts data else [] := by
  rw [Trigger.toJson, inspectTrigger, Json.getString_str, executeTriggerExpr_toJson]

open Classical in
theorem Trigger.expr_scripts (t : Trigger) (argv : Argv) :
    (t.expr argv).scripts data =
      if ∀ key value, t.condition = some (key, value) →
        ∃ j, data.get? key = some j ∧ j.getString = some value then argv.runs else [] := by
  unfold Trigger.expr
  split
  next key value hcond =>
    simp only [Expr.scripts, Cond.Holds, dataIs_str_iff, hcond, Option.some_inj, Prod.mk.injEq]
    congr 1
    apply propext
    constructor
    · rintro h _ _ ⟨rfl, rfl⟩
      exact h
    · intro h
      exact h key value ⟨rfl, rfl⟩
  next hcond =>
    simp [Expr.scripts, Expr.scriptsAll, hcond]

open Classical in
/-- Each trigger of procd.sh appends one array to the open one, and evaluating that
array for an event runs the script once if the trigger waits for the event, and
nothing otherwise. Evaluating the array of any expression runs the scripts
reachable in it, each once and from left to right. -/
theorem trigger_runs_script (fnmatch : CStr → CStr → Bool) (delay : Option ℤ) :
    (∀ (t : Trigger) (argv : Argv) (items : List Json) (outer : Builder),
      ∃ tr, t.add delay argv.words (items :: outer) = (items ++ [tr]) :: outer ∧
        ∀ etype data, inspectTrigger fnmatch etype data tr =
          if t.Fires fnmatch etype data then argv.runs else []) ∧
    ∀ (e : Expr) (data : Json), executeTriggerExpr data e.toJson = e.scripts data := by
  constructor
  · intro t argv items outer
    refine ⟨t.toJson delay argv, t.add_cons delay argv items outer, ?_⟩
    intro etype data
    rw [t.inspect_toJson, t.expr_scripts]
    by_cases hmatch : fnmatch t.pattern etype
    · simp [hmatch, Trigger.Fires]
    · simp [hmatch, Trigger.Fires]
  · intro e data
    exact executeTriggerExpr_toJson e

end NeonWrt.Procd
