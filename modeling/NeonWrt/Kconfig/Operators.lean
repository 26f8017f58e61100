import NeonWrt.Lib.CString
import NeonWrt.Lib.Table

/-!
# The operators of kernel configurations

`kconfig.pl` computes with configurations: tables from option names to values, where an option
that is not set has the value `#undef`. The hashes of Perl have no order; here they are tables, and
what holds of a result is what its keys read. A test of a value for truth takes the string `0` for
false.
-/

namespace NeonWrt.Kconfig

open Lib

/-- A hash of option names and values. -/
abbrev Config := Table Bytes Bytes

/-- The value of an option that is not set. -/
def undef : Bytes := ascii "#undef"

/-- The value of an option that is built in. -/
def yes : Bytes := ascii "y"

/-- A string is true in Perl. -/
def isTrue (s : Bytes) : Bool := s ≠ [] && s ≠ ascii "0"

/-- `set_config` -/
def setConfig (config : Config) (idx newval : Bytes) (modPlus : Bool) : Config :=
  if config.get? idx = none ∨ modPlus = false ∨ config.get? idx = some undef ∨ newval = yes then
    config.set idx newval
  else config

/-- `config_and` -/
def configAnd (cfg1 cfg2 : Config) : Config :=
  cfg1.entries.foldl (fun config e =>
    if (cfg2.get? e.1).any isTrue ∧ cfg2.get? e.1 = some e.2 then config.set e.1 e.2 else config) ∅

/-- One pass of the inner loop of `config_add`. -/
def addEntry (modPlus : Bool) (config : Config) (k v : Bytes) : Config :=
  if modPlus = true ∧ (config.get? k).any isTrue then
    if config.get? k = some yes then config
    else if v = undef then config
    else config.set k v
  else config.set k v

/-- `config_add` -/
def configAdd (cfg1 cfg2 : Config) (modPlus : Bool) : Config :=
  [cfg1, cfg2].foldl
    (fun config cfg => cfg.entries.foldl (fun config e => addEntry modPlus config e.1 e.2) config) ∅

/-- `config_diff` -/
def configDiff (cfg1 cfg2 : Config) (newOnly : Bool) : Config :=
  cfg2.entries.foldl (fun config e =>
    if cfg1.get? e.1 = none ∨ cfg1.get? e.1 ≠ cfg2.get? e.1 then
      if newOnly = true ∧ cfg1.get? e.1 = none ∧ cfg2.get? e.1 = some undef then config
      else config.set e.1 e.2
    else config) ∅

/-- `config_sub`; a key with one of the characters `?`, `.` and `*` is an expression, and `matched`
says which names it matches. -/
def configSub (matched : Bytes → Bytes → Bool) (cfg1 cfg2 : Config) : Config :=
  let keys := cfg2.keys.flatMap fun expr =>
    if expr.any (· ∈ ascii "?.*") then cfg1.keys.filter (matched expr) else [expr]
  keys.foldl (fun config k => config.erase k) cfg1

/-- The operators of expressions. -/
inductive Operator
  | and
  | add
  | addMod
  | diff
  | diffNew
  | sub
  deriving DecidableEq, Repr

/-- An operator applied to its operands, as `parse_expr` calls the subroutines. -/
def Operator.apply (matched : Bytes → Bytes → Bool) (cfg1 cfg2 : Config) : Operator → Config
  | and => configAnd cfg1 cfg2
  | add => configAdd cfg1 cfg2 false
  | addMod => configAdd cfg1 cfg2 true
  | diff => configDiff cfg1 cfg2 false
  | diffNew => configDiff cfg1 cfg2 true
  | sub => configSub matched cfg1 cfg2

/-- The results of expressions whose leaves satisfy a predicate. -/
inductive Result (matched : Bytes → Bytes → Bool) (leaf : Config → Prop) : Config → Prop
  | leaf {c : Config} (h : leaf c) : Result matched leaf c
  | apply (op : Operator) {a b : Config} (ha : Result matched leaf a)
      (hb : Result matched leaf b) : Result matched leaf (op.apply matched a b)

section Reads

variable {A B config : Config} {k l v : Bytes} {modPlus newOnly : Bool}

theorem get?_setConfig (config : Config) (idx newval k : Bytes) (modPlus : Bool) :
    (setConfig config idx newval modPlus).get? k =
      if k = idx ∧ (config.get? idx = none ∨ modPlus = false ∨ config.get? idx = some undef ∨
        newval = yes) then some newval else config.get? k := by
  rw [setConfig]
  split_ifs with hset hk hk
  · rw [hk.1, Table.get?_set_self]
  · exact Table.get?_set_ne fun h => hk ⟨h, hset⟩
  · exact absurd hk.2 hset
  · rfl

theorem get?_configAnd (A B : Config) (k : Bytes) :
    (configAnd A B).get? k =
      if (B.get? k).any isTrue ∧ A.get? k = B.get? k then B.get? k else none := by
  rw [configAnd, Table.get?_foldl_entries
    (f := fun c k v => if (B.get? k).any isTrue ∧ B.get? k = some v then c.set k v else c)
    (h := fun k v o => if (B.get? k).any isTrue ∧ B.get? k = some v then some v else o)]
  · cases hA : A.get? k with
    | none =>
      split_ifs with h
      · rw [← h.2]
        rfl
      · rfl
    | some v =>
      simp only [Table.get?_empty, eq_comm (a := some v)]
      split_ifs with h
      · exact h.2.symm
      · rfl
  · intro c k v l
    split_ifs with h hl hl
    · rw [hl, Table.get?_set_self]
    · exact Table.get?_set_ne hl
    · rw [hl]
    · rfl

/-- What a key reads behind `addEntry`. -/
def added (modPlus : Bool) (_ v : Bytes) (o : Option Bytes) : Option Bytes :=
  if modPlus = true ∧ o.any isTrue ∧ (o = some yes ∨ v = undef) then o else some v

theorem get?_addEntry (config : Config) (k v l : Bytes) :
    (addEntry modPlus config k v).get? l =
      if l = k then added modPlus k v (config.get? k) else config.get? l := by
  rw [addEntry, added]
  by_cases hl : l = k
  · subst hl
    simp only [if_true]
    split_ifs <;> simp_all
  · simp only [hl, if_false]
    split_ifs <;> simp [Table.get?_set_ne hl]

theorem get?_configAdd_eq (A B : Config) (modPlus : Bool) (k : Bytes) :
    (configAdd A B modPlus).get? k =
      match B.get? k with
      | some v => added modPlus k v (A.get? k)
      | none => A.get? k := by
  have hfold : ∀ (cfg config : Config),
      (cfg.entries.foldl (fun config e => addEntry modPlus config e.1 e.2) config).get? k =
        match cfg.get? k with
        | some v => added modPlus k v (config.get? k)
        | none => config.get? k := by
    intro cfg config
    rw [Table.get?_foldl_entries (f := addEntry modPlus) (h := added modPlus) get?_addEntry]
    cases cfg.get? k with
    | none => rfl
    | some v => rfl
  have hfirst : (A.entries.foldl (fun config e => addEntry modPlus config e.1 e.2) ∅).get? k =
      A.get? k := by
    rw [hfold A]
    cases A.get? k with
    | none => rfl
    | some v => simp [added]
  rw [configAdd, List.foldl_cons, List.foldl_cons, List.foldl_nil, hfold B, hfirst]

/-- `+` takes the values of its second operand. -/
theorem get?_configAdd (A B : Config) (k : Bytes) :
    (configAdd A B false).get? k = (B.get? k).or (A.get? k) := by
  rw [get?_configAdd_eq]
  cases B.get? k with
  | none => rfl
  | some v => simp [added]

/-- `m+` keeps a value that is true if it is `y` or the second operand has none but `#undef`. -/
theorem get?_configAddMod (A B : Config) (k : Bytes) :
    (configAdd A B true).get? k =
      if (A.get? k).any isTrue ∧
        (A.get? k = some yes ∨ B.get? k = none ∨ B.get? k = some undef) then A.get? k
      else (B.get? k).or (A.get? k) := by
  rw [get?_configAdd_eq]
  cases B.get? k with
  | none => simp
  | some v => simp [added]

theorem get?_configDiff_eq (A B : Config) (newOnly : Bool) (k : Bytes) :
    (configDiff A B newOnly).get? k =
      if A.get? k = none ∨ A.get? k ≠ B.get? k then
        if newOnly = true ∧ A.get? k = none ∧ B.get? k = some undef then none else B.get? k
      else none := by
  rw [configDiff, Table.get?_foldl_entries
    (f := fun c k v => if A.get? k = none ∨ A.get? k ≠ B.get? k then
      if newOnly = true ∧ A.get? k = none ∧ B.get? k = some undef then c else c.set k v else c)
    (h := fun k v o => if A.get? k = none ∨ A.get? k ≠ B.get? k then
      if newOnly = true ∧ A.get? k = none ∧ B.get? k = some undef then o else some v else o)]
  · cases hB : B.get? k with
    | none => simp
    | some v => simp
  · intro c k v l
    by_cases hl : l = k
    · subst hl
      simp only [if_true]
      split_ifs <;> simp
    · split_ifs <;> simp [Table.get?_set_ne hl]

/-- `>` takes what the first operand does not have. -/
theorem get?_configDiff (A B : Config) (k : Bytes) :
    (configDiff A B false).get? k = if A.get? k = B.get? k then none else B.get? k := by
  rw [get?_configDiff_eq]
  by_cases h : A.get? k = B.get? k
  · simp only [h, ne_eq, not_true_eq_false, or_false, if_true, Bool.false_eq_true, false_and,
      if_false]
    split_ifs with hnone
    · exact hnone
    · rfl
  · simp [h]

theorem get?_configSub (matched : Bytes → Bytes → Bool) (h : (configSub matched A B).get? k = some v) :
    A.get? k = some v := by
  rw [configSub] at h
  generalize (B.keys.flatMap _) = keys at h
  induction keys generalizing A with
  | nil => exact h
  | cons key keys ih =>
    have := ih h
    rw [Table.get?_erase] at this
    split_ifs at this
    exact this

theorem Operator.get?_apply {matched : Bytes → Bytes → Bool} (op : Operator)
    (h : (op.apply matched A B).get? k = some v) : A.get? k = some v ∨ B.get? k = some v := by
  have hadd : ∀ {modPlus}, (configAdd A B modPlus).get? k = some v →
      A.get? k = some v ∨ B.get? k = some v := by
    intro modPlus h
    rw [get?_configAdd_eq] at h
    cases hB : B.get? k with
    | none => exact Or.inl (by simpa [hB] using h)
    | some w =>
      simp only [hB, added] at h
      split_ifs at h
      · exact Or.inl h
      · exact Or.inr h
  have hdiff : ∀ {newOnly}, (configDiff A B newOnly).get? k = some v →
      A.get? k = some v ∨ B.get? k = some v := by
    intro newOnly h
    rw [get?_configDiff_eq] at h
    split_ifs at h
    exact Or.inr h
  cases op with
  | and =>
    rw [apply, get?_configAnd] at h
    split_ifs at h
    exact Or.inr h
  | add => exact hadd h
  | addMod => exact hadd h
  | diff => exact hdiff h
  | diffNew => exact hdiff h
  | sub => exact Or.inl (get?_configSub matched h)

/-- What all entries of the leaves satisfy, all entries of a result do. -/
theorem Result.forall_entries {matched : Bytes → Bytes → Bool} {leaf : Config → Prop}
    {P : Bytes → Bytes → Prop} (hleaf : ∀ c, leaf c → ∀ k v, c.get? k = some v → P k v) {c : Config}
    (hc : Result matched leaf c) : ∀ k v, c.get? k = some v → P k v := by
  induction hc with
  | leaf h => exact hleaf _ h
  | apply op _ _ iha ihb =>
    intro k v h
    rcases op.get?_apply h with h | h
    · exact iha k v h
    · exact ihb k v h

end Reads

end NeonWrt.Kconfig
