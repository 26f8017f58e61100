import NeonWrt.Lib.Number
import NeonWrt.Lib.Renaming
import NeonWrt.Lib.Shell

/-!
# The configuration in shell variables

`config`, `option` and `list` leave a package of the configuration in variables whose
names are those of sections and options with underscores between them. A list has a
variable for each item, one for their number and one for all of them. Names are not
told apart: an option `b_c` of a section `a` and an option `c` of a section `a_b` are
one variable.
-/

namespace NeonWrt.BaseFiles.UciStore

open Lib Shell

/-- The variables of the shell; one that is not set is empty. -/
abbrev Store := Bytes → Bytes

/-- `CONFIG_${section}_${option}` -/
def field (s o : Bytes) : Bytes := ascii "CONFIG_" ++ (s ++ 95 :: o)

/-- A character of `[A-Za-z0-9_]`. -/
def legal (c : UInt8) : Bool := isalnum c || c == 95

/-- What `append` makes of a value, with `${3:- }` for the separator. -/
def appended (sep old value : Bytes) : Bytes :=
  let sep := if sep = [] then [32] else sep
  if old = [] then value else old ++ (if value = [] then [] else sep) ++ value

/-- `append` -/
def append (sep var value : Bytes) (env : Store) : Store :=
  Function.update env var (appended sep (env var) value)

/-- `config_set` -/
def configSet (s o value : Bytes) (env : Store) : Store := Function.update env (field s o) value

/-- `${value:-$dflt}` -/
def orDefault (dflt value : Bytes) : Bytes := if value = [] then dflt else value

/-- `config_get`, with an option that is not empty: what is left in the variable, if it is
assigned. -/
def configGet (s o dflt : Bytes) (env : Store) : Option Bytes :=
  if (s ++ o).all legal then some (orDefault dflt (env (field s o))) else none

/-- A number in arithmetic. Other texts are evaluated as expressions, or end the shell; they have no
value here. -/
def arith (t : Bytes) : Option ℕ :=
  if t = [] then some 0
  else if dec (numeral 10 t) = t then some (numeral 10 t)
  else none

/-- A call of an exported package; the arguments of a value are joined. -/
inductive Call where
  | config (cfgtype name : Bytes)
  | option (varname value : Bytes)
  | list (varname value : Bytes)

/-- `config` -/
def config (cfgtype name : Bytes) (env : Store) : Option Store := do
  let num ← arith (env (ascii "CONFIG_NUM_SECTIONS"))
  let env := Function.update env (ascii "CONFIG_NUM_SECTIONS") (dec (num + 1))
  let name := if name = [] then ascii "cfg" ++ env (ascii "CONFIG_NUM_SECTIONS") else name
  let env := append [] (ascii "CONFIG_SECTIONS") name env
  let env := Function.update env (ascii "CONFIG_SECTION") name
  return configSet (env (ascii "CONFIG_SECTION")) (ascii "TYPE") cfgtype env

/-- `option` -/
def option (varname value : Bytes) (env : Store) : Store :=
  configSet (env (ascii "CONFIG_SECTION")) varname value env

/-- `list`, with `$LIST_SEP`. -/
def list (listSep varname value : Bytes) (env : Store) : Option Store := do
  let s := env (ascii "CONFIG_SECTION")
  let len := (configGet s (varname ++ ascii "_LENGTH") (ascii "0") env).getD []
  let env :=
    if len = ascii "0" then append [] (ascii "CONFIG_LIST_STATE") (s ++ 95 :: varname) env else env
  let num ← arith len
  let len := dec (num + 1)
  let env := configSet s (varname ++ ascii "_ITEM" ++ len) value env
  let env := configSet s (varname ++ ascii "_LENGTH") len env
  return append listSep (field s varname) value env

/-- One call; the callbacks do nothing. -/
def Call.run (listSep : Bytes) : Call → Store → Option Store
  | .config cfgtype name, env => UciStore.config cfgtype name env
  | .option varname value, env => some (UciStore.option varname value env)
  | .list varname value, env => UciStore.list listSep varname value env

/-- What `uci_load` starts from in a new shell. -/
def start : Store := Function.update (fun _ => []) (ascii "CONFIG_NUM_SECTIONS") [48]

/-- The calls of a package. -/
def load (listSep : Bytes) (calls : List Call) (env : Store) : Option Store :=
  calls.foldlM (fun env call => call.run listSep env) env

/-- The number of times that `[ $c -le "$len" ]` holds; a text that is no number ends the loop. -/
def rounds (len : Bytes) : ℕ := if len.all isdigit then numeral 10 len else 0

/-- `config_list_foreach`: the items that the function is called with. -/
def configListForeach (s o : Bytes) (env : Store) : List Bytes :=
  match configGet s (o ++ ascii "_LENGTH") [] env with
  | none => []
  | some len =>
    (List.range (rounds len)).map fun c =>
      (configGet s (o ++ ascii "_ITEM" ++ dec (c + 1)) [] env).getD []

/-- What is set in a section. -/
inductive Setting where
  | sectionType (cfgtype : Bytes)
  | option (name value : Bytes)
  | list (name value : Bytes)
  deriving DecidableEq

/-- The settings of a package with their sections, behind `n` sections of which the last is
`s`. -/
def settings (n : ℕ) (s : Bytes) : List Call → List (Bytes × Setting)
  | [] => []
  | .config cfgtype name :: calls =>
    let name := if name = [] then ascii "cfg" ++ dec (n + 1) else name
    (name, .sectionType cfgtype) :: settings (n + 1) name calls
  | .option name value :: calls => (s, .option name value) :: settings n s calls
  | .list name value :: calls => (s, .list name value) :: settings n s calls

/-- A name that is not empty, of legal characters. -/
def Name (s : Bytes) : Prop := s ≠ [] ∧ s.all legal

instance (s : Bytes) : Decidable (Name s) := inferInstanceAs (Decidable (_ ∧ _))

/-- The section and the name of an option. -/
def optionKey : Bytes × Setting → Option (Bytes × Bytes)
  | (s, .option o _) => some (s, o)
  | _ => none

/-- The section and the name of a list. -/
def listKey : Bytes × Setting → Option (Bytes × Bytes)
  | (s, .list l _) => some (s, l)
  | _ => none

/-- Names are legal, and one is used once as an option or as a list. -/
structure Package (ps : List (Bytes × Setting)) : Prop where
  section_name : ∀ x ∈ ps, Name x.1
  option_name : ∀ k ∈ ps.filterMap optionKey, Name k.2
  list_name : ∀ k ∈ ps.filterMap listKey, Name k.2
  once : (ps.filterMap optionKey).Nodup
  apart : ∀ k ∈ ps.filterMap optionKey, k ∉ ps.filterMap listKey

/-- The item of a list. -/
def itemAt (s l : Bytes) : Bytes × Setting → Option Bytes
  | (s', .list l' v) => if s' = s ∧ l' = l then some v else none
  | _ => none

/-- The items of a list, in order. -/
def items (ps : List (Bytes × Setting)) (s l : Bytes) : List Bytes := ps.filterMap (itemAt s l)

/-- Values with separators between them, where empty ones are left out. -/
def joined (sep : Bytes) (values : List Bytes) : Bytes :=
  (if sep = [] then [32] else sep).intercalate (values.filter (· ≠ []))

/-- The variables that hold a package. -/
inductive Var where
  | numSections
  | sections
  | current
  | listState
  | sectionType (s : Bytes)
  | main (s o : Bytes)
  | item (s l : Bytes) (k : ℕ)
  | length (s l : Bytes)
  deriving DecidableEq

/-- The names they have in the shell. -/
def Var.name : Var → Bytes
  | .numSections => ascii "CONFIG_NUM_SECTIONS"
  | .sections => ascii "CONFIG_SECTIONS"
  | .current => ascii "CONFIG_SECTION"
  | .listState => ascii "CONFIG_LIST_STATE"
  | .sectionType s => field s (ascii "TYPE")
  | .main s o => field s o
  | .item s l k => field s (l ++ ascii "_ITEM" ++ dec k)
  | .length s l => field s (l ++ ascii "_LENGTH")

/-- The variables of a setting, when its list has `n` items. -/
def Setting.vars (n : ℕ) (s : Bytes) : Setting → List Var
  | .sectionType _ => [.sectionType s]
  | .option o _ => [.main s o]
  | .list l _ => .listState :: .main s l :: .length s l :: (List.range n).map fun k => .item s l (k + 1)

/-- The name of a list, and nothing of other settings. -/
def Setting.listName : Setting → Bytes
  | .list l _ => l
  | _ => []

/-- The variables that a package is in. -/
def vars (ps : List (Bytes × Setting)) : List Var :=
  [.numSections, .sections, .current] ++
    ps.flatMap fun x => x.2.vars (items ps x.1 x.2.listName).length x.1

/-- The name of a variable is not that of another one of the package. -/
def Own (ps : List (Bytes × Setting)) (v : Var) : Prop := Unshared Var.name (· ∈ vars ps) v

/-- The counters of a package are their own: of the sections, and of the items of each list. -/
def OwnCounters (ps : List (Bytes × Setting)) : Prop :=
  Own ps .numSections ∧ ∀ k ∈ ps.filterMap listKey, Own ps (.length k.1 k.2)

/-- One setting more. -/
def assign (listSep : Bytes) (store : Var → Bytes) : Bytes × Setting → Var → Bytes
  | (s, .sectionType t) =>
    let store := Function.update store .numSections (dec (numeral 10 (store .numSections) + 1))
    let store := Function.update store .sections (appended [] (store .sections) s)
    let store := Function.update store .current s
    Function.update store (.sectionType s) t
  | (s, .option o v) => Function.update store (.main s o) v
  | (s, .list l v) =>
    let n := numeral 10 (store (.length s l))
    let store :=
      if n = 0 then
        Function.update store .listState (appended [] (store .listState) (s ++ 95 :: l))
      else store
    let store := Function.update store (.item s l (n + 1)) v
    let store := Function.update store (.length s l) (dec (n + 1))
    Function.update store (.main s l) (appended listSep (store (.main s l)) v)

/-- What the variables hold after some settings. -/
def contents (listSep : Bytes) (ps : List (Bytes × Setting)) : Var → Bytes :=
  ps.foldl (assign listSep) (Function.update (fun _ => []) .numSections [48])

section Contents

variable {sep : Bytes} {ps : List (Bytes × Setting)} {x : Bytes × Setting} {s l o v : Bytes}

theorem contents_concat (sep : Bytes) (ps : List (Bytes × Setting)) (x : Bytes × Setting) :
    contents sep (ps ++ [x]) = assign sep (contents sep ps) x := by
  rw [contents, List.foldl_append]
  rfl

theorem items_concat (ps : List (Bytes × Setting)) (x : Bytes × Setting) (s l : Bytes) :
    items (ps ++ [x]) s l = items ps s l ++ (itemAt s l x).toList := by
  rw [items, List.filterMap_append]
  rfl

/-- An item changes no variables but its own one and those of its list. -/
theorem assign_list_of_ne (store : Var → Bytes) {w : Var} (hstate : w ≠ .listState)
    (hitem : w ≠ .item s l (numeral 10 (store (.length s l)) + 1)) (hlength : w ≠ .length s l)
    (hmain : w ≠ .main s l) : assign sep store (s, .list l v) w = store w := by
  simp only [assign]
  rw [Function.update_of_ne hmain, Function.update_of_ne hlength, Function.update_of_ne hitem]
  split_ifs
  · rw [Function.update_of_ne hstate]
  · rfl

theorem assign_list_main (store : Var → Bytes) :
    assign sep store (s, .list l v) (.main s l) = appended sep (store (.main s l)) v := by
  simp only [assign]
  rw [Function.update_self, Function.update_of_ne (by simp), Function.update_of_ne (by simp)]
  split_ifs
  · rw [Function.update_of_ne (by simp)]
  · rfl

/-- A counter is empty before the first item. -/
theorem numeral_counter (values : List Bytes) :
    numeral 10 (if values = [] then [] else dec values.length) = values.length := by
  split_ifs with h
  · rw [h]
    rfl
  · exact numeral_dec _

/-- The counter of a list is the number of its items. -/
theorem contents_length (sep : Bytes) (ps : List (Bytes × Setting)) (s l : Bytes) :
    contents sep ps (.length s l) =
      if items ps s l = [] then [] else dec (items ps s l).length := by
  induction ps using List.reverseRecOn with
  | nil => rfl
  | append_singleton ps x ih =>
    have hcount : numeral 10 (contents sep ps (.length s l)) = (items ps s l).length := by
      rw [ih]
      exact numeral_counter _
    obtain ⟨s', x⟩ := x
    rw [contents_concat, items_concat]
    cases x with
    | sectionType t => simpa [assign, itemAt] using ih
    | option o v => simpa [assign, itemAt] using ih
    | list l' v =>
      by_cases hkey : s' = s ∧ l' = l
      · obtain ⟨rfl, rfl⟩ := hkey
        simp [assign, itemAt, hcount]
      · have hne : Var.length s l ≠ .length s' l' := by
          rintro ⟨⟩
          exact hkey ⟨rfl, rfl⟩
        rw [assign_list_of_ne _ (by simp) (by simp) hne (by simp), ih, itemAt, if_neg hkey,
          Option.toList_none, List.append_nil]

theorem numeral_contents_length (sep : Bytes) (ps : List (Bytes × Setting)) (s l : Bytes) :
    numeral 10 (contents sep ps (.length s l)) = (items ps s l).length := by
  rw [contents_length]
  exact numeral_counter _

/-- The variables of items hold them in order. -/
theorem contents_item (sep : Bytes) (ps : List (Bytes × Setting)) (s l : Bytes) (k : ℕ) :
    contents sep ps (.item s l (k + 1)) = (items ps s l)[k]?.getD [] := by
  induction ps using List.reverseRecOn with
  | nil => rfl
  | append_singleton ps x ih =>
    obtain ⟨s', x⟩ := x
    rw [contents_concat, items_concat]
    cases x with
    | sectionType t => simpa [assign, itemAt] using ih
    | option o v => simpa [assign, itemAt] using ih
    | list l' v =>
      by_cases hkey : s' = s ∧ l' = l
      · obtain ⟨rfl, rfl⟩ := hkey
        have hcount := numeral_contents_length sep ps s' l'
        -- the new item goes behind the others
        by_cases hk : k = (items ps s' l').length
        · simp [assign, itemAt, hcount, hk]
        · have hne : Var.item s' l' (k + 1) ≠
              .item s' l' (numeral 10 (contents sep ps (.length s' l')) + 1) := by
            rw [hcount]
            simpa using hk
          rw [assign_list_of_ne _ (by simp) hne (by simp) (by simp), ih]
          congr 1
          simp only [itemAt, and_self, if_true, Option.toList_some, List.getElem?_append]
          split_ifs with hlt
          · rfl
          · rw [List.getElem?_eq_none (by omega), List.getElem?_eq_none (by simp; omega)]
      · have hne : Var.item s l (k + 1) ≠
            .item s' l' (numeral 10 (contents sep ps (.length s' l')) + 1) := by
          rintro ⟨⟩
          exact hkey ⟨rfl, rfl⟩
        rw [assign_list_of_ne _ (by simp) hne (by simp) (by simp), ih, itemAt, if_neg hkey,
          Option.toList_none, List.append_nil]

theorem intercalate_concat (sep : Bytes) (values : List Bytes) (v : Bytes) :
    sep.intercalate (values ++ [v]) =
      if values = [] then v else sep.intercalate values ++ sep ++ v := by
  induction values with
  | nil => simp [List.intercalate]
  | cons w values ih =>
    cases values with
    | nil => simp [List.intercalate]
    | cons u values =>
      rw [if_neg (List.cons_ne_nil u values)] at ih
      rw [if_neg (List.cons_ne_nil w _), List.cons_append, List.cons_append,
        List.intercalate_cons_cons, ← List.cons_append, ih, List.intercalate_cons_cons]
      simp only [List.append_assoc]

theorem joined_eq_nil_iff {values : List Bytes} :
    joined sep values = [] ↔ values.filter (· ≠ []) = [] := by
  refine ⟨fun h => ?_, fun h => by rw [joined, h]; rfl⟩
  rcases List.eq_nil_or_concat (values.filter (· ≠ [])) with hnil | ⟨front, v, hv⟩
  · exact hnil
  have hmem : v ∈ values.filter (· ≠ []) := by
    rw [hv]
    simp
  have hv' : v ≠ [] := of_decide_eq_true (List.mem_filter.mp hmem).2
  rw [joined, hv, List.concat_eq_append, intercalate_concat] at h
  by_cases hfront : front = []
  · rw [if_pos hfront] at h
    exact absurd h hv'
  · rw [if_neg hfront] at h
    exact absurd (List.append_eq_nil_iff.mp h).2 hv'

/-- A value more is appended as `append` does it. -/
theorem joined_concat (values : List Bytes) (v : Bytes) :
    joined sep (values ++ [v]) = appended sep (joined sep values) v := by
  have hfilter : (values ++ [v]).filter (· ≠ []) =
      values.filter (· ≠ []) ++ if v = [] then [] else [v] := by
    rw [List.filter_append]
    congr 1
    split_ifs with hv
    · rw [hv]
      rfl
    · exact List.filter_cons_of_pos (decide_eq_true hv)
  by_cases hv : v = []
  · rw [joined, hfilter, if_pos hv, List.append_nil, ← joined, appended, if_pos hv, hv,
      List.append_nil, List.append_nil]
    split_ifs with h
    · exact h
    · rfl
  · by_cases h : joined sep values = []
    · rw [joined, hfilter, joined_eq_nil_iff.mp h, if_neg hv, appended, if_pos h]
      simp [List.intercalate]
    · rw [joined, hfilter, if_neg hv, intercalate_concat, if_neg (mt joined_eq_nil_iff.mpr h),
        ← joined, appended, if_neg h, if_neg hv]

/-- Where there is no option, there are the items of a list, joined. -/
theorem contents_main_of_list (h : (s, o) ∉ ps.filterMap optionKey) :
    contents sep ps (.main s o) = joined sep (items ps s o) := by
  induction ps using List.reverseRecOn with
  | nil => rfl
  | append_singleton ps x ih =>
    obtain ⟨s', x⟩ := x
    rw [List.filterMap_append, List.mem_append, not_or] at h
    obtain ⟨hps, hx⟩ := h
    have hrest := ih hps
    rw [contents_concat, items_concat]
    cases x with
    | sectionType t => simpa [assign, itemAt] using hrest
    | option o' v =>
      have hne : Var.main s o ≠ .main s' o' := by
        rintro ⟨⟩
        exact hx (by simp [optionKey])
      simp only [assign, itemAt]
      rw [Function.update_of_ne hne, hrest, Option.toList_none, List.append_nil]
    | list l' v =>
      by_cases hkey : s' = s ∧ l' = o
      · obtain ⟨rfl, rfl⟩ := hkey
        rw [assign_list_main, hrest, itemAt, if_pos ⟨rfl, rfl⟩, Option.toList_some, joined_concat]
      · have hne : Var.main s o ≠ .main s' l' := by
          rintro ⟨⟩
          exact hkey ⟨rfl, rfl⟩
        rw [assign_list_of_ne _ (by simp) (by simp) (by simp) hne, hrest, itemAt, if_neg hkey,
          Option.toList_none, List.append_nil]

/-- An option that is used once holds its value. -/
theorem contents_main_of_option (hpkg : Package ps) (h : (s, .option o v) ∈ ps) :
    contents sep ps (.main s o) = v := by
  obtain ⟨front, back, rfl⟩ := List.append_of_mem h
  -- nothing behind the option has its key
  have hback : ∀ x ∈ back, optionKey x ≠ some (s, o) ∧ listKey x ≠ some (s, o) := by
    have hkeys := hpkg.once
    have hkey : (s, o) ∈ (front ++ (s, Setting.option o v) :: back).filterMap optionKey :=
      List.mem_filterMap.mpr ⟨_, h, rfl⟩
    have hapart := hpkg.apart _ hkey
    rw [List.filterMap_append, List.filterMap_cons_some (show optionKey (s, .option o v) = _ from rfl),
      List.nodup_append] at hkeys
    obtain ⟨-, hrest, -⟩ := hkeys
    intro x hx
    refine ⟨fun hox => ?_, fun hlx => ?_⟩
    · exact (List.nodup_cons.mp hrest).1 (List.mem_filterMap.mpr ⟨x, hx, hox⟩)
    · exact hapart (List.mem_filterMap.mpr ⟨x, by simp [hx], hlx⟩)
  clear hpkg h
  -- so nothing behind it writes the variable
  rw [← List.singleton_append, ← List.append_assoc]
  induction back using List.reverseRecOn with
  | nil => rw [List.append_nil, contents_concat, assign, Function.update_self]
  | append_singleton back x ih =>
    have hlast := hback x (by simp)
    have hrest := ih fun y hy => hback y (by simp [hy])
    obtain ⟨s', x⟩ := x
    rw [← List.append_assoc, contents_concat]
    cases x with
    | sectionType t => simpa [assign] using hrest
    | option o' v' =>
      have hne : Var.main s o ≠ .main s' o' := by
        rintro ⟨⟩
        exact hlast.1 rfl
      rw [assign, Function.update_of_ne hne, hrest]
    | list l' v' =>
      have hne : Var.main s o ≠ .main s' l' := by
        rintro ⟨⟩
        exact hlast.2 rfl
      rw [assign_list_of_ne _ (by simp) (by simp) (by simp) hne, hrest]

end Contents

section Load

variable {sep : Bytes} {all ps : List (Bytes × Setting)} {env : Store} {s l o v t : Bytes} {n : ℕ}

theorem legal_dec {n : ℕ} : ∀ c ∈ dec n, legal c = true := by
  intro c hc
  rw [legal, isalnum, isdigit_of_mem_dec hc]
  rfl

theorem arith_dec (n : ℕ) : arith (dec n) = some n := by
  rw [arith, if_neg (dec_ne_nil n), numeral_dec, if_pos rfl]

/-- Names with underscores are not those of the current section and of the sections. -/
theorem field_ne {name : Bytes} (h : (95 : UInt8) ∉ name) (s o : Bytes) :
    field s o ≠ ascii "CONFIG_" ++ name := by
  intro heq
  apply h
  rw [← List.append_cancel_left heq]
  simp

theorem own_current (all : List (Bytes × Setting)) : Own all .current := by
  have hfield : ∀ s o, field s o ≠ Var.current.name := 
    field_ne (by decide : (95 : UInt8) ∉ ascii "SECTION")
  intro w _ hw
  cases w with
  | current => rfl
  | numSections => exact absurd hw (by decide)
  | sections => exact absurd hw (by decide)
  | listState => exact absurd hw (by decide)
  | sectionType s => exact absurd hw (hfield _ _)
  | main s o => exact absurd hw (hfield _ _)
  | item s l k => exact absurd hw (hfield _ _)
  | length s l => exact absurd hw (hfield _ _)

theorem mem_vars {x : Bytes × Setting} {w : Var} (hx : x ∈ all)
    (hw : w ∈ x.2.vars (items all x.1 x.2.listName).length x.1) : w ∈ vars all :=
  List.mem_append_right _ (List.mem_flatMap.mpr ⟨x, hx, hw⟩)

theorem mem_vars_own {w : Var} (h : w ∈ [Var.numSections, .sections, .current]) : w ∈ vars all :=
  List.mem_append_left _ h

/-- The store by names and the variables. -/
abbrev Holds (all : List (Bytes × Setting)) (env : Store) (store : Var → Bytes) : Prop :=
  Agrees Var.name (· ∈ vars all) env store

/-- A variable of its own is read as what it holds. -/
theorem configGet_own {store : Var → Bytes} {w : Var} {dflt : Bytes} (h : Holds all env store)
    (hown : Own all w) (hname : w.name = field s o) (hlegal : (s ++ o).all legal) :
    configGet s o dflt env = some (orDefault dflt (store w)) := by
  rw [configGet, if_pos hlegal, ← hname, h w hown]

theorem all_legal_append {t : Bytes} (hs : s.all legal) (ho : o.all legal) (ht : t.all legal) :
    (s ++ (o ++ t)).all legal := by
  rw [List.all_append, List.all_append, hs, ho, ht]
  rfl

/-- A counter that is not set counts as zero. -/
theorem orDefault_counter (values : List Bytes) :
    orDefault (ascii "0") (if values = [] then [] else dec values.length) = dec values.length := by
  rw [orDefault]
  split_ifs with hnil hempty hempty
  · rw [hnil]
    rfl
  · exact absurd rfl hempty
  · exact absurd hempty (dec_ne_nil _)
  · rfl

theorem config_holds (h : Holds all env (contents sep ps)) (hnum : Own all .numSections)
    (hn : contents sep ps .numSections = dec n) {name : Bytes}
    (hs : s = if name = [] then ascii "cfg" ++ dec (n + 1) else name)
    (hmem : (s, .sectionType t) ∈ all) :
    ∃ env', config t name env = some env' ∧
      Holds all env' (contents sep (ps ++ [(s, .sectionType t)])) := by
  have hread : env (ascii "CONFIG_NUM_SECTIONS") = dec n := by
    rw [← hn]
    exact h .numSections hnum
  have hnumeral : dec (n + 1) = dec (numeral 10 (contents sep ps .numSections) + 1) := by
    rw [hn, numeral_dec]
  have h₁ := h.update (mem_vars_own (w := .numSections) (by simp)) fun _ => hnumeral
  have h₂ := h₁.update (mem_vars_own (w := .sections) (by simp))
    fun hown => congrArg (appended [] · s) (h₁ .sections hown)
  have h₃ := h₂.update (mem_vars_own (w := .current) (by simp)) fun _ => (rfl : s = s)
  have h₄ := h₃.update (mem_vars (w := .sectionType s) hmem (by simp [Setting.vars]))
    fun _ => (rfl : t = t)
  refine ⟨_, ?_, by rw [contents_concat]; exact h₄⟩
  rw [config, hread, arith_dec]
  simp only [Option.bind_eq_bind, Option.bind_some, Function.update_self, ← hs]
  rfl

theorem option_holds (h : Holds all env (contents sep ps)) (hcur : contents sep ps .current = s)
    (hmem : (s, .option o v) ∈ all) :
    Holds all (option o v env) (contents sep (ps ++ [(s, .option o v)])) := by
  have hread : env (ascii "CONFIG_SECTION") = s := by
    rw [← hcur]
    exact h .current (own_current all)
  have hset := h.update (mem_vars (w := .main s o) hmem (by simp [Setting.vars]))
    fun _ => (rfl : v = v)
  rw [contents_concat, option, hread]
  exact hset

theorem list_holds (h : Holds all env (contents sep ps)) (hcur : contents sep ps .current = s)
    (hlen : Own all (.length s l)) (hs : s.all legal) (hl : l.all legal)
    (hmem : (s, .list l v) ∈ all) (hcount : (items ps s l).length < (items all s l).length) :
    ∃ env', list sep l v env = some env' ∧
      Holds all env' (contents sep (ps ++ [(s, .list l v)])) := by
  have hread : env (ascii "CONFIG_SECTION") = s := by
    rw [← hcur]
    exact h .current (own_current all)
  have hcounter : configGet s (l ++ ascii "_LENGTH") (ascii "0") env =
      some (dec (items ps s l).length) := by
    rw [configGet_own h hlen rfl (all_legal_append hs hl (by decide)), contents_length,
      orDefault_counter]
  have hzero : dec (items ps s l).length = ascii "0" ↔ (items ps s l).length = 0 :=
    ⟨fun h => dec_inj (h.trans (rfl : ascii "0" = dec 0)), fun h => by rw [h]; rfl⟩
  have hn := numeral_contents_length sep ps s l
  generalize (items ps s l).length = m at hn hzero hcounter hcount
  have hused : ∀ w ∈ Setting.vars (items all s l).length s (.list l v), w ∈ vars all :=
    fun w hw => mem_vars hmem hw
  have hitem : Var.item s l (m + 1) ∈ vars all := by
    apply hused
    simp only [Setting.vars, List.mem_cons, List.mem_map, List.mem_range]
    exact .inr (.inr (.inr ⟨m, hcount, rfl⟩))
  -- only the first item of a list is entered in `CONFIG_LIST_STATE`
  have h₁ : Holds all
      (if dec m = ascii "0" then append [] (ascii "CONFIG_LIST_STATE") (s ++ 95 :: l) env else env)
      (if m = 0 then
        Function.update (contents sep ps) .listState
          (appended [] (contents sep ps .listState) (s ++ 95 :: l))
      else contents sep ps) := by
    by_cases hm : m = 0
    · rw [if_pos hm, if_pos (hzero.mpr hm)]
      exact h.update (hused .listState (by simp [Setting.vars]))
        fun hown => congrArg (appended [] · _) (h .listState hown)
    · rw [if_neg hm, if_neg (mt hzero.mp hm)]
      exact h
  have h₂ := h₁.update hitem fun _ => (rfl : v = v)
  have h₃ := h₂.update (hused (.length s l) (by simp [Setting.vars]))
    fun _ => (rfl : dec (m + 1) = dec (m + 1))
  have h₄ := h₃.update (hused (.main s l) (by simp [Setting.vars]))
    fun hown => congrArg (appended sep · v) (h₃ (.main s l) hown)
  refine ⟨_, ?_, by rw [contents_concat]; simp only [assign, hn]; exact h₄⟩
  rw [list, hread, hcounter]
  simp only [Option.getD_some, arith_dec, Option.bind_eq_bind, Option.bind_some]
  rfl

/-- The calls leave in the variables what they should hold. -/
theorem load_holds (hpkg : Package all) (hown : OwnCounters all) (calls : List Call)
    (hall : ps ++ settings n s calls = all) (h : Holds all env (contents sep ps))
    (hcur : contents sep ps .current = s) (hn : contents sep ps .numSections = dec n) :
    ∃ env', load sep calls env = some env' ∧ Holds all env' (contents sep all) := by
  -- `ps` are the settings that are done, and `n` and `s` what they leave
  induction calls generalizing ps n s env with
  | nil =>
    rw [settings, List.append_nil] at hall
    exact ⟨env, rfl, hall ▸ h⟩
  | cons call calls ih =>
    cases call with
    | config t name =>
      rw [settings, ← List.singleton_append, ← List.append_assoc] at hall
      generalize hs : (if name = [] then ascii "cfg" ++ dec (n + 1) else name) = s' at hall
      have hmem : (s', Setting.sectionType t) ∈ all := by
        rw [← hall]
        simp
      obtain ⟨env', hrun, h'⟩ := config_holds h hown.1 hn hs.symm hmem
      obtain ⟨env'', hload, hend⟩ := ih hall h' (by simp [contents_concat, assign])
        (by simp [contents_concat, assign, hn])
      exact ⟨env'', by rw [load, List.foldlM_cons, Call.run, hrun]; exact hload, hend⟩
    | option o v =>
      rw [settings, ← List.singleton_append, ← List.append_assoc] at hall
      have hmem : (s, Setting.option o v) ∈ all := by
        rw [← hall]
        simp
      exact ih hall (option_holds h hcur hmem) (by simp [contents_concat, assign, hcur])
        (by simp [contents_concat, assign, hn])
    | list l v =>
      rw [settings, ← List.singleton_append, ← List.append_assoc] at hall
      have hmem : (s, Setting.list l v) ∈ all := by
        rw [← hall]
        simp
      have hkey : (s, l) ∈ all.filterMap listKey := List.mem_filterMap.mpr ⟨_, hmem, rfl⟩
      have hcount : (items ps s l).length < (items all s l).length := by
        rw [← hall, items, items, List.filterMap_append, List.filterMap_append]
        simp [itemAt]
      obtain ⟨env', hrun, h'⟩ := list_holds h hcur (hown.2 _ hkey) (hpkg.section_name _ hmem).2
        (hpkg.list_name _ hkey).2 hmem hcount
      obtain ⟨env'', hload, hend⟩ := ih hall h'
        (by rw [contents_concat, assign_list_of_ne _ (by simp) (by simp) (by simp) (by simp), hcur])
        (by rw [contents_concat, assign_list_of_ne _ (by simp) (by simp) (by simp) (by simp), hn])
      exact ⟨env'', by rw [load, List.foldlM_cons, Call.run, hrun]; exact hload, hend⟩

end Load

section Lookup

variable {sep : Bytes} {all : List (Bytes × Setting)} {env : Store} {s o v dflt : Bytes}

theorem holds_start (all : List (Bytes × Setting)) : Holds all start (contents sep []) :=
  Agrees.update (fun _ _ => rfl) (mem_vars_own (w := .numSections) (by simp)) fun _ => rfl

@[simp] theorem orDefault_nil (value : Bytes) : orDefault [] value = value := by
  rw [orDefault]
  split_ifs with h
  · exact h.symm
  · rfl

/-- The loop over a list ends behind its last item. -/
theorem rounds_counter (values : List Bytes) :
    rounds (if values = [] then [] else dec values.length) = values.length := by
  split_ifs with h
  · rw [h]
    rfl
  · have hdigits : (dec values.length).all isdigit = true :=
      List.all_eq_true.mpr fun c hc => isdigit_of_mem_dec hc
    rw [rounds, if_pos hdigits, numeral_dec]

/-- The loop over a list gets all its items. -/
theorem configListForeach_eq (h : Holds all env (contents sep all)) (hs : Name s) (ho : Name o)
    (hown : Own all (.length s o))
    (hitems : ∀ k < (items all s o).length, Own all (.item s o (k + 1))) :
    configListForeach s o env = items all s o := by
  have hlength : configGet s (o ++ ascii "_LENGTH") [] env =
      some (orDefault [] (contents sep all (.length s o))) :=
    configGet_own h hown rfl (all_legal_append hs.2 ho.2 (by decide))
  have hitem : ∀ k < (items all s o).length,
      (configGet s (o ++ ascii "_ITEM" ++ dec (k + 1)) [] env).getD [] =
        (items all s o)[k]?.getD [] := by
    intro k hk
    have hchars : (ascii "_ITEM" ++ dec (k + 1)).all legal = true := by
      rw [List.all_append, List.all_eq_true.mpr legal_dec]
      decide
    have hlegal : (s ++ (o ++ ascii "_ITEM" ++ dec (k + 1))).all legal = true := by
      rw [List.append_assoc]
      exact all_legal_append hs.2 ho.2 hchars
    rw [configGet_own h (hitems k hk) rfl hlegal, contents_item, Option.getD_some, orDefault_nil]
  rw [configListForeach, hlength, orDefault_nil, contents_length]
  simp only [rounds_counter]
  apply List.ext_getElem?
  intro k
  rw [List.getElem?_map]
  rcases lt_or_ge k (items all s o).length with hk | hk
  · rw [List.getElem?_range hk, Option.map_some, hitem k hk, List.getElem?_eq_getElem hk,
      Option.getD_some]
  · rw [List.getElem?_eq_none (by rwa [List.length_range]), List.getElem?_eq_none hk]
    rfl

theorem mem_optionKey_iff : (s, o) ∈ all.filterMap optionKey ↔ ∃ v, (s, .option o v) ∈ all := by
  rw [List.mem_filterMap]
  constructor
  · rintro ⟨⟨s', x⟩, hmem, hkey⟩
    cases x with
    | sectionType t => cases hkey
    | option o' v =>
      cases hkey
      exact ⟨v, hmem⟩
    | list l v => cases hkey
  · rintro ⟨v, hv⟩
    exact ⟨_, hv, rfl⟩

theorem mem_listKey_of_items (h : items all s o ≠ []) : (s, o) ∈ all.filterMap listKey := by
  obtain ⟨v, hv⟩ := List.exists_mem_of_ne_nil _ h
  obtain ⟨⟨s', x⟩, hmem, hitem⟩ := List.mem_filterMap.mp hv
  cases x with
  | sectionType t => cases hitem
  | option o' v' => cases hitem
  | list l v' =>
    obtain ⟨⟨rfl, rfl⟩, -⟩ := Option.ite_none_right_eq_some.mp hitem
    exact List.mem_filterMap.mpr ⟨_, hmem, rfl⟩

/-- What each option and each list should be found as, whatever the names of the others are. -/
def Right (sep : Bytes) (calls : List Call) : Prop :=
  ∃ env, load sep calls start = some env ∧ ∀ s o dflt, Name s → Name o →
    (∀ v, (s, .option o v) ∈ settings 0 [] calls → configGet s o dflt env = some v) ∧
      (items (settings 0 [] calls) s o ≠ [] →
        configGet s o dflt env = some (sep.intercalate (items (settings 0 [] calls) s o))) ∧
      ((∀ v, (s, .option o v) ∉ settings 0 [] calls) → items (settings 0 [] calls) s o = [] →
        configGet s o dflt env = some dflt) ∧
      configListForeach s o env = items (settings 0 [] calls) s o

/-- An option and a list are found in their section, and nothing is found where there is none, when
their variables are their own. Where a value is empty, or all items are, there is the default. -/
theorem lookup_exact {calls : List Call} (hpkg : Package (settings 0 [] calls))
    (hown : OwnCounters (settings 0 [] calls)) :
    ∃ env, load sep calls start = some env ∧ ∀ s o, Name s → Name o →
      (Own (settings 0 [] calls) (.main s o) → ∀ dflt,
        (∀ v, (s, .option o v) ∈ settings 0 [] calls →
            configGet s o dflt env = some (orDefault dflt v)) ∧
          (items (settings 0 [] calls) s o ≠ [] → configGet s o dflt env =
            some (orDefault dflt (joined sep (items (settings 0 [] calls) s o)))) ∧
          ((∀ v, (s, .option o v) ∉ settings 0 [] calls) → items (settings 0 [] calls) s o = [] →
            configGet s o dflt env = some dflt)) ∧
      (Own (settings 0 [] calls) (.length s o) →
        (∀ k < (items (settings 0 [] calls) s o).length,
          Own (settings 0 [] calls) (.item s o (k + 1))) →
        configListForeach s o env = items (settings 0 [] calls) s o) := by
  have hrun : ∃ env, load sep calls start = some env ∧
      Holds (settings 0 [] calls) env (contents sep (settings 0 [] calls)) :=
    load_holds (n := 0) (s := []) hpkg hown calls rfl (holds_start _) rfl rfl
  obtain ⟨env, hload, hend⟩ := hrun
  have hlegal : ∀ s o, Name s → Name o → (s ++ o).all legal = true := by
    intro s o hs ho
    rw [List.all_append, hs.2, ho.2]
    rfl
  generalize settings 0 [] calls = all at *
  refine ⟨env, hload, fun s o hs ho => ⟨fun hmain dflt => ⟨fun v hv => ?_, fun hne => ?_,
    fun hnone hnil => ?_⟩, configListForeach_eq hend hs ho⟩⟩
  · rw [configGet_own hend hmain rfl (hlegal s o hs ho), contents_main_of_option hpkg hv]
  · -- a name with items is not that of an option, so that nothing but the items was appended
    have hkey : (s, o) ∉ all.filterMap optionKey :=
      fun hkey => hpkg.apart _ hkey (mem_listKey_of_items hne)
    rw [configGet_own hend hmain rfl (hlegal s o hs ho), contents_main_of_list hkey]
  · have hkey : (s, o) ∉ all.filterMap optionKey := by
      rw [mem_optionKey_iff]
      rintro ⟨v, hv⟩
      exact hnone v hv
    rw [configGet_own hend hmain rfl (hlegal s o hs ho), contents_main_of_list hkey, hnil]
    rfl

/-- A section `a` with an option `b_c`, and a section `a_b` without options. -/
def sharedName : List Call :=
  [.config (ascii "t") (ascii "a"), .option (ascii "b_c") (ascii "1"),
    .config (ascii "t") (ascii "a_b")]

/-- An option without a value. -/
def emptyValue : List Call := [.config (ascii "t") (ascii "a"), .option (ascii "b") []]

/-- A list with an item that is empty. -/
def emptyItem : List Call :=
  [.config (ascii "t") (ascii "a"), .list (ascii "l") (ascii "x"), .list (ascii "l") [],
    .list (ascii "l") (ascii "y")]

/-- An option with the name of the counter of a list, and no number in it. -/
def sharedCounter : List Call :=
  [.config (ascii "t") (ascii "a"), .option (ascii "l_LENGTH") (ascii "5 6"),
    .list (ascii "l") (ascii "x")]

theorem configGet_of_load {calls : List Call} (h : load sep calls start = some env) (s o dflt : Bytes) :
    (load sep calls start).bind (configGet s o dflt) = configGet s o dflt env := by
  rw [h, Option.bind_some]

/-- A name may be taken, empty values and items are lost, and a counter may be no number. -/
theorem not_right :
    (Package (settings 0 [] sharedName) ∧ ¬ Right [32] sharedName) ∧
      (Package (settings 0 [] emptyValue) ∧ ¬ Right [32] emptyValue) ∧
      (Package (settings 0 [] emptyItem) ∧ ¬ Right [32] emptyItem) ∧
      (Package (settings 0 [] sharedCounter) ∧ ¬ Right [32] sharedCounter) := by
  refine ⟨⟨?_, ?_⟩, ⟨?_, ?_⟩, ⟨?_, ?_⟩, ⟨?_, ?_⟩⟩
  · exact ⟨by decide +kernel, by decide +kernel, by decide +kernel, by decide +kernel,
      by decide +kernel⟩
  · -- the section `a_b` has no option `c`
    rintro ⟨env, hload, hright⟩
    obtain ⟨-, -, hnone, -⟩ := hright (ascii "a_b") (ascii "c") (ascii "2") (by decide) (by decide)
    have hread := hnone
      (fun v hv => absurd (mem_optionKey_iff.mpr ⟨v, hv⟩) (by decide +kernel)) (by decide)
    rw [← configGet_of_load hload] at hread
    exact absurd hread (by decide +kernel)
  · exact ⟨by decide +kernel, by decide +kernel, by decide +kernel, by decide +kernel,
      by decide +kernel⟩
  · rintro ⟨env, hload, hright⟩
    have hread :=
      (hright (ascii "a") (ascii "b") (ascii "2") (by decide) (by decide)).1 [] (by decide)
    rw [← configGet_of_load hload] at hread
    exact absurd hread (by decide +kernel)
  · exact ⟨by decide +kernel, by decide +kernel, by decide +kernel, by decide +kernel,
      by decide +kernel⟩
  · rintro ⟨env, hload, hright⟩
    have hread := (hright (ascii "a") (ascii "l") [] (by decide) (by decide)).2.1 (by decide)
    rw [← configGet_of_load hload] at hread
    exact absurd hread (by decide +kernel)
  · exact ⟨by decide +kernel, by decide +kernel, by decide +kernel, by decide +kernel,
      by decide +kernel⟩
  · rintro ⟨env, hload, -⟩
    have hnone : (load [32] sharedCounter start).isSome = false := by decide +kernel
    rw [hload] at hnone
    cases hnone

/-- A section with an option and a list. -/
def lan : List Call :=
  [.config (ascii "interface") (ascii "lan"), .option (ascii "proto") (ascii "static"),
    .list (ascii "dns") (ascii "192.0.2.1"), .list (ascii "dns") (ascii "192.0.2.2")]

/-- Both are found. -/
theorem lookup_lan :
    ∃ env, load [32] lan start = some env ∧
      configGet (ascii "lan") (ascii "proto") [] env = some (ascii "static") ∧
      configListForeach (ascii "lan") (ascii "dns") env =
        [ascii "192.0.2.1", ascii "192.0.2.2"] := by
  have hpkg : Package (settings 0 [] lan) :=
    ⟨by decide +kernel, by decide +kernel, by decide +kernel, by decide +kernel, by decide +kernel⟩
  have hcounters : OwnCounters (settings 0 [] lan) := by
    unfold OwnCounters Own Unshared
    decide +kernel
  have hmain : Own (settings 0 [] lan) (.main (ascii "lan") (ascii "proto")) := by
    unfold Own Unshared
    decide +kernel
  have hlength : Own (settings 0 [] lan) (.length (ascii "lan") (ascii "dns")) := by
    unfold Own Unshared
    decide +kernel
  have hitems : ∀ k < (items (settings 0 [] lan) (ascii "lan") (ascii "dns")).length,
      Own (settings 0 [] lan) (.item (ascii "lan") (ascii "dns") (k + 1)) := by
    unfold Own Unshared
    decide +kernel
  obtain ⟨env, hload, hread⟩ := @lookup_exact [32] lan hpkg hcounters
  refine ⟨env, hload, ?_, ?_⟩
  · exact ((hread (ascii "lan") (ascii "proto") (by decide) (by decide)).1 hmain []).1
      (ascii "static") (by decide)
  · exact (hread (ascii "lan") (ascii "dns") (by decide) (by decide)).2 hlength hitems

end Lookup

end NeonWrt.BaseFiles.UciStore
