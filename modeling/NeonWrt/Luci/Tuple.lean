import NeonWrt.Luci.Validation

/-!
# Tuples

`tuple` gets its types and their arguments as a flat list, in which a `sep` with the
separator may stand. It looks for `sep` and takes the last pair off the list, which is
the pair of `sep` only if that is the last one.
-/

namespace NeonWrt.Luci.Validation

open Lib

/-- A type with its arguments, of which `split` would take the first one as a text. -/
structure TypeArg where
  check : Check
  first : Option JsString

/-- A pair of arguments of `tuple`: a type, or `sep`. -/
inductive TupleArg
  | type (t : TypeArg)
  | sep (str : Option JsString)

namespace TupleArg

/-- The first of the arguments, if there are any. -/
def first : TupleArg → Option JsString
  | .type t => t.first
  | .sep str => str

/-- The evaluation as a type. -/
def check : TupleArg → Check
  | .type t => t.check
  | .sep str => Validation.sep str

end TupleArg

/-- The loop that determines the separator, which shortens the list while it goes over it. -/
def sepLoop (types : List TupleArg) (i : ℕ) (sep : Option JsString) :
    List TupleArg × Option JsString :=
  match _h : types[i]? with
  | none => (types, sep)
  | some (.type _) => sepLoop types (i + 1) sep
  | some (.sep _) =>
    let e := types.getLast?
    sepLoop types.dropLast (i + 1) ((e.bind (·.first)).or sep)
termination_by types.length - i
decreasing_by
  · have := (List.getElem?_eq_some_iff.mp _h).1
    omega
  · have := (List.getElem?_eq_some_iff.mp _h).1
    rw [List.length_dropLast]
    omega

/-- The loop over the pieces. -/
def applyEach : List TupleArg → List JsString → Check
  | t :: ts, w :: ws, _ =>
    (t.check w).bind fun (accepted, y) => if accepted then applyEach ts ws y else some (false, y)
  | _, _, y => some (true, y)

/-- `tuple` -/
def tuple (args : List TupleArg) : Check := fun x =>
  let (types, sep) := sepLoop args 0 none
  if (pieces x sep).length = types.length then applyEach types (pieces x sep) x
  else some (false, x)

section Loop

variable {ts us : List TypeArg} {s : Option JsString} {x y : JsString} {u : TypeArg}

theorem sepLoop_types (p q : List TupleArg) (ts : List TypeArg) (s : Option JsString) :
    sepLoop (p ++ (ts.map .type ++ q)) p.length s =
      sepLoop (p ++ (ts.map .type ++ q)) (p.length + ts.length) s := by
  induction ts generalizing p with
  | nil => rfl
  | cons t ts ih =>
    have hhead : (p ++ (TupleArg.type t :: (ts.map .type ++ q)))[p.length]? = some (.type t) := by
      rw [List.getElem?_append_right le_rfl, Nat.sub_self, List.getElem?_cons_zero]
    have hih := ih (p ++ [.type t])
    rw [List.append_assoc, List.length_append, List.length_singleton] at hih
    conv_lhs => rw [List.map_cons, List.cons_append, sepLoop]
    split
    next hnone => rw [hhead] at hnone; cases hnone
    next t' hsome =>
      rw [List.map_cons, List.cons_append, List.length_cons]
      exact hih.trans (by rw [Nat.add_assoc, Nat.add_comm 1]; rfl)
    next str hsome => rw [hhead] at hsome; cases hsome

theorem sepLoop_length (p : List TupleArg) (s : Option JsString) :
    sepLoop p p.length s = (p, s) := by
  rw [sepLoop]
  split
  next => rfl
  next hsome => simp at hsome
  next hsome => simp at hsome

/-- Without a separator, the list stays as it is. -/
theorem sepLoop_none (ts : List TypeArg) : sepLoop (ts.map .type) 0 none = (ts.map .type, none) := by
  have h := sepLoop_types [] [] ts none
  rw [List.append_nil, List.nil_append, List.length_nil, Nat.zero_add] at h
  rw [h, ← List.length_map TupleArg.type]
  exact sepLoop_length _ _

/-- At the separator the last pair is taken off. -/
theorem sepLoop_cons {q front : List TupleArg} {e : TupleArg}
    (h : ts.map TupleArg.type ++ TupleArg.sep s :: q = front ++ [e]) :
    sepLoop (ts.map .type ++ .sep s :: q) 0 none = sepLoop front (ts.length + 1) e.first := by
  have hskip := sepLoop_types [] (.sep s :: q) ts none
  rw [List.nil_append, List.length_nil, Nat.zero_add] at hskip
  have hsep : (ts.map TupleArg.type ++ TupleArg.sep s :: q)[ts.length]? = some (.sep s) := by
    rw [List.getElem?_append_right (List.length_map _).le, List.length_map, Nat.sub_self,
      List.getElem?_cons_zero]
  rw [hskip]
  conv_lhs => rw [sepLoop]
  split
  next hnone => rw [hsep] at hnone; cases hnone
  next hsome => rw [hsep] at hsome; cases hsome
  next =>
    rw [h, List.dropLast_concat, List.getLast?_concat]
    simp

/-- The separator is found where it is the last pair. -/
theorem sepLoop_sep_last (ts : List TypeArg) (s : Option JsString) :
    sepLoop (ts.map .type ++ [.sep s]) 0 none = (ts.map .type, s) := by
  rw [sepLoop_cons rfl, sepLoop]
  split
  next => rfl
  next hsome => simp at hsome
  next hsome => simp at hsome

/-- Elsewhere it stays in the list, the last type is taken off, and what splits the value is the
first argument of that type. -/
theorem sepLoop_sep_inside (ts us : List TypeArg) (u : TypeArg) (s : Option JsString) :
    sepLoop (ts.map .type ++ .sep s :: (us ++ [u]).map .type) 0 none =
      (ts.map .type ++ .sep s :: us.map .type, u.first) := by
  have hlist : ts.map TupleArg.type ++ TupleArg.sep s :: (us ++ [u]).map .type =
      (ts.map .type ++ .sep s :: us.map .type) ++ [.type u] := by simp
  rw [sepLoop_cons hlist]
  have hskip := sepLoop_types (ts.map .type ++ [.sep s]) [] us u.first
  have hend := sepLoop_length (ts.map .type ++ .sep s :: us.map .type) u.first
  simp only [List.append_assoc, List.append_nil, List.singleton_append, List.length_append,
    List.length_map, List.length_cons, List.length_nil] at hskip hend
  rw [TupleArg.first, hskip]
  convert hend using 2
  omega

end Loop

section Fits

variable {ts us : List TypeArg} {args : List TupleArg} {s : Option JsString} {x y : JsString}
  {u : TypeArg}

/-- The value has one piece for each pair, which the pair accepts as a type. -/
def FitsPieces (args : List TupleArg) (s : Option JsString) (x : JsString) : Prop :=
  List.Forall₂ (fun t p => Accepts t.check p) args (pieces x s)

theorem accepts_applyEach {ws : List JsString} (h : ws.length = args.length) (y : JsString) :
    Accepts (applyEach args ws) y ↔ List.Forall₂ (fun t p => Accepts t.check p) args ws := by
  induction args generalizing ws y with
  | nil =>
    obtain rfl := List.eq_nil_of_length_eq_zero h
    exact iff_of_true ⟨y, rfl⟩ .nil
  | cons t args ih =>
    cases ws with
    | nil => cases h
    | cons w ws =>
      have hlen : ws.length = args.length := Nat.succ.inj h
      rw [List.forall₂_cons]
      cases hrun : t.check w with
      | none => simp [Accepts, applyEach, hrun]
      | some result =>
        obtain ⟨accepted, v⟩ := result
        cases accepted with
        | false => simp [Accepts, applyEach, hrun]
        | true =>
          rw [← ih hlen v]
          simp [Accepts, applyEach, hrun]

/-- What the loop over the types makes of what the first loop left. -/
theorem accepts_tuple {types : List TupleArg} (h : sepLoop args 0 none = (types, s)) :
    Accepts (tuple args) x ↔ FitsPieces types s x := by
  unfold Accepts tuple
  rw [h]
  simp only
  split_ifs with hlen
  · exact accepts_applyEach hlen x
  · refine iff_of_false (by simp) fun hfits => hlen hfits.length_eq.symm

theorem applyEach_eq_runTuple {others : List JsString} {types : List Datatype}
    (h : args.map (·.check) = types.map (·.run others)) (ws : List JsString) :
    applyEach args ws = runTuple others types ws := by
  induction args generalizing types ws with
  | nil =>
    obtain rfl := List.map_eq_nil_iff.mp h.symm
    cases ws <;> rfl
  | cons t args ih =>
    obtain ⟨u, types, rfl, hhead, htail⟩ := List.map_eq_cons_iff.mp h.symm
    cases ws with
    | nil => rfl
    | cons w ws =>
      funext y
      rw [applyEach, runTuple, hhead, ih htail.symm ws]

theorem fits_of_accepts (h : ∀ t ∈ args, ∀ p, Accepts t.check p)
    (hlen : (pieces x s).length = args.length) : FitsPieces args s x := by
  rw [FitsPieces, List.forall₂_iff_zip]
  exact ⟨hlen.symm, fun hmem => h _ (List.of_mem_zip hmem).1 _⟩

theorem exists_of_fits (h : FitsPieces args s x) : ∀ t ∈ args, ∃ p, Accepts t.check p := by
  rw [FitsPieces] at h
  generalize pieces x s = ws at h
  induction h with
  | nil => simp
  | @cons t p args ps hp _ ih =>
    intro u hu
    rcases List.mem_cons.mp hu with rfl | hu
    · exact ⟨p, hp⟩
    · exact ih u hu

/-- Letters with blanks between them. -/
def letters : ℕ → JsString
  | 0 => []
  | n + 1 => 97 :: 32 :: letters n

theorem length_splitSpaces_letters (n : ℕ) (gap : Bool) :
    (splitSpaces (letters n) gap).length = n + 1 := by
  induction n generalizing gap with
  | zero => rfl
  | succ n ih =>
    have hspace : jsSpace 97 = false ∧ jsSpace 32 = true := by decide
    simp [letters, splitSpaces, hspace, consFirst, ih]

theorem splitText_skip (s r x : JsString) : splitText s (r ++ x) r.length = splitText s x 0 := by
  induction r with
  | nil => rfl
  | cons c r ih => exact ih

theorem length_splitText_replicate {s : JsString} (hs : s ≠ []) (n : ℕ) :
    (splitText s (List.replicate n s).flatten 0).length = n + 1 := by
  obtain ⟨c, r, rfl⟩ := List.exists_cons_of_ne_nil hs
  induction n with
  | zero => rfl
  | succ n ih =>
    rw [List.replicate_succ, List.flatten_cons, List.cons_append, splitText, if_pos (by simp),
      List.length_cons, List.length_cons, Nat.add_sub_cancel, splitText_skip, ih]

/-- However it is split, there is a value with any number of pieces. -/
theorem exists_pieces (n : ℕ) (f : Option JsString) : ∃ x, (pieces x f).length = n + 1 := by
  match f with
  | none => exact ⟨letters n, length_splitSpaces_letters n false⟩
  | some [] => exact ⟨List.replicate (n + 1) 97, by simp [pieces]⟩
  | some (c :: r) =>
    refine ⟨(List.replicate n (c :: r)).flatten, ?_⟩
    simpa [pieces] using length_splitText_replicate (List.cons_ne_nil c r) n

end Fits

/-- Types that are given by their verdicts on all values. -/
def verdicts (accepted : Bool) (fs : List (Option JsString)) : List TypeArg :=
  fs.map fun f => ⟨look fun _ => accepted, f⟩

theorem first_verdicts (accepted : Bool) (fs : List (Option JsString)) :
    (verdicts accepted fs).map (·.first) = fs := by
  simp [verdicts, Function.comp_def]

theorem accepts_verdicts {fs : List (Option JsString)} {t : TupleArg}
    (h : t ∈ (verdicts true fs).map .type) (x : JsString) : Accepts t.check x := by
  obtain ⟨u, hu, rfl⟩ := List.mem_map.mp h
  obtain ⟨f, -, rfl⟩ := List.mem_map.mp hu
  exact ⟨x, rfl⟩

/-- A tuple without a separator accepts the values whose pieces between blanks fit its types.
With a separator, a tuple of types with some arguments accepts the values whose pieces fit, for
all such types and all values, exactly if the separator is the last pair. If it is not, it stands
in the place of the type behind it, and the first argument of the last type splits the value. -/
theorem tuple_fits_iff (fs gs : List (Option JsString)) (s : JsString) :
    (∀ (ts : List TypeArg) x, Accepts (tuple (ts.map .type)) x ↔ FitsPieces (ts.map .type) none x) ∧
    ((∀ ts us : List TypeArg, ts.map (·.first) = fs → us.map (·.first) = gs → ∀ x,
        (Accepts (tuple (ts.map .type ++ .sep (some s) :: us.map .type)) x ↔
          FitsPieces ((ts ++ us).map .type) (some s) x)) ↔ gs = []) ∧
    ∀ (ts us : List TypeArg) u x, Accepts (tuple (ts.map .type ++ .sep (some s) :: (us ++ [u]).map .type)) x ↔
      FitsPieces (ts.map .type ++ .sep (some s) :: us.map .type) u.first x := by
  refine ⟨fun ts x => accepts_tuple (sepLoop_none ts), ⟨fun h => ?_, ?_⟩,
    fun ts us u x => accepts_tuple (sepLoop_sep_inside ts us u _)⟩
  · by_contra hne
    obtain ⟨gs', g, rfl⟩ := (List.eq_nil_or_concat' gs).resolve_left hne
    -- All types but the last one accept everything, and the value has as many pieces as types.
    obtain ⟨x, hx⟩ := exists_pieces (fs.length + gs'.length) g
    have hiff := h (verdicts true fs) (verdicts true gs' ++ [⟨look fun _ => false, g⟩])
      (first_verdicts true fs) (by simp [first_verdicts]) x
    rw [accepts_tuple (sepLoop_sep_inside _ _ _ _)] at hiff
    have hfits : FitsPieces ((verdicts true fs).map .type ++
        .sep (some s) :: (verdicts true gs').map .type) g x := by
      refine fits_of_accepts ?_ ?_
      · intro t ht p
        rcases List.mem_append.mp ht with ht | ht
        · exact accepts_verdicts ht p
        · rcases List.mem_cons.mp ht with rfl | ht
          · exact ⟨s, rfl⟩
          · exact accepts_verdicts ht p
      · simp [hx, verdicts]
        omega
    obtain ⟨p, y, hy⟩ := exists_of_fits (hiff.mp hfits) (.type ⟨look fun _ => false, g⟩) (by simp)
    simp [TupleArg.check, look] at hy
  · rintro rfl ts us rfl hus x
    obtain rfl := List.map_eq_nil_iff.mp hus
    rw [List.append_nil]
    exact accepts_tuple (sepLoop_sep_last ts _)

/-- Two ports with a separator between the types: a pair of ports is rejected. -/
theorem not_tuple_fits : ¬∀ (ts us : List TypeArg) (s x : JsString),
    Accepts (tuple (ts.map .type ++ .sep (some s) :: us.map .type)) x ↔
      FitsPieces ((ts ++ us).map .type) (some s) x := by
  intro h
  have hiff := h [⟨port, none⟩] [⟨port, none⟩] (units ",") (units "80,443")
  have hpieces : pieces (units "80,443") (some (units ",")) = [units "80", units "443"] := by
    decide +kernel
  have hblank : pieces (units "80,443") none = [units "80,443"] := by decide +kernel
  have hfits : FitsPieces (([⟨port, none⟩] ++ [⟨port, none⟩] : List TypeArg).map .type)
      (some (units ",")) (units "80,443") := by
    rw [FitsPieces, hpieces]
    exact .cons ⟨units "80", by decide +kernel⟩ (.cons ⟨units "443", by decide +kernel⟩ .nil)
  have haccepts := hiff.mpr hfits
  have hinside := sepLoop_sep_inside [⟨port, none⟩] [] ⟨port, none⟩ (some (units ","))
  rw [List.nil_append] at hinside
  rw [accepts_tuple hinside, FitsPieces, hblank] at haccepts
  simp at haccepts

end NeonWrt.Luci.Validation
