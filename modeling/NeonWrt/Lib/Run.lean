import Mathlib.Logic.Relation

/-!
# Runs of labelled transition systems

A run starts in an initial state and takes labelled steps, each of which meets
a condition on its label and the state it is taken in. With the condition that
always holds, `Reaches` is plain reachability; a stronger condition singles out
the runs an invariant is claimed for.
-/

namespace NeonWrt.Lib

variable {σ α : Type*}

/-- `Reaches init step ok s`: some run whose steps all meet `ok` ends in `s`. -/
inductive Reaches (init : σ → Prop) (step : σ → α → σ → Prop) (ok : σ → α → Prop) : σ → Prop
  | start {s : σ} : init s → Reaches init step ok s
  | next {s t : σ} (a : α) : Reaches init step ok s → ok s a → step s a t → Reaches init step ok t

namespace Reaches

variable {init : σ → Prop} {step : σ → α → σ → Prop} {ok : σ → α → Prop} {s : σ}

theorem invariant {P : σ → Prop} (hinit : ∀ s, init s → P s)
    (hstep : ∀ s a t, P s → ok s a → step s a t → P t) (h : Reaches init step ok s) : P s := by
  induction h with
  | start hs => exact hinit _ hs
  | next a _ hok hst ih => exact hstep _ a _ ih hok hst

theorem of_step {step' : σ → α → σ → Prop} (hstep : ∀ s a t, step s a t → step' s a t)
    (h : Reaches init step ok s) : Reaches init step' ok s := by
  induction h with
  | start hs => exact .start hs
  | next a _ hoka hst ih => exact .next a ih hoka (hstep _ _ _ hst)

end Reaches

/-- A sequence of steps, each of which passes a test. -/
def runAll (exec : σ → α → Option σ) (test : σ → α → Bool) : σ → List α → Option σ
  | s, [] => some s
  | s, a :: as => if test s a then (exec s a).bind fun t => runAll exec test t as else none

theorem reaches_runAll {init : σ → Prop} {ok : σ → α → Prop} {exec : σ → α → Option σ}
    {test : σ → α → Bool} (htest : ∀ s a, test s a = true → ok s a) {s t : σ} {as : List α}
    (hs : Reaches init (fun s a t => exec s a = some t) ok s)
    (h : runAll exec test s as = some t) :
    Reaches init (fun s a t => exec s a = some t) ok t := by
  induction as generalizing s with
  | nil => exact Option.some.inj h ▸ hs
  | cons a as ih =>
    rw [runAll] at h
    cases ha : test s a with
    | true =>
      rw [if_pos ha] at h
      obtain ⟨u, hu, hrest⟩ := Option.bind_eq_some_iff.mp h
      exact ih (hs.next a (htest s a ha) hu) hrest
    | false => simp [ha] at h

/-- A loop over the numbers below a bound, by what one pass keeps. -/
theorem foldlM_range_inv {f : σ → Nat → Option σ} (Inv : Nat → σ → Prop) {n : Nat} {s t : σ}
    (hinit : Inv 0 s) (hstep : ∀ i < n, ∀ s t, Inv i s → f s i = some t → Inv (i + 1) t)
    (h : (List.range n).foldlM f s = some t) : Inv n t := by
  induction n generalizing t with
  | zero =>
    cases h
    exact hinit
  | succ n ih =>
    rw [List.range_succ, List.foldlM_append] at h
    obtain ⟨u, hu, h⟩ := Option.bind_eq_some_iff.mp h
    obtain ⟨t', ht', h⟩ := Option.bind_eq_some_iff.mp h
    cases h
    exact hstep n (Nat.lt_succ_self n) u t (ih (fun i hi => hstep i (by omega)) hu) ht'

/-- A loop whose passes either keep an invariant or fail, and fail exactly on elements without some
property, fails exactly if an element does not have it. -/
theorem foldlM_cases {f : σ → α → Option σ} {P : α → Prop} (Inv : List α → σ → Prop)
    (hstep : ∀ done s a, Inv done s →
      (P a ∧ ∃ t, f s a = some t ∧ Inv (done ++ [a]) t) ∨ (¬P a ∧ f s a = none))
    {s : σ} (h : Inv [] s) (l : List α) :
    ((∀ a ∈ l, P a) ∧ ∃ t, l.foldlM f s = some t ∧ Inv l t) ∨
      ((¬∀ a ∈ l, P a) ∧ l.foldlM f s = none) := by
  suffices hfrom : ∀ done s, Inv done s →
      ((∀ a ∈ l, P a) ∧ ∃ t, l.foldlM f s = some t ∧ Inv (done ++ l) t) ∨
        ((¬∀ a ∈ l, P a) ∧ l.foldlM f s = none) from hfrom [] s h
  induction l with
  | nil => exact fun done s h => Or.inl ⟨by simp, s, rfl, by rwa [List.append_nil]⟩
  | cons a l ih =>
    intro done s h
    rw [List.foldlM_cons, List.forall_mem_cons]
    rcases hstep done s a h with ⟨ha, t, ht, hinv⟩ | ⟨ha, hnone⟩
    · rw [ht, Option.bind_eq_bind, Option.bind_some]
      have hrest := ih (done ++ [a]) t hinv
      rw [List.append_assoc, List.singleton_append] at hrest
      exact hrest.imp (And.imp_left fun hl => ⟨ha, hl⟩) (And.imp_left fun hl hall => hl hall.2)
    · rw [hnone]
      exact Or.inr ⟨fun hall => ha hall.1, rfl⟩

end NeonWrt.Lib
