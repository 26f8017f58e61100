import Mathlib.Computability.StateTransition
import Mathlib.Data.Set.Finite.Basic

/-!
# Loops that end

A loop is a step function that gives no next state where the loop ends. If only
finitely many states have a next one, the loop ends exactly if it comes back to
no state.
-/

namespace NeonWrt.Lib

open StateTransition Relation

variable {σ τ : Type*} {f : σ → Option σ} {a b c : σ}

/-- The loop comes to a state without a next one. -/
def Halts (f : σ → Option σ) (a : σ) : Prop := ∃ b, Reaches f a b ∧ f b = none

theorem Halts.of_none (h : f a = none) : Halts f a := ⟨a, .refl, h⟩

theorem Halts.step (h : f a = some b) (hb : Halts f b) : Halts f a := by
  obtain ⟨c, hreach, hnone⟩ := hb
  exact ⟨c, .head h hreach, hnone⟩

/-- A loop that ends comes back to no state. -/
theorem Halts.acyclic (h : Halts f a) (hreach : Reaches f a b) : ¬ Reaches₁ f b b := by
  obtain ⟨c, hend, hnone⟩ := h
  intro hcycle
  -- all states on the way to the end are on the way to `b` or come after it
  have hbc : Reaches f b c := by
    rcases reaches_total hreach hend with hbc | hcb
    · exact hbc
    · rcases hcb.cases_head with rfl | ⟨d, hd, -⟩
      · exact .refl
      · rw [hnone] at hd
        cases hd
  induction hbc using ReflTransGen.head_induction_on with
  | refl =>
    obtain ⟨d, hd, -⟩ := TransGen.head'_iff.mp hcycle
    rw [hnone] at hd
    cases hd
  | head hstep hrest ih =>
    obtain ⟨d, hd, hback⟩ := TransGen.head'_iff.mp hcycle
    obtain rfl := Option.mem_unique hd hstep
    exact ih (hreach.tail hstep) (TransGen.tail' hback hstep)

/-- A loop that goes on from finitely many states ends unless it comes back to one. -/
theorem halts_iff_fresh {s : Set σ} (hfin : s.Finite)
    (hs : ∀ b, Reaches f a b → (f b).isSome → b ∈ s) :
    Halts f a ↔ ∀ b, Reaches f a b → ¬ Reaches₁ f b b := by
  refine ⟨fun h b hreach => h.acyclic hreach, fun hacyclic => ?_⟩
  -- the states with a next one that are reached, later ones below earlier ones
  let T := {b // Reaches f a b ∧ (f b).isSome}
  have : Finite T :=
    (hfin.subset fun b (hb : Reaches f a b ∧ (f b).isSome) => hs b hb.1 hb.2).to_subtype
  let later : T → T → Prop := fun c b => Reaches₁ f b.1 c.1
  have : IsTrans T later := ⟨fun _ _ _ h h' => TransGen.trans h' h⟩
  have : Std.Irrefl later := ⟨fun b hb => hacyclic b.1 b.2.1 hb⟩
  have hwf : WellFounded later := Finite.wellFounded_of_trans_of_irrefl later
  have hall : ∀ b : T, Halts f b.1 := by
    refine hwf.fix fun b ih => ?_
    obtain ⟨c, hc⟩ := Option.isSome_iff_exists.mp b.2.2
    refine Halts.step hc ?_
    by_cases hnext : (f c).isSome
    · exact ih ⟨c, b.2.1.tail hc, hnext⟩ (TransGen.single hc)
    · exact .of_none (Option.not_isSome_iff_eq_none.mp hnext)
  by_cases hstart : (f a).isSome
  · exact hall ⟨a, .refl, hstart⟩
  · exact .of_none (Option.not_isSome_iff_eq_none.mp hstart)

/-- Over finitely many states a loop ends unless it comes back to one. -/
theorem halts_iff_acyclic {s : Set σ} (hfin : s.Finite) (hs : ∀ b, (f b).isSome → b ∈ s) :
    Halts f a ↔ ∀ b, Reaches f a b → ¬ Reaches₁ f b b :=
  halts_iff_fresh hfin fun b _ => hs b

section Follow

variable {g : τ → Option τ} {π : σ → τ}

theorem Reaches.map (hstep : ∀ a, (f a).map π = g (π a)) (h : Reaches f a b) :
    Reaches g (π a) (π b) := by
  induction h with
  | refl => exact .refl
  | @tail b c _ hbc ih =>
    refine ih.tail ?_
    rw [← hstep, Option.mem_def.mp hbc]
    rfl

theorem Reaches.lift (hstep : ∀ a, (f a).map π = g (π a)) {t : τ} (h : Reaches g (π a) t) :
    ∃ b, Reaches f a b ∧ π b = t := by
  induction h with
  | refl => exact ⟨a, .refl, rfl⟩
  | @tail t u _ htu ih =>
    obtain ⟨b, hreach, rfl⟩ := ih
    obtain ⟨c, hc, rfl⟩ := Option.map_eq_some_iff.mp ((hstep b).trans htu)
    exact ⟨c, hreach.tail hc, rfl⟩

/-- A loop whose states are those of another one with more in them ends when that does. -/
theorem halts_congr (hstep : ∀ a, (f a).map π = g (π a)) : Halts f a ↔ Halts g (π a) := by
  constructor
  · rintro ⟨b, hreach, hnone⟩
    refine ⟨π b, Reaches.map hstep hreach, ?_⟩
    rw [← hstep, hnone]
    rfl
  · rintro ⟨t, hreach, hnone⟩
    obtain ⟨b, hb, rfl⟩ := Reaches.lift hstep hreach
    exact ⟨b, hb, Option.map_eq_none_iff.mp ((hstep b).trans hnone)⟩

end Follow

end NeonWrt.Lib
