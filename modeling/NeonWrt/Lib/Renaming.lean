import Mathlib.Logic.Function.Basic

/-!
# Stores under other names

A store whose variables are written down under names. The naming need not be
injective: a variable whose name no other variable in use has is kept as it should
be, whatever happens to the others.
-/

namespace NeonWrt.Lib

variable {ι κ α : Type*} {name : ι → κ} {used : ι → Prop} {flat : κ → α} {store : ι → α} {v w : ι}

/-- No other variable in use has the name of this one. -/
def Unshared (name : ι → κ) (used : ι → Prop) (v : ι) : Prop := ∀ w, used w → name w = name v → w = v

/-- Under names that are not shared, there is what the variables hold. -/
def Agrees (name : ι → κ) (used : ι → Prop) (flat : κ → α) (store : ι → α) : Prop :=
  ∀ v, Unshared name used v → flat (name v) = store v

theorem Unshared.name_ne (h : Unshared name used v) (hw : used w) (hne : w ≠ v) :
    name w ≠ name v := fun hname => hne (h w hw hname)

/-- The value may differ where the name is shared. -/
theorem Agrees.update [DecidableEq ι] [DecidableEq κ] (h : Agrees name used flat store)
    (hw : used w) {x y : α} (hxy : Unshared name used w → x = y) :
    Agrees name used (Function.update flat (name w) x) (Function.update store w y) := by
  intro v hv
  rcases eq_or_ne v w with rfl | hne
  · rw [Function.update_self, Function.update_self, hxy hv]
  · rw [Function.update_of_ne (hv.name_ne hw hne.symm).symm, Function.update_of_ne hne, h v hv]

end NeonWrt.Lib
