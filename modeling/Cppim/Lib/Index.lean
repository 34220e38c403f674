import Mathlib.Logic.Function.Basic

/-! An index from names to members that is kept beside a field in which each member
holds its own name. Removal goes by that field, so the index has to agree with it. -/

namespace Cppim.Lib.Index

variable {κ ι : Type} {R R' : κ → ι → Prop} {name : ι → κ}

/-- Whatever stands under a name holds that name itself. -/
def Agrees (R : κ → ι → Prop) (name : ι → κ) : Prop := ∀ k i, R k i → name i = k

theorem Agrees.mono (h : Agrees R name) (hsub : ∀ k i, R' k i → R k i) : Agrees R' name :=
  fun k i hi => h k i (hsub k i hi)

/-- A member stands under one name at most. -/
theorem Agrees.unique (h : Agrees R name) {k l : κ} {i : ι} (hk : R k i) (hl : R l i) : k = l :=
  (h k i hk).symm.trans (h l i hl)

/-- A member that does not stand under the name it holds stands nowhere. -/
theorem Agrees.gone (h : Agrees R name) {i : ι} (hi : ¬ R (name i) i) (k : κ) : ¬ R k i := by
  intro hk
  rw [h k i hk] at hi
  exact hi hk

/-- A member that stands nowhere may be given a name and entered under it. -/
theorem Agrees.enter [DecidableEq ι] (h : Agrees R name) {k₀ : κ} {i₀ : ι}
    (hfree : ∀ k, ¬ R k i₀) (hsub : ∀ k i, R' k i → R k i ∨ (k = k₀ ∧ i = i₀)) :
    Agrees R' (Function.update name i₀ k₀) := by
  intro k i hi
  rcases hsub k i hi with hold | ⟨rfl, rfl⟩
  · have hne : i ≠ i₀ := by
      rintro rfl
      exact hfree k hold
    rw [Function.update_of_ne hne]
    exact h k i hold
  · exact Function.update_self ..

end Cppim.Lib.Index
