import Mathlib.Data.List.Induction

/-! Tickets drawn from a counter. Whoever enters is given the number of those inside, itself
included; whoever leaves keeps its number out of use, so that the numbers of the others
are no longer exact but only too large (`Ranked`). `Ranked.countP_le` is what such numbers
are good for: if the number of everybody who is let through was at most a bound, at most
that many are through. -/

namespace Cppim.Lib.Ticket

variable {α : Type} {rank : α → Int}

/-- In the order of entering, everybody's number is at least its place. -/
def Ranked (rank : α → Int) (xs : List α) : Prop :=
  ∀ (k : Nat) (x : α), xs[k]? = some x → (k : Int) + 1 ≤ rank x

namespace Ranked

theorem nil : Ranked rank [] := by
  intro k x h
  simp at h

/-- The one that enters is given the number of those inside. -/
theorem enter {xs : List α} (h : Ranked rank xs) (x : α) (hx : rank x = (xs.length : Int) + 1) :
    Ranked rank (xs ++ [x]) := by
  intro k y hy
  rw [List.getElem?_append] at hy
  split at hy
  · exact h k y hy
  · rename_i hk
    obtain ⟨hlt, hget⟩ := List.getElem?_eq_some_iff.mp hy
    simp only [List.getElem_singleton] at hget
    simp only [List.length_singleton] at hlt
    rw [← hget, hx]
    omega

/-- Whoever leaves moves the ones behind it forward. -/
theorem leave {xs : List α} (h : Ranked rank xs) (i : Nat) : Ranked rank (xs.eraseIdx i) := by
  intro k x hx
  rw [List.getElem?_eraseIdx] at hx
  split at hx
  · exact h k x hx
  · have := h (k + 1) x hx
    push_cast at this
    omega

/-- A number does not change while its owner is inside. -/
theorem set {xs : List α} (h : Ranked rank xs) {i : Nat} {x y : α} (hx : xs[i]? = some x)
    (hy : rank y = rank x) : Ranked rank (xs.set i y) := by
  intro k z hz
  rw [List.getElem?_set] at hz
  split at hz
  · rename_i hik
    subst hik
    split at hz
    · cases hz
      rw [hy]
      exact h i x hx
    · cases hz
  · exact h k z hz

/-- **The bound.** The last one that is let through has a number at least as large as the
number of those let through. -/
theorem countP_le {xs : List α} {p : α → Bool} {m : Int} (hm : 0 ≤ m) (h : Ranked rank xs)
    (hp : ∀ x ∈ xs, p x = true → rank x ≤ m) : (xs.countP p : Int) ≤ m := by
  induction xs using List.reverseRecOn with
  | nil => simpa using hm
  | append_singleton xs x ih =>
    rw [List.countP_append]
    by_cases hx : p x = true
    · have hrank : (xs.length : Int) + 1 ≤ rank x := h xs.length x (by simp)
      have hle : rank x ≤ m := hp x (by simp) hx
      have hcount : xs.countP p ≤ xs.length := List.countP_le_length
      simp only [List.countP_singleton, hx, ↓reduceIte]
      push_cast
      omega
    · have hrest : Ranked rank xs := by
        intro k y hy
        obtain ⟨hlt, -⟩ := List.getElem?_eq_some_iff.mp hy
        exact h k y (by rw [List.getElem?_append_left hlt, hy])
      have hle := ih hrest fun y hy => hp y (by simp [hy])
      simpa [List.countP_singleton, hx] using hle

end Ranked

end Cppim.Lib.Ticket
