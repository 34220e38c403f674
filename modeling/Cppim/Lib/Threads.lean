import Mathlib.Algebra.BigOperators.Group.List.Basic
import Mathlib.Algebra.GroupWithZero.Nat

/-! Threads that act by turns on a shared state. A label is the number of the thread
that acts; any list of labels is an interleaving. `step_inv` cuts the list of threads at
the one that acts, and the rules below it say what a step keeps of all threads together. -/

namespace Cppim.Lib.Threads

variable {γ τ : Type}

/-- The thread `i` acts. A thread that has nothing left to do gives `none`. -/
def step (act : γ → τ → Option (γ × τ)) (s : γ × List τ) (i : Nat) : Option (γ × List τ) :=
  match s.2[i]? with
  | none => none
  | some t => (act s.1 t).map fun r => (r.1, s.2.set i r.2)

variable {act : γ → τ → Option (γ × τ)}

/-- One thread acts; the threads before and behind it stay as they are. -/
theorem step_inv {s s' : γ × List τ} {i : Nat} (h : step act s i = some s') :
    ∃ before t behind c' t', s.2 = before ++ t :: behind ∧ act s.1 t = some (c', t') ∧
      s' = (c', before ++ t' :: behind) := by
  unfold step at h
  split at h
  · cases h
  · rename_i t hget
    obtain ⟨hlt, rfl⟩ := List.getElem?_eq_some_iff.mp hget
    obtain ⟨⟨c', t'⟩, hact, rfl⟩ := Option.map_eq_some_iff.mp h
    refine ⟨s.2.take i, _, s.2.drop (i + 1), c', t', ?_, hact, ?_⟩
    · rw [List.getElem_cons_drop, List.take_append_drop]
    · rw [List.set_eq_take_append_cons_drop, if_pos hlt]

theorem step_at {c c' : γ} {t t' : τ} (h : act c t = some (c', t')) (before behind : List τ) :
    step act (c, before ++ t :: behind) before.length = some (c', before ++ t' :: behind) := by
  simp [step, h]

section Rules

variable {s s' : γ × List τ} {i : Nat}

/-- What a step does to the shared state is the act of one of the threads. -/
theorem exists_act (h : step act s i = some s') :
    ∃ t ∈ s.2, ∃ t', act s.1 t = some (s'.1, t') := by
  obtain ⟨before, t, behind, c', t', hs, ht, rfl⟩ := step_inv h
  exact ⟨t, by simp [hs], t', ht⟩

/-- What no thread changes of itself is the same in all threads. -/
theorem step_map {β : Type} {f : τ → β}
    (hact : ∀ c t c' t', act c t = some (c', t') → f t' = f t) (h : step act s i = some s') :
    s'.2.map f = s.2.map f := by
  obtain ⟨before, t, behind, c', t', hs, ht, rfl⟩ := step_inv h
  simp only [hs, List.map_append, List.map_cons, hact s.1 t c' t' ht]

/-- What holds of every thread, is kept by a thread that acts and is not disturbed by
another one still holds of every thread. -/
theorem step_forall {P : γ → τ → Prop}
    (hown : ∀ c t c' t', act c t = some (c', t') → P c t → P c' t')
    (hother : ∀ c t c' t' u, act c t = some (c', t') → P c t → P c u → P c' u)
    (h : step act s i = some s') (hs : ∀ t ∈ s.2, P s.1 t) : ∀ t ∈ s'.2, P s'.1 t := by
  obtain ⟨before, t, behind, c', t', hsplit, ht, rfl⟩ := step_inv h
  rw [hsplit] at hs
  have hself : P s.1 t := hs t (by simp)
  intro u hu
  rcases List.mem_append.mp hu with hu | hu
  · exact hother s.1 t c' t' u ht hself (hs u (by simp [hu]))
  · rcases List.mem_cons.mp hu with rfl | hu
    · exact hown s.1 t c' u ht hself
    · exact hother s.1 t c' t' u ht hself (hs u (by simp [hu]))

/-- If an action moves a shared quantity by as much as the thread's own share of it, the
quantity stays the sum of the shares. -/
theorem step_sum {M : Type} [AddCommMonoid M] {q : γ → M} {share : τ → M}
    (hact : ∀ c t c' t', act c t = some (c', t') → q c' + share t = q c + share t')
    (h : step act s i = some s') :
    q s'.1 + (s.2.map share).sum = q s.1 + (s'.2.map share).sum := by
  obtain ⟨before, t, behind, c', t', hs, ht, rfl⟩ := step_inv h
  simp only [hs, List.map_append, List.map_cons, List.sum_append, List.sum_cons]
  have hmove := hact s.1 t c' t' ht
  calc q c' + ((before.map share).sum + (share t + (behind.map share).sum))
      = (q c' + share t) + ((before.map share).sum + (behind.map share).sum) := by
        simp only [add_assoc, add_left_comm]
    _ = (q s.1 + share t') + ((before.map share).sum + (behind.map share).sum) := by rw [hmove]
    _ = q s.1 + ((before.map share).sum + (share t' + (behind.map share).sum)) := by
        simp only [add_assoc, add_left_comm]

end Rules

/-- What holds of every thread, after one of them has gone on. -/
theorem forall_getElem?_set {P : Nat → τ → Prop} {ts : List τ} {i : Nat} {t' : τ} (hown : P i t')
    (hothers : ∀ (j : Nat) (t : τ), j ≠ i → ts[j]? = some t → P j t) :
    ∀ (j : Nat) (t : τ), (ts.set i t')[j]? = some t → P j t := by
  intro j t hj
  by_cases heq : j = i
  · subst heq
    have hlt : j < ts.length := by
      rw [← List.length_set]
      exact (List.getElem?_eq_some_iff.mp hj).1
    rw [List.getElem?_set_self hlt] at hj
    cases hj
    exact hown
  · rw [List.getElem?_set_ne (Ne.symm heq)] at hj
    exact hothers j t heq hj

/-- What holds of every thread, after one more has begun. -/
theorem forall_getElem?_concat {P : Nat → τ → Prop} {ts : List τ} {t' : τ}
    (hnew : P ts.length t') (hothers : ∀ (j : Nat) (t : τ), ts[j]? = some t → P j t) :
    ∀ (j : Nat) (t : τ), (ts ++ [t'])[j]? = some t → P j t := by
  intro j t hj
  rw [List.getElem?_append] at hj
  split at hj
  · exact hothers j t hj
  · obtain ⟨hlt, rfl⟩ := List.getElem?_eq_some_iff.mp hj
    obtain rfl : j = ts.length := by
      simp only [List.length_singleton] at hlt
      omega
    simpa using hnew

/-! ## Tallies -/

section Tally

/-- A quantity of which each thread has a share. -/
def tally (f : τ → Nat) (ts : List τ) : Nat := (ts.map f).sum

variable {f : τ → Nat} {ts : List τ}

@[simp] theorem tally_nil : tally f ([] : List τ) = 0 := rfl

@[simp] theorem tally_append (ts us : List τ) : tally f (ts ++ us) = tally f ts + tally f us := by
  simp [tally]

@[simp] theorem tally_singleton (t : τ) : tally f [t] = f t := by
  simp [tally]

/-- One of the threads goes on. -/
theorem tally_set {i : Nat} {t : τ} (h : ts[i]? = some t) (t' : τ) :
    tally f (ts.set i t') + f t = tally f ts + f t' := by
  obtain ⟨hlt, rfl⟩ := List.getElem?_eq_some_iff.mp h
  have hsplit : ts = ts.take i ++ ts[i] :: ts.drop (i + 1) := by
    rw [List.getElem_cons_drop, List.take_append_drop]
  rw [List.set_eq_take_append_cons_drop, if_pos hlt]
  conv_rhs => rw [hsplit]
  simp only [tally, List.map_append, List.map_cons, List.sum_append, List.sum_cons]
  omega

theorem tally_set_of_eq {i : Nat} {t t' : τ} (h : ts[i]? = some t) (heq : f t' = f t) :
    tally f (ts.set i t') = tally f ts := by
  have hset := tally_set (f := f) h t'
  omega

/-- One of the threads has ended. -/
theorem tally_eraseIdx {i : Nat} {t : τ} (h : ts[i]? = some t) :
    tally f (ts.eraseIdx i) + f t = tally f ts := by
  obtain ⟨hlt, rfl⟩ := List.getElem?_eq_some_iff.mp h
  have hsplit : ts = ts.take i ++ ts[i] :: ts.drop (i + 1) := by
    rw [List.getElem_cons_drop, List.take_append_drop]
  rw [List.eraseIdx_eq_take_drop_succ]
  conv_rhs => rw [hsplit]
  simp only [tally, List.map_append, List.map_cons, List.sum_append, List.sum_cons]
  omega

theorem le_tally {t : τ} (h : t ∈ ts) : f t ≤ tally f ts := by
  obtain ⟨before, behind, rfl⟩ := List.append_of_mem h
  simp only [tally, List.map_append, List.map_cons, List.sum_append, List.sum_cons]
  omega

theorem tally_eq_zero (h : ∀ t ∈ ts, f t = 0) : tally f ts = 0 := by
  induction ts with
  | nil => rfl
  | cons t ts ih =>
    have hrest := ih fun u hu => h u (List.mem_cons_of_mem t hu)
    simp only [tally, List.map_cons, List.sum_cons] at hrest ⊢
    rw [h t List.mem_cons_self, hrest]

theorem exists_of_tally_pos (h : 0 < tally f ts) :
    ∃ (i : Nat) (t : τ), ts[i]? = some t ∧ 0 < f t := by
  by_contra hnone
  refine Nat.ne_of_gt h (tally_eq_zero fun t ht => ?_)
  obtain ⟨i, hi⟩ := List.getElem?_of_mem ht
  by_contra hpos
  exact hnone ⟨i, t, hi, Nat.pos_of_ne_zero hpos⟩

/-- As many as there are threads, if each has one at most. -/
theorem tally_le_length (h : ∀ t ∈ ts, f t ≤ 1) : tally f ts ≤ ts.length := by
  induction ts with
  | nil => exact Nat.le_refl 0
  | cons t ts ih =>
    have hrest := ih fun u hu => h u (List.mem_cons_of_mem t hu)
    have hone := h t List.mem_cons_self
    simp only [tally, List.map_cons, List.sum_cons, List.length_cons] at hrest ⊢
    omega

end Tally

end Cppim.Lib.Threads
