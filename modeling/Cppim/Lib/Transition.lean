import Mathlib.Order.Lattice

/-! Runs of a partial labelled transition function, and the rule that carries an
invariant along a run. A label that is not enabled gives `none`, so a run is a
list of labels each of which was enabled when it was taken. -/

namespace Cppim.Lib.Transition

variable {σ ℓ : Type}

/-- Follow a list of labels from a state. -/
def run (step : σ → ℓ → Option σ) : σ → List ℓ → Option σ
  | s, [] => some s
  | s, l :: ls => (step s l).bind fun s' => run step s' ls

/-- Every label of the run meets `G` in the state in which it is taken. -/
def Guarded (step : σ → ℓ → Option σ) (G : σ → ℓ → Prop) : σ → List ℓ → Prop
  | _, [] => True
  | s, l :: ls => G s l ∧ ∀ s', step s l = some s' → Guarded step G s' ls

variable {step : σ → ℓ → Option σ} {G : σ → ℓ → Prop}

/-- Whether a run is guarded is found by following it. -/
instance Guarded.decidable [∀ s l, Decidable (G s l)] :
    ∀ (s : σ) (ls : List ℓ), Decidable (Guarded step G s ls)
  | _, [] => isTrue trivial
  | s, l :: ls =>
    match h : step s l with
    | none => decidable_of_iff (G s l) (by simp [Guarded, h])
    | some s' =>
      have := Guarded.decidable s' ls
      decidable_of_iff (G s l ∧ Guarded step G s' ls) (by simp [Guarded, h])

@[simp] theorem run_nil (s : σ) : run step s [] = some s := rfl

theorem run_cons_eq_some (s t : σ) (l : ℓ) (ls : List ℓ) :
    run step s (l :: ls) = some t ↔ ∃ s', step s l = some s' ∧ run step s' ls = some t := by
  simp [run, Option.bind_eq_some_iff]

theorem run_append (s : σ) (as bs : List ℓ) :
    run step s (as ++ bs) = (run step s as).bind fun s' => run step s' bs := by
  induction as generalizing s with
  | nil => rfl
  | cons l as ih => simp [run, ih, Option.bind_assoc]

theorem run_append_of (s t : σ) (as bs : List ℓ) (h : run step s as = some t) :
    run step s (as ++ bs) = run step t bs := by
  rw [run_append, h, Option.bind_some]

/-- **Invariant rule.** What holds initially and is kept by every step that
meets the guard holds at the end of every guarded run. -/
theorem run_invariant {I : σ → Prop}
    (hstep : ∀ s l s', I s → G s l → step s l = some s' → I s')
    (ls : List ℓ) (s t : σ) (hs : I s) (hg : Guarded step G s ls)
    (hr : run step s ls = some t) : I t := by
  induction ls generalizing s with
  | nil =>
    simp only [run_nil, Option.some.injEq] at hr
    exact hr ▸ hs
  | cons l ls ih =>
    obtain ⟨s', hl, hr'⟩ := (run_cons_eq_some s t l ls).mp hr
    exact ih s' (hstep s l s' hs hg.1 hl) (hg.2 s' hl) hr'

theorem guarded_append (s : σ) (as bs : List ℓ) (ha : Guarded step G s as)
    (hb : ∀ t, run step s as = some t → Guarded step G t bs) : Guarded step G s (as ++ bs) := by
  induction as generalizing s with
  | nil => exact hb s rfl
  | cons l as ih =>
    refine ⟨ha.1, fun s' hs => ih s' (ha.2 s' hs) fun t ht => hb t ?_⟩
    exact (run_cons_eq_some s t l as).mpr ⟨s', hs, ht⟩

/-- Labels that meet the guard in every state need no look at the run. -/
theorem guarded_of_forall (ls : List ℓ) (s : σ) (h : ∀ l ∈ ls, ∀ s, G s l) :
    Guarded step G s ls := by
  induction ls generalizing s with
  | nil => trivial
  | cons l ls ih =>
    exact ⟨h l (by simp) s, fun s' _ => ih s' fun l' hl' => h l' (by simp [hl'])⟩

/-- A run is guarded if the guard holds wherever the run passes. -/
theorem guarded_of_states (ls : List ℓ) (s : σ)
    (h : ∀ as l bs u, ls = as ++ l :: bs → run step s as = some u → G u l) :
    Guarded step G s ls := by
  induction ls generalizing s with
  | nil => trivial
  | cons l ls ih =>
    refine ⟨h [] l ls s rfl rfl, fun s' hs => ih s' ?_⟩
    intro as l' bs u he hu
    apply h (l :: as) l' bs u (by simp [he])
    exact (run_cons_eq_some s u l as).mpr ⟨s', hs, hu⟩

/-- The invariant rule for a property that every step keeps. -/
theorem run_kept {I : σ → Prop} (hstep : ∀ s l s', I s → step s l = some s' → I s')
    (ls : List ℓ) (s t : σ) (hs : I s) (hr : run step s ls = some t) : I t := by
  apply run_invariant (G := fun _ _ => True) _ ls s t hs _ hr
  · intro s l s' hi _ hl
    exact hstep s l s' hi hl
  · exact guarded_of_forall ls s fun _ _ _ => trivial

/-- The invariant rule for what holds of a state and the labels that led to it. -/
theorem run_traced {I : List ℓ → σ → Prop} {init : σ} (ls : List ℓ)
    (hstep : ∀ as l bs s s', ls = as ++ l :: bs → I as s → step s l = some s' → I (as ++ [l]) s')
    (t : σ) (hinit : I [] init) (hr : run step init ls = some t) : I ls t := by
  -- the induction is on the labels that are still to come
  have hgo : ∀ bs as s, ls = as ++ bs → I as s → run step s bs = some t → I ls t := by
    intro bs
    induction bs with
    | nil =>
      intro as s he hs hr
      cases hr
      rw [he, List.append_nil]
      exact hs
    | cons l bs ih =>
      intro as s he hs hr
      obtain ⟨s', hl, hr'⟩ := (run_cons_eq_some s t l bs).mp hr
      exact ih (as ++ [l]) s' (by simp [he]) (hstep as l bs s s' he hs hl) hr'
  exact hgo ls [] init rfl hinit hr

/-- A run of labels that all make a measure smaller is no longer than the measure. -/
theorem run_length_le {P : ℓ → Prop} (m : σ → Nat)
    (hstep : ∀ s l s', P l → step s l = some s' → m s' < m s)
    (ls : List ℓ) (s t : σ) (hP : ∀ l ∈ ls, P l) (hr : run step s ls = some t) :
    ls.length + m t ≤ m s := by
  induction ls generalizing s with
  | nil =>
    cases hr
    simp
  | cons l ls ih =>
    obtain ⟨s', hl, hr'⟩ := (run_cons_eq_some s t l ls).mp hr
    have hless := hstep s l s' (hP l List.mem_cons_self) hl
    have hrest := ih s' (fun l' hl' => hP l' (List.mem_cons_of_mem l hl')) hr'
    rw [List.length_cons]
    omega

/-- **Simulation rule.** A guarded run is followed by a machine that sees some of its
labels, as `view` shows them, and none of the others. -/
theorem run_simulates {α ε : Type} {after : α → ε → α} {view : ℓ → Option ε}
    {R : σ → α → Prop}
    (hstep : ∀ s l s' a, R s a → G s l → step s l = some s' →
      R s' ((view l).elim a (after a)))
    (ls : List ℓ) (s t : σ) (a : α) (hs : R s a) (hg : Guarded step G s ls)
    (hr : run step s ls = some t) : R t ((ls.filterMap view).foldl after a) := by
  induction ls generalizing s a with
  | nil =>
    cases hr
    exact hs
  | cons l ls ih =>
    obtain ⟨s', hl, hr'⟩ := (run_cons_eq_some s t l ls).mp hr
    have hs' := hstep s l s' a hs hg.1 hl
    have ht := ih s' _ hs' (hg.2 s' hl) hr'
    cases hv : view l with
    | none => simpa [hv] using ht
    | some e => simpa [hv] using ht

/-- What a run shows, if what a label shows depends on the state in which it is taken. -/
def shown {ε : Type} (step : σ → ℓ → Option σ) (view : σ → ℓ → Option ε) : σ → List ℓ → List ε
  | _, [] => []
  | s, l :: ls => (view s l).toList ++ (step s l).elim [] fun s' => shown step view s' ls

/-- The simulation rule for a machine that sees what the run shows. -/
theorem run_simulates_shown {α ε : Type} {after : α → ε → α} {view : σ → ℓ → Option ε}
    {R : σ → α → Prop}
    (hstep : ∀ s l s' a, R s a → G s l → step s l = some s' →
      R s' ((view s l).elim a (after a)))
    (ls : List ℓ) (s t : σ) (a : α) (hs : R s a) (hg : Guarded step G s ls)
    (hr : run step s ls = some t) : R t ((shown step view s ls).foldl after a) := by
  induction ls generalizing s a with
  | nil =>
    cases hr
    exact hs
  | cons l ls ih =>
    obtain ⟨s', hl, hr'⟩ := (run_cons_eq_some s t l ls).mp hr
    have hs' := hstep s l s' a hs hg.1 hl
    have ht := ih s' _ hs' (hg.2 s' hl) hr'
    cases hv : view s l with
    | none => simpa [shown, hl, hv] using ht
    | some e => simpa [shown, hl, hv] using ht

/-! ## The states that a run passes -/

theorem always_nil {P : σ → Prop} (s : σ) :
    (∀ as bs u, [] = as ++ bs → run step s as = some u → P u) ↔ P s := by
  constructor
  · intro h
    exact h [] [] s rfl rfl
  · intro h as bs u he hu
    obtain ⟨rfl, -⟩ := List.append_eq_nil_iff.mp he.symm
    cases hu
    exact h

/-- The states of a run are the first one and those of the rest. -/
theorem always_cons {P : σ → Prop} {s s' : σ} {l : ℓ} (hl : step s l = some s') (ls : List ℓ) :
    (∀ as bs u, l :: ls = as ++ bs → run step s as = some u → P u) ↔
      P s ∧ ∀ as bs u, ls = as ++ bs → run step s' as = some u → P u := by
  constructor
  · intro h
    refine ⟨h [] (l :: ls) s rfl rfl, fun as bs u he hu => h (l :: as) bs u (by simp [he]) ?_⟩
    exact (run_cons_eq_some s u l as).mpr ⟨s', hl, hu⟩
  · rintro ⟨hs, h⟩ as bs u he hu
    cases as with
    | nil =>
      cases hu
      exact hs
    | cons a as =>
      simp only [List.cons_append, List.cons.injEq] at he
      obtain ⟨rfl, he⟩ := he
      obtain ⟨s'', hl', hu'⟩ := (run_cons_eq_some s u l as).mp hu
      rw [hl] at hl'
      cases hl'
      exact h as bs u he hu'

/-- Among the states of a run one is the highest. -/
theorem run_exists_max {α : Type} [LinearOrder α] (f : σ → α) (ls : List ℓ) (s t : σ)
    (hr : run step s ls = some t) :
    ∃ as bs u, ls = as ++ bs ∧ run step s as = some u ∧
      ∀ as' bs' u', ls = as' ++ bs' → run step s as' = some u' → f u' ≤ f u := by
  induction ls generalizing s with
  | nil => exact ⟨[], [], s, rfl, rfl, (always_nil s).mpr (le_refl _)⟩
  | cons l ls ih =>
    obtain ⟨s', hl, hr'⟩ := (run_cons_eq_some s t l ls).mp hr
    obtain ⟨as, bs, u, he, hu, hmax⟩ := ih s' hr'
    rcases le_total (f s) (f u) with hle | hle
    · refine ⟨l :: as, bs, u, by simp [he], ?_, (always_cons hl ls).mpr ⟨hle, hmax⟩⟩
      exact (run_cons_eq_some s u l as).mpr ⟨s', hl, hu⟩
    · refine ⟨[], l :: ls, s, rfl, rfl, (always_cons hl ls).mpr ⟨le_refl _, ?_⟩⟩
      intro as' bs' u' he' hu'
      exact le_trans (hmax as' bs' u' he' hu') hle

/-- **Exact guard.** If the guard decides of every step, taken in a state of the
invariant, whether it keeps the invariant or ends outside of `P`, then `P` holds
in every state of a run exactly if the run is guarded. The labels of the run may be
known to meet a condition `A` of their own. -/
theorem always_iff_guarded_of {I P : σ → Prop} {A : σ → ℓ → Prop} (hP : ∀ s, I s → P s)
    (hstep : ∀ s l s', I s → A s l → step s l = some s' →
      (G s l ∧ I s') ∨ (¬ G s l ∧ ¬ P s'))
    (ls : List ℓ) (s t : σ) (hs : I s) (ha : Guarded step A s ls) (hr : run step s ls = some t) :
    (∀ as bs u, ls = as ++ bs → run step s as = some u → P u) ↔ Guarded step G s ls := by
  induction ls generalizing s with
  | nil => exact iff_of_true ((always_nil s).mpr (hP s hs)) trivial
  | cons l ls ih =>
    obtain ⟨s', hl, hr'⟩ := (run_cons_eq_some s t l ls).mp hr
    rw [always_cons hl ls]
    rcases hstep s l s' hs ha.1 hl with ⟨hg, hs'⟩ | ⟨hg, hp⟩
    · have hrest := ih s' hs' (ha.2 s' hl) hr'
      constructor
      · rintro ⟨-, h⟩
        refine ⟨hg, fun u hu => ?_⟩
        rw [hl] at hu
        cases hu
        exact hrest.mp h
      · intro h
        exact ⟨hP s hs, hrest.mpr (h.2 s' hl)⟩
    · refine iff_of_false (fun h => hp ?_) fun h => hg h.1
      exact h.2 [] ls s' rfl rfl

/-- The exact guard of runs of any labels. -/
theorem always_iff_guarded {I P : σ → Prop} (hP : ∀ s, I s → P s)
    (hstep : ∀ s l s', I s → step s l = some s' → (G s l ∧ I s') ∨ (¬ G s l ∧ ¬ P s'))
    (ls : List ℓ) (s t : σ) (hs : I s) (hr : run step s ls = some t) :
    (∀ as bs u, ls = as ++ bs → run step s as = some u → P u) ↔ Guarded step G s ls := by
  apply always_iff_guarded_of (A := fun _ _ => True) hP _ ls s t hs _ hr
  · intro s l s' hi _ hl
    exact hstep s l s' hi hl
  · exact guarded_of_forall ls s fun _ _ _ => trivial

/-- What a step cannot repair cannot be repaired by a run. -/
theorem run_back {Q : σ → Prop} (hback : ∀ s l s', step s l = some s' → Q s' → Q s)
    (ls : List ℓ) (s t : σ) (hr : run step s ls = some t) (ht : Q t) : Q s := by
  induction ls generalizing s with
  | nil =>
    cases hr
    exact ht
  | cons l ls ih =>
    obtain ⟨s', hl, hr'⟩ := (run_cons_eq_some s t l ls).mp hr
    exact hback s l s' hl (ih s' hr')

/-- A guard against something that cannot be repaired is met along the run exactly if it
is not there at the end. `I` is what is known of all states. -/
theorem guarded_iff_at_end {I Q : σ → Prop}
    (hkept : ∀ s l s', I s → step s l = some s' → I s')
    (hback : ∀ s l s', step s l = some s' → Q s' → Q s)
    (hG : ∀ s l s', I s → Q s → step s l = some s' → (G s l ↔ Q s'))
    (ls : List ℓ) (s t : σ) (hi : I s) (hs : Q s) (hr : run step s ls = some t) :
    Guarded step G s ls ↔ Q t := by
  induction ls generalizing s with
  | nil =>
    cases hr
    exact iff_of_true trivial hs
  | cons l ls ih =>
    obtain ⟨s', hl, hr'⟩ := (run_cons_eq_some s t l ls).mp hr
    have hi' := hkept s l s' hi hl
    constructor
    · rintro ⟨hg, hrest⟩
      exact (ih s' hi' ((hG s l s' hi hs hl).mp hg) hr').mp (hrest s' hl)
    · intro ht
      have hs' : Q s' := run_back hback ls s' t hr' ht
      refine ⟨(hG s l s' hi hs hl).mpr hs', fun u hu => ?_⟩
      rw [hl] at hu
      cases hu
      exact (ih s' hi' hs' hr').mpr ht

/-! ## Steps that fail or answer -/

section Answers

variable {ε ω α : Type}

/-- Follow a list of labels with a machine that answers each of them, up to the first
failure. -/
def exec (step : σ → ℓ → Except ε (σ × ω)) : σ → List ℓ → Except ε (σ × List ω)
  | s, [] => .ok (s, [])
  | s, l :: ls =>
    match step s l with
    | .error e => .error e
    | .ok (s', o) =>
      match exec step s' ls with
      | .error e => .error e
      | .ok (t, os) => .ok (t, o :: os)

/-- The state behind a step that does not fail. -/
def landed (step : σ → ℓ → Except ε (σ × ω)) (s : σ) (l : ℓ) : Option σ :=
  match step s l with
  | .ok (s', _) => some s'
  | .error _ => none

/-- Follow a list of labels with a machine that never fails. -/
def follow (after : α → ℓ → α × ω) : α → List ℓ → α × List ω
  | a, [] => (a, [])
  | a, l :: ls =>
    let rest := follow after (after a l).1 ls
    (rest.1, (after a l).2 :: rest.2)

/-- **Refinement rule.** If every guarded step succeeds and shows what the abstract
machine does, so does every guarded run, answers included. -/
theorem exec_refines {step : σ → ℓ → Except ε (σ × ω)} {after : α → ℓ → α × ω} (abs : σ → α)
    (hstep : ∀ s l, G s l → ∃ s' o, step s l = .ok (s', o) ∧ after (abs s) l = (abs s', o))
    (ls : List ℓ) (s : σ) (hg : Guarded (landed step) G s ls) :
    ∃ t os, exec step s ls = .ok (t, os) ∧ follow after (abs s) ls = (abs t, os) := by
  induction ls generalizing s with
  | nil => exact ⟨s, [], rfl, rfl⟩
  | cons l ls ih =>
    obtain ⟨s', o, hs, ha⟩ := hstep s l hg.1
    obtain ⟨t, os, ht, hf⟩ := ih s' (hg.2 s' (by simp only [landed, hs]))
    exact ⟨t, o :: os, by simp only [exec, hs, ht], by simp only [follow, ha, hf]⟩

end Answers

end Cppim.Lib.Transition
