import Mathlib.Data.List.Basic

/-! A `while` loop cut into turns. One turn goes round again, leaves the loop or
faults, and may emit output on the way. `run` follows the turns on a fuel;
`run_halts` says that a measure falling on every further turn bounds the fuel,
so that the loop ends. -/

namespace Cppim.Lib.Loop

variable {σ τ ω ε : Type}

/-- What one turn of the loop does. -/
inductive Turn (σ ω ε : Type) where
  | again (out : List ω) (s : σ)
  | leave (out : List ω) (s : σ)
  | fault (e : ε)
  deriving Repr, DecidableEq

/-- A loop body that can throw. -/
def Turn.ofExcept : Except ε (Turn σ ω ε) → Turn σ ω ε
  | .ok t => t
  | .error e => .fault e

/-- How a loop ends; `spin` is a loop that is still going when the fuel is spent. -/
inductive Outcome (σ ω ε : Type) where
  | done (out : List ω) (s : σ)
  | fault (out : List ω) (e : ε)
  | spin (out : List ω) (s : σ)
  deriving Repr, DecidableEq

/-- Put earlier output in front. -/
def Outcome.emit (o : List ω) : Outcome σ ω ε → Outcome σ ω ε
  | .done out s => .done (o ++ out) s
  | .fault out e => .fault (o ++ out) e
  | .spin out s => .spin (o ++ out) s

/-- Everything emitted before the loop ended, in order. -/
def Outcome.out : Outcome σ ω ε → List ω
  | .done out _ => out
  | .fault out _ => out
  | .spin out _ => out

@[simp] theorem Outcome.out_emit (o : List ω) (x : Outcome σ ω ε) :
    (x.emit o).out = o ++ x.out := by
  cases x <;> rfl

def run (turn : σ → Turn σ ω ε) : Nat → σ → Outcome σ ω ε
  | 0, s => .spin [] s
  | n + 1, s =>
    match turn s with
    | .again o s' => (run turn n s').emit o
    | .leave o s' => .done o s'
    | .fault e => .fault [] e

@[simp] theorem emit_nil (x : Outcome σ ω ε) : x.emit [] = x := by cases x <;> rfl

@[simp] theorem emit_emit (a b : List ω) (x : Outcome σ ω ε) :
    (x.emit b).emit a = x.emit (a ++ b) := by
  cases x <;> simp [Outcome.emit]

theorem run_again {turn : σ → Turn σ ω ε} {n : Nat} {s s' : σ} {o : List ω}
    (h : turn s = .again o s') : run turn (n + 1) s = (run turn n s').emit o := by
  simp [run, h]

theorem run_leave {turn : σ → Turn σ ω ε} {n : Nat} {s s' : σ} {o : List ω}
    (h : turn s = .leave o s') : run turn (n + 1) s = .done o s' := by
  simp [run, h]

theorem run_fault {turn : σ → Turn σ ω ε} {n : Nat} {s : σ} {e : ε}
    (h : turn s = .fault e) : run turn (n + 1) s = .fault [] e := by
  simp [run, h]

/-- A loop that is not still going, and that has left in a state of `P` if it has left. -/
def Outcome.Halts (P : σ → Prop) : Outcome σ ω ε → Prop
  | .done _ s => P s
  | .fault _ _ => True
  | .spin _ _ => False

@[simp] theorem halts_emit (P : σ → Prop) (o : List ω) (x : Outcome σ ω ε) :
    (x.emit o).Halts P ↔ x.Halts P := by
  cases x <;> rfl

theorem Outcome.Halts.ne_spin {P : σ → Prop} {x : Outcome σ ω ε} (h : x.Halts P) (o : List ω)
    (t : σ) : x ≠ .spin o t := by
  rintro rfl
  exact h

/-- **Termination rule.** If every further turn from a state of the invariant keeps it and
lowers a measure, fuel above the measure is enough. -/
theorem run_halts {turn : σ → Turn σ ω ε} {I P : σ → Prop} (μ : σ → Nat)
    (hagain : ∀ s o s', I s → turn s = .again o s' → I s' ∧ μ s' < μ s)
    (hleave : ∀ s o s', I s → turn s = .leave o s' → P s') (n : Nat) (s : σ) (hs : I s)
    (hn : μ s < n) : (run turn n s).Halts P := by
  induction n generalizing s with
  | zero => omega
  | succ n ih =>
    cases h : turn s with
    | again o s' =>
      obtain ⟨hs', hlt⟩ := hagain s o s' hs h
      rw [run_again h, halts_emit]
      exact ih s' hs' (by omega)
    | leave o s' =>
      rw [run_leave h]
      exact hleave s o s' hs h
    | fault e =>
      rw [run_fault h]
      trivial

/-- A measure that falls on every further turn bounds the fuel a loop needs. -/
theorem run_ne_spin (turn : σ → Turn σ ω ε) (μ : σ → Nat)
    (hμ : ∀ s o s', turn s = .again o s' → μ s' < μ s) (n : Nat) (s : σ) (hn : μ s < n) :
    ∀ o t, run turn n s ≠ .spin o t := by
  have hhalts : (run turn n s).Halts fun _ => True :=
    run_halts (I := fun _ => True) μ (fun s o s' _ h => ⟨trivial, hμ s o s' h⟩)
      (fun _ _ _ _ _ => trivial) n s trivial hn
  exact hhalts.ne_spin

/-- `s'` is the state at the start of some turn of the loop entered in `s`. -/
inductive Reached (turn : σ → Turn σ ω ε) (s : σ) : σ → Prop
  | start : Reached turn s s
  | next {s₁ s₂ : σ} {o : List ω} :
      Reached turn s s₁ → turn s₁ = .again o s₂ → Reached turn s s₂

theorem Reached.head {turn : σ → Turn σ ω ε} {s s₁ t : σ} {o : List ω}
    (h : turn s = .again o s₁) (hr : Reached turn s₁ t) : Reached turn s t := by
  induction hr with
  | start => exact .next .start h
  | next _ ht ih => exact .next ih ht

/-- What holds at a reached turn and passes backwards over every turn holds at
the first one. -/
theorem Reached.backward {turn : σ → Turn σ ω ε} {P : σ → Prop} {s t : σ}
    (hr : Reached turn s t) (hback : ∀ s o s', turn s = .again o s' → P s' → P s) (ht : P t) :
    P s := by
  induction hr with
  | start => exact ht
  | next _ h ih => exact ih (hback _ _ _ h ht)

/-- The first turn is the only one, or the rest is reached from the second. -/
theorem reached_iff {turn : σ → Turn σ ω ε} {s t : σ} :
    Reached turn s t ↔ t = s ∨ ∃ o s₁, turn s = .again o s₁ ∧ Reached turn s₁ t := by
  constructor
  · intro h
    induction h with
    | start => exact Or.inl rfl
    | next _ ht ih =>
      rcases ih with rfl | ⟨o, s₁, h₁, hr⟩
      · exact Or.inr ⟨_, _, ht, .start⟩
      · exact Or.inr ⟨o, s₁, h₁, .next hr ht⟩
  · rintro (rfl | ⟨o, s₁, h₁, hr⟩)
    · exact .start
    · exact hr.head h₁

/-- A loop that ends returns normally exactly when no turn it reaches faults. -/
theorem run_done_iff (turn : σ → Turn σ ω ε) (μ : σ → Nat)
    (hμ : ∀ s o s', turn s = .again o s' → μ s' < μ s) (n : Nat) (s : σ) (hn : μ s < n) :
    (∃ o t, run turn n s = .done o t) ↔ ∀ t, Reached turn s t → ∀ e, turn t ≠ .fault e := by
  induction n generalizing s with
  | zero => omega
  | succ n ih =>
    cases h : turn s with
    | again o s₁ =>
      have hlt := hμ s o s₁ h
      have hdone : (∃ o t, run turn (n + 1) s = .done o t) ↔
          ∃ o t, run turn n s₁ = .done o t := by
        rw [run_again h]
        cases run turn n s₁ <;> simp [Outcome.emit]
      rw [hdone, ih s₁ (by omega)]
      constructor
      · intro hs t ht e
        rcases reached_iff.mp ht with rfl | ⟨_, _, h', hr⟩
        · simp [h]
        · cases h.symm.trans h'
          exact hs t hr e
      · exact fun hs t ht e => hs t (ht.head h) e
    | leave o s₁ =>
      refine iff_of_true ⟨o, s₁, run_leave h⟩ fun t ht e => ?_
      rcases reached_iff.mp ht with rfl | ⟨_, _, h', _⟩
      · simp [h]
      · simp [h] at h'
    | fault e =>
      refine iff_of_false ?_ fun hs => hs s .start e h
      rintro ⟨o, t, hr⟩
      simp [run_fault h] at hr

/-! ## Another view of the state -/

def Turn.map (f : σ → τ) : Turn σ ω ε → Turn τ ω ε
  | .again o s => .again o (f s)
  | .leave o s => .leave o (f s)
  | .fault e => .fault e

def Outcome.map (f : σ → τ) : Outcome σ ω ε → Outcome τ ω ε
  | .done o s => .done o (f s)
  | .fault o e => .fault o e
  | .spin o s => .spin o (f s)

theorem map_emit (f : σ → τ) (o : List ω) (x : Outcome σ ω ε) :
    (x.emit o).map f = (x.map f).emit o := by
  cases x <;> rfl

@[simp] theorem out_map (f : σ → τ) (x : Outcome σ ω ε) : (x.map f).out = x.out := by
  cases x <;> rfl

theorem map_eq_done {f : σ → τ} {x : Outcome σ ω ε} {o : List ω} {t : τ}
    (h : x.map f = .done o t) : ∃ s, x = .done o s ∧ f s = t := by
  cases x with
  | done o' s =>
    cases h
    exact ⟨s, rfl, rfl⟩
  | fault o' e => cases h
  | spin o' s => cases h

/-- A loop whose turns agree with those of another one through a view of the
state runs as that one does. -/
theorem run_map {turn : σ → Turn σ ω ε} {turn' : τ → Turn τ ω ε} {view : σ → τ}
    (h : ∀ s, (turn s).map view = turn' (view s)) (n : Nat) (s : σ) :
    (run turn n s).map view = run turn' n (view s) := by
  induction n generalizing s with
  | zero => rfl
  | succ n ih =>
    have hs := h s
    cases ht : turn s with
    | again o s' =>
      rw [ht] at hs
      rw [run_again ht, run_again hs.symm, map_emit, ih]
    | leave o s' =>
      rw [ht] at hs
      rw [run_leave ht, run_leave hs.symm]
      rfl
    | fault e =>
      rw [ht] at hs
      rw [run_fault ht, run_fault hs.symm]
      rfl

/-! ## Where a loop ends -/

/-- The loop entered in `s` leaves with the output `o` in `t`. -/
inductive Ends (turn : σ → Turn σ ω ε) : σ → List ω → σ → Prop
  | leave {s t : σ} {o : List ω} : turn s = .leave o t → Ends turn s o t
  | again {s s' t : σ} {o o' : List ω} : turn s = .again o s' → Ends turn s' o' t →
      Ends turn s (o ++ o') t

theorem ends_of_run {turn : σ → Turn σ ω ε} {n : Nat} {s t : σ} {o : List ω}
    (h : run turn n s = .done o t) : Ends turn s o t := by
  induction n generalizing s o with
  | zero => cases h
  | succ n ih =>
    cases ht : turn s with
    | again o' s' =>
      rw [run_again ht] at h
      cases hr : run turn n s' with
      | done o'' t' =>
        rw [hr] at h
        cases h
        exact .again ht (ih hr)
      | fault o'' e => simp [hr, Outcome.emit] at h
      | spin o'' t' => simp [hr, Outcome.emit] at h
    | leave o' s' =>
      rw [run_leave ht] at h
      cases h
      exact .leave ht
    | fault e => simp [run_fault ht] at h

/-- A loop that faults does so in some turn. -/
theorem exists_fault_of_run {turn : σ → Turn σ ω ε} {n : Nat} {s : σ} {o : List ω} {e : ε}
    (h : run turn n s = .fault o e) : ∃ t, turn t = .fault e := by
  induction n generalizing s o with
  | zero => cases h
  | succ n ih =>
    cases ht : turn s with
    | again o' s' =>
      rw [run_again ht] at h
      cases hr : run turn n s' with
      | done o'' t => simp [hr, Outcome.emit] at h
      | fault o'' e' =>
        rw [hr] at h
        cases h
        exact ih hr
      | spin o'' t => simp [hr, Outcome.emit] at h
    | leave o' s' => simp [run_leave ht] at h
    | fault e' =>
      rw [run_fault ht] at h
      cases h
      exact ⟨s, ht⟩

theorem ends_of_leave {turn : σ → Turn σ ω ε} {s t t' : σ} {o o' : List ω}
    (hs : turn s = .leave o t) (h : Ends turn s o' t') : o' = o ∧ t' = t := by
  cases h with
  | leave ht =>
    rw [hs] at ht
    cases ht
    exact ⟨rfl, rfl⟩
  | again ht _ => simp [hs] at ht

/-- A turn that changes nothing is repeated for ever. -/
theorem not_ends_of_still {turn : σ → Turn σ ω ε} {s t : σ} {o o' : List ω}
    (hs : turn s = .again o s) : ¬ Ends turn s o' t := by
  intro h
  induction h with
  | leave ht => simp [hs] at ht
  | again ht _ ih =>
    rw [hs] at ht
    cases ht
    exact ih hs

theorem run_of_still {turn : σ → Turn σ ω ε} {s : σ} (hs : turn s = .again [] s) (n : Nat) :
    run turn n s = .spin [] s := by
  induction n with
  | zero => rfl
  | succ n ih => rw [run_again hs, ih, emit_nil]

/-- Fuel above a measure that falls on every turn that moves is enough for a
loop that ends. -/
theorem run_of_ends {turn : σ → Turn σ ω ε} {μ : σ → Nat}
    (hμ : ∀ s o s', turn s = .again o s' → μ s' < μ s ∨ s' = s) {s t : σ} {o : List ω}
    (h : Ends turn s o t) (n : Nat) (hn : μ s < n) : run turn n s = .done o t := by
  induction h generalizing n with
  | leave ht =>
    obtain ⟨n, rfl⟩ : ∃ m, n = m + 1 := ⟨n - 1, by omega⟩
    exact run_leave ht
  | again ht hrest ih =>
    obtain ⟨n, rfl⟩ : ∃ m, n = m + 1 := ⟨n - 1, by omega⟩
    rcases hμ _ _ _ ht with hlt | rfl
    · rw [run_again ht, ih n (by omega)]
      rfl
    · exact absurd hrest (not_ends_of_still ht)

end Cppim.Lib.Loop
