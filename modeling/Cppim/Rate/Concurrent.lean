import Cppim.Lib.Ticket
import Cppim.Lib.Transition
import Cppim.Rate.Vegas
import Mathlib.Algebra.Order.Ring.Int

/-! `Limiter::Allow` and the closures that it returns, called by any number of threads.

A label is one atomic step: an access to `inFlight_`, the comparison with `limit_`, a step
on a sample, the section under the mutex. `run_acquire` and `run_done` say that the steps
of one thread, taken without interruption, are `Acquire` and the closure of
`Cppim.Rate.Vegas`. -/

namespace Cppim.Rate.Concurrent

open Cppim.Lib.Ticket Cppim.Lib.Transition

/-! ## The threads -/

/-- Where a caller of `Allow` stands. -/
inductive Pc where
  /-- behind `++inFlight_` -/
  | entered
  /-- the comparison has failed, and the closure is going to be called with `Ignore` -/
  | refused
  /-- `Allow` has returned the closure, with `start` in it -/
  | admitted (start : Int)
  deriving Repr, DecidableEq

/-- A caller whose increment of `inFlight_` is not undone, with what it returned. -/
structure Caller where
  inFlight : Int
  pc : Pc := .entered
  deriving Repr, DecidableEq

def Caller.isAdmitted (c : Caller) : Bool :=
  match c.pc with
  | .admitted _ => true
  | _ => false

/-- Where a closure stands behind its decrement. `s` is the sample that it took. -/
inductive Stage where
  | take
  | add (s : Nat)
  | check (s : Nat)
  | lock (s : Nat)
  deriving Repr, DecidableEq

/-- A closure behind its decrement, with its variables. -/
structure Closing where
  inFlight : Int
  start : Int
  op : Op
  end_ : Int
  stage : Stage := .take
  deriving Repr, DecidableEq

/-- The samples are numbered in the order in which they were made; the last one is
`vegas.sample_`. -/
structure State where
  vegas : Vegas := {}
  /-- the samples that were replaced -/
  retired : List Sample := []
  /-- in the order of their increments -/
  callers : List Caller := []
  closing : List Closing := []
  deriving Repr, DecidableEq

namespace State

/-- What the pointer `s` points to. -/
def sample (st : State) (s : Nat) : Sample := st.retired.getD s st.vegas.sample_

def setSample (st : State) (s : Nat) (sample : Sample) : State :=
  if s < st.retired.length then { st with retired := st.retired.set s sample }
  else { st with vegas := { st.vegas with sample_ := sample } }

/-- The admitted requests that are not done. -/
def admitted (st : State) : Nat := st.callers.countP Caller.isAdmitted

end State

inductive Label where
  /-- `++inFlight_` -/
  | enter
  /-- `inFlight <= limit_.load()`; `start` is the clock behind it -/
  | compare (i : Nat) (start : Int)
  /-- `res.first(0, Ignore)` of a refused caller -/
  | refuse (i : Nat)
  /-- an admitted caller calls its closure, up to `rtt` -/
  | done (i : Nat) (op : Op) (end_ : Int)
  /-- `auto s = sample_` -/
  | take (j : Nat)
  /-- `s->Add` -/
  | add (j : Nat)
  /-- `end > updateTime_.load() && s->Count() >= 16` -/
  | check (j : Nat)
  /-- the section under the mutex -/
  | update (j : Nat) (rand : Int)
  deriving Repr, DecidableEq

def step (d : Doubles) (st : State) : Label → Option State
  | .enter =>
    some { st with
      vegas := { st.vegas with inFlight_ := st.vegas.inFlight_ + 1 }
      callers := st.callers ++ [{ inFlight := st.vegas.inFlight_ + 1 }] }
  | .compare i start =>
    match st.callers[i]? with
    | some ⟨inFlight, .entered⟩ =>
      let pc := if inFlight ≤ st.vegas.limit_ then .admitted start else .refused
      some { st with callers := st.callers.set i ⟨inFlight, pc⟩ }
    | _ => none
  | .refuse i =>
    match st.callers[i]? with
    | some ⟨_, .refused⟩ =>
      some { st with
        vegas := { st.vegas with inFlight_ := st.vegas.inFlight_ - 1 }
        callers := st.callers.eraseIdx i }
    | _ => none
  | .done i op end_ =>
    match st.callers[i]? with
    | some ⟨inFlight, .admitted start⟩ =>
      let rest := if op = .Ignore then [] else [{ inFlight, start, op, end_ }]
      some { st with
        vegas := { st.vegas with inFlight_ := st.vegas.inFlight_ - 1 }
        callers := st.callers.eraseIdx i
        closing := st.closing ++ rest }
    | _ => none
  | .take j =>
    match st.closing[j]? with
    | some ⟨inFlight, start, op, end_, .take⟩ =>
      let s := st.retired.length
      some { st with closing := st.closing.set j ⟨inFlight, start, op, end_, .add s⟩ }
    | _ => none
  | .add j =>
    match st.closing[j]? with
    | some ⟨inFlight, start, op, end_, .add s⟩ =>
      let sample := (st.sample s).Add (end_ - start) inFlight (op = .Drop)
      some { st.setSample s sample with
        closing := st.closing.set j ⟨inFlight, start, op, end_, .check s⟩ }
    | _ => none
  | .check j =>
    match st.closing[j]? with
    | some ⟨inFlight, start, op, end_, .check s⟩ =>
      if st.vegas.updateTime_ < end_ ∧ 16 ≤ (st.sample s).count_ then
        some { st with closing := st.closing.set j ⟨inFlight, start, op, end_, .lock s⟩ }
      else some { st with closing := st.closing.eraseIdx j }
    | _ => none
  | .update j rand =>
    match st.closing[j]? with
    | some ⟨_, _, _, end_, .lock s⟩ =>
      -- `sample_ != s`: another thread has replaced the sample
      if s = st.retired.length then
        some { st with
          vegas := Vegas.update d st.vegas st.vegas.sample_ end_ rand
          retired := st.retired ++ [st.vegas.sample_]
          closing := st.closing.eraseIdx j }
      else some { st with closing := st.closing.eraseIdx j }
    | _ => none

/-! ## One thread alone -/

/-- `Acquire`: the increment and the comparison. -/
theorem run_acquire (d : Doubles) (st : State) (start : Int) :
    run (step d) st [.enter, .compare st.callers.length start] = some { st with
      vegas := st.vegas.Acquire.1
      callers := st.callers ++ [⟨st.vegas.Acquire.2.1,
        if st.vegas.Acquire.2.2 then .admitted start else .refused⟩] } := by
  simp [run, step, Vegas.Acquire]

theorem sample_current (st : State) : st.sample st.retired.length = st.vegas.sample_ := by
  simp [State.sample]

theorem setSample_current (st : State) (sample : Sample) :
    st.setSample st.retired.length sample =
      { st with vegas := { st.vegas with sample_ := sample } } := by
  simp [State.setSample]

/-- A closure up to the test that the sample is full. -/
theorem run_add (d : Doubles) (st : State) (i : Nat) (inFlight start : Int) (op : Op) (end_ : Int)
    (hi : st.callers[i]? = some ⟨inFlight, .admitted start⟩) (hclosing : st.closing = [])
    (hop : op ≠ .Ignore) :
    ∃ st', run (step d) st [.done i op end_, .take 0, .add 0] = some st' ∧
      st'.vegas = { st.vegas with
        inFlight_ := st.vegas.inFlight_ - 1
        sample_ := st.vegas.sample_.Add (end_ - start) inFlight (op = .Drop) } ∧
      st'.callers = st.callers.eraseIdx i ∧
      st'.closing = [⟨inFlight, start, op, end_, .check st'.retired.length⟩] := by
  let taken : State := { st with
    vegas := { st.vegas with inFlight_ := st.vegas.inFlight_ - 1 }
    callers := st.callers.eraseIdx i
    closing := [⟨inFlight, start, op, end_, .add st.retired.length⟩] }
  have htaken : run (step d) st [.done i op end_, .take 0] = some taken := by
    simp [run, step, hi, hclosing, hop, taken]
  have hadd : step d taken (.add 0) = some { taken.setSample taken.retired.length
      ((taken.sample taken.retired.length).Add (end_ - start) inFlight (op = .Drop)) with
      closing := [⟨inFlight, start, op, end_, .check st.retired.length⟩] } := rfl
  rw [sample_current, setSample_current] at hadd
  have hrun := (run_append_of _ _ _ [.add 0] htaken).trans
    ((run_cons_eq_some _ _ _ _).mpr ⟨_, hadd, rfl⟩)
  exact ⟨_, hrun, rfl, rfl, rfl⟩

/-- The rest of a closure that runs alone: the test, and the update if it succeeds. -/
theorem run_check (d : Doubles) (st : State) (inFlight start : Int) (op : Op) (end_ rand : Int)
    (hclosing : st.closing = [⟨inFlight, start, op, end_, .check st.retired.length⟩]) :
    ∃ ls st', run (step d) st ls = some st' ∧
      st'.vegas = (if st.vegas.updateTime_ < end_ ∧ 16 ≤ st.vegas.sample_.count_ then
        Vegas.update d st.vegas st.vegas.sample_ end_ rand else st.vegas) ∧
      st'.callers = st.callers ∧ st'.closing = [] := by
  by_cases hfull : st.vegas.updateTime_ < end_ ∧ 16 ≤ st.vegas.sample_.count_
  · rw [if_pos hfull]
    refine ⟨[.check 0, .update 0 rand], { st with
      vegas := Vegas.update d st.vegas st.vegas.sample_ end_ rand
      retired := st.retired ++ [st.vegas.sample_]
      closing := [] }, ?_, rfl, rfl, rfl⟩
    simp [run, step, hclosing, sample_current, hfull]
  · rw [if_neg hfull]
    refine ⟨[.check 0], { st with closing := [] }, ?_, rfl, rfl, rfl⟩
    simp [run, step, hclosing, sample_current, hfull]

/-- The closure of an admitted caller, called while no other closure is running. -/
theorem run_done (d : Doubles) (st : State) (i : Nat) (inFlight start : Int) (op : Op)
    (end_ rand : Int) (hi : st.callers[i]? = some ⟨inFlight, .admitted start⟩)
    (hclosing : st.closing = []) :
    ∃ ls st', run (step d) st (.done i op end_ :: ls) = some st' ∧
      st'.vegas = Vegas.done d st.vegas inFlight start op end_ rand ∧
      st'.callers = st.callers.eraseIdx i ∧ st'.closing = [] := by
  by_cases hop : op = .Ignore
  · exact ⟨[], _, by simp [run, step, hi, hclosing, hop]; rfl, by simp [Vegas.done, hop], rfl, rfl⟩
  · obtain ⟨st₁, hadd, hvegas₁, hcallers₁, hclosing₁⟩ :=
      run_add d st i inFlight start op end_ hi hclosing hop
    obtain ⟨ls, st', hrun, hvegas, hcallers, hnone⟩ :=
      run_check d st₁ inFlight start op end_ rand hclosing₁
    refine ⟨.take 0 :: .add 0 :: ls, st', (run_append_of _ _ _ ls hadd).trans hrun, ?_,
      hcallers.trans hcallers₁, hnone⟩
    rw [hvegas, hvegas₁, Vegas.done, if_neg hop]

/-! ## What a step does to the callers -/

/-- The ways in which a step moves `inFlight_` and the callers. -/
inductive Moves (st st' : State) : Prop
  | enter (hin : st'.vegas.inFlight_ = st.vegas.inFlight_ + 1)
      (hcallers : st'.callers = st.callers ++ [⟨st.vegas.inFlight_ + 1, .entered⟩])
  | compare (i : Nat) (inFlight : Int) (pc : Pc)
      (hi : st.callers[i]? = some ⟨inFlight, .entered⟩)
      (hin : st'.vegas.inFlight_ = st.vegas.inFlight_)
      (hcallers : st'.callers = st.callers.set i ⟨inFlight, pc⟩)
      (hpc : (⟨inFlight, pc⟩ : Caller).isAdmitted = true → inFlight ≤ st.vegas.limit_)
  | leave (i : Nat) (hi : i < st.callers.length)
      (hin : st'.vegas.inFlight_ = st.vegas.inFlight_ - 1)
      (hcallers : st'.callers = st.callers.eraseIdx i)
  | rest (hin : st'.vegas.inFlight_ = st.vegas.inFlight_) (hcallers : st'.callers = st.callers)

theorem setSample_inFlight (st : State) (s : Nat) (sample : Sample) :
    (st.setSample s sample).vegas.inFlight_ = st.vegas.inFlight_ := by
  unfold State.setSample
  split <;> rfl

theorem setSample_callers (st : State) (s : Nat) (sample : Sample) :
    (st.setSample s sample).callers = st.callers := by
  unfold State.setSample
  split <;> rfl

theorem moves_of_step (d : Doubles) (st : State) (l : Label) (st' : State)
    (h : step d st l = some st') : Moves st st' := by
  cases l with
  | enter =>
    cases h
    exact .enter rfl rfl
  | compare i start =>
    simp only [step] at h
    split at h
    · rename_i inFlight hi
      cases h
      refine .compare i inFlight _ hi rfl rfl ?_
      intro hpc
      by_contra hlt
      simp [Caller.isAdmitted, hlt] at hpc
    · cases h
  | refuse i =>
    simp only [step] at h
    split at h
    · rename_i hi
      cases h
      exact .leave i (List.getElem?_eq_some_iff.mp hi).1 rfl rfl
    · cases h
  | done i op end_ =>
    simp only [step] at h
    split at h
    · rename_i hi
      cases h
      exact .leave i (List.getElem?_eq_some_iff.mp hi).1 rfl rfl
    · cases h
  | take j =>
    simp only [step] at h
    split at h
    · cases h
      exact .rest rfl rfl
    · cases h
  | add j =>
    simp only [step] at h
    split at h
    · cases h
      exact .rest (setSample_inFlight st _ _) (setSample_callers st _ _)
    · cases h
  | check j =>
    simp only [step] at h
    split at h
    · split at h <;> cases h <;> exact .rest rfl rfl
    · cases h
  | update j rand =>
    simp only [step] at h
    split at h
    · split at h
      · cases h
        exact .rest (Vegas.update_inFlight d _ _ _ _) rfl
      · cases h
        exact .rest rfl rfl
    · cases h

/-! ## The admission bound -/

/-- What every step keeps while the limit is at most `m`. -/
structure Inv (m : Int) (st : State) : Prop where
  count : st.vegas.inFlight_ = st.callers.length
  ranked : Ranked Caller.inFlight st.callers
  admitted : ∀ c ∈ st.callers, c.isAdmitted = true → c.inFlight ≤ m

theorem inv_initial (m : Int) : Inv m {} where
  count := rfl
  ranked := Ranked.nil
  admitted := by
    intro c hc
    cases hc

theorem Moves.inv {m : Int} {st st' : State} (h : Moves st st') (hi : Inv m st)
    (hm : st.vegas.limit_ ≤ m) : Inv m st' := by
  cases h with
  | enter hin hcallers =>
    constructor
    · rw [hin, hcallers, hi.count]
      simp
    · rw [hcallers]
      apply hi.ranked.enter
      show st.vegas.inFlight_ + 1 = st.callers.length + 1
      rw [hi.count]
    · intro c hc ha
      rw [hcallers, List.mem_append, List.mem_singleton] at hc
      rcases hc with hc | rfl
      · exact hi.admitted c hc ha
      · simp [Caller.isAdmitted] at ha
  | compare i inFlight pc hget hin hcallers hpc =>
    constructor
    · rw [hin, hcallers, hi.count, List.length_set]
    · rw [hcallers]
      exact hi.ranked.set hget rfl
    · intro c hc ha
      rw [hcallers] at hc
      rcases List.mem_or_eq_of_mem_set hc with hc | rfl
      · exact hi.admitted c hc ha
      · exact Int.le_trans (hpc ha) hm
  | leave i hlt hin hcallers =>
    constructor
    · rw [hin, hcallers, hi.count, List.length_eraseIdx_of_lt hlt]
      omega
    · rw [hcallers]
      exact hi.ranked.leave i
    · intro c hc ha
      rw [hcallers] at hc
      exact hi.admitted c (List.mem_of_mem_eraseIdx hc) ha
  | rest hin hcallers =>
    constructor
    · rw [hin, hcallers, hi.count]
    · rw [hcallers]
      exact hi.ranked
    · rw [hcallers]
      exact hi.admitted

/-- The invariant along a run whose limits are at most `m`. -/
theorem run_inv (d : Doubles) (m : Int) (ls : List Label) (st : State)
    (hrun : run (step d) {} ls = some st)
    (hm : ∀ as bs u, ls = as ++ bs → run (step d) {} as = some u → u.vegas.limit_ ≤ m) :
    Inv m st := by
  apply run_invariant (G := fun u _ => u.vegas.limit_ ≤ m) _ ls {} st (inv_initial m) _ hrun
  · intro u l u' hi hu hl
    exact (moves_of_step d u l u' hl).inv hi hu
  · apply guarded_of_states
    intro as l bs u he hu
    exact hm as (l :: bs) u he hu

/-- **Admission bound.** In every state that the threads can reach, the limit is between
its bounds, `inFlight_` counts the increments that are not undone, and the requests that
are admitted and not done are at most the largest limit so far. -/
theorem admission_bounded (d : Doubles) (ls : List Label) (st : State)
    (hrun : run (step d) {} ls = some st) :
    (8 ≤ st.vegas.limit_ ∧ st.vegas.limit_ ≤ 4096 ∧ 3 * st.vegas.limit_ ≠ 0) ∧
    (st.vegas.inFlight_ = st.callers.length ∧ 0 ≤ st.vegas.inFlight_) ∧
    ∃ as bs u, ls = as ++ bs ∧ run (step d) {} as = some u ∧
      (∀ as' bs' u', ls = as' ++ bs' → run (step d) {} as' = some u' →
        u'.vegas.limit_ ≤ u.vegas.limit_) ∧
      (st.admitted : Int) ≤ u.vegas.limit_ := by
  obtain ⟨as, bs, u, he, hu, hmax⟩ :=
    run_exists_max (fun s : State => s.vegas.limit_) ls {} st hrun
  have hi : Inv u.vegas.limit_ st := run_inv d _ ls st hrun hmax
  have hmin : 8 ≤ st.vegas.limit_ := st.vegas.min_le
  have hpos : 8 ≤ u.vegas.limit_ := u.vegas.min_le
  refine ⟨⟨hmin, st.vegas.le_max, by omega⟩, ⟨hi.count, by rw [hi.count]; omega⟩, ?_⟩
  exact ⟨as, bs, u, he, hu, hmax, hi.ranked.countP_le (by omega) hi.admitted⟩

/-- A limiter that goes up and down by whole steps. -/
def whole : Doubles :=
  ⟨fun _ _ _ => 0, fun queue _ _ => queue ≤ 0, fun queue _ _ => 0 < queue, fun limit k => limit + k⟩

/-- Nine callers increment before the first comparison. -/
def nine : List Label := List.replicate 9 .enter ++ (List.range 9).map fun i => .compare i 0

/-- The last of them is refused and still counted. -/
theorem admission_bounded_nine :
    ∃ st, run (step whole) {} nine = some st ∧
      (8 ≤ st.vegas.limit_ ∧ st.vegas.limit_ ≤ 4096 ∧ 3 * st.vegas.limit_ ≠ 0) ∧
      (st.vegas.inFlight_ = st.callers.length ∧ 0 ≤ st.vegas.inFlight_) ∧
      st.vegas.inFlight_ = 9 ∧ st.admitted = 8 := by
  have hview : (run (step whole) {} nine).map (fun st => (st.vegas.inFlight_, st.admitted)) =
      some (9, 8) := by decide +kernel
  obtain ⟨st, hrun, hst⟩ := Option.map_eq_some_iff.mp hview
  obtain ⟨hlimit, hcount, -⟩ := admission_bounded whole nine st hrun
  exact ⟨st, hrun, hlimit, hcount, congrArg Prod.fst hst, congrArg Prod.snd hst⟩

end Cppim.Rate.Concurrent
