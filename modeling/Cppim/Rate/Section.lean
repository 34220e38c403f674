import Cppim.Rate.Concurrent
import Mathlib.Algebra.Order.BigOperators.Group.List

/-! The section under the mutex of the closures that `Acquire` returns, step by step.

The section begins with `sample_ = std::make_shared<Sample>()`. Until it ends, other threads
take the new sample, add to it and to the old one, and pass the test in front of the mutex.
`completions_counted` says that this loses nothing: every completion is in exactly one
sample, no sample is evaluated twice, and each one that is evaluated has 16 completions. -/

namespace Cppim.Rate.Section

open Cppim.Lib.Transition Cppim.Rate.Concurrent

/-! ## The steps -/

/-- `base` is what the threads share outside of the section. -/
structure State where
  base : Concurrent.State := {}
  /-- the sample of the thread that is in the section, and its `end` -/
  inside : Option (Nat × Int) := none
  deriving Repr, DecidableEq

inductive Label where
  /-- a step in front of the mutex -/
  | outside (l : Concurrent.Label)
  /-- a closure gets the mutex, and replaces the sample if it is still there -/
  | replace (j : Nat)
  /-- the rest of the section -/
  | leave (rand : Int)
  deriving Repr, DecidableEq

/-- The update, with the sample that has been put in place of `s` before it. -/
def updated (d : Doubles) (v : Vegas) (s : Sample) (end_ rand : Int) : Vegas :=
  { Vegas.update d v s end_ rand with sample_ := v.sample_ }

def step (d : Doubles) (st : State) : Label → Option State
  | .outside (.update _ _) => none
  | .outside l => (Concurrent.step d st.base l).map fun base => { st with base := base }
  | .replace j =>
    match st.inside, st.base.closing[j]? with
    | none, some ⟨_, _, _, end_, .lock s⟩ =>
      if s = st.base.retired.length then
        some {
          base := { st.base with
            vegas := { st.base.vegas with sample_ := {} }
            retired := st.base.retired ++ [st.base.vegas.sample_]
            closing := st.base.closing.eraseIdx j }
          inside := some (s, end_) }
      else some { st with base := { st.base with closing := st.base.closing.eraseIdx j } }
    | _, _ => none
  | .leave rand =>
    match st.inside with
    | some (s, end_) =>
      some {
        base := { st.base with
          vegas := updated d st.base.vegas (st.base.sample s) end_ rand }
        inside := none }
    | none => none

/-- A thread that goes through the section at once does what `Concurrent` does in one step. -/
theorem run_section (d : Doubles) (st : State) (j : Nat) (rand : Int) (inFlight start : Int)
    (op : Op) (end_ : Int) (hfree : st.inside = none)
    (hj : st.base.closing[j]? =
      some ⟨inFlight, start, op, end_, .lock st.base.retired.length⟩) :
    run (step d) st [.replace j, .leave rand] =
      (Concurrent.step d st.base (.update j rand)).map fun base => { base := base } := by
  have hupdated : updated d { st.base.vegas with sample_ := {} } st.base.vegas.sample_ end_ rand =
      Vegas.update d st.base.vegas st.base.vegas.sample_ end_ rand := by
    have hsample := Vegas.update_sample d st.base.vegas st.base.vegas.sample_ end_ rand
    show { Vegas.update d st.base.vegas st.base.vegas.sample_ end_ rand with sample_ := {} } = _
    cases hv : Vegas.update d st.base.vegas st.base.vegas.sample_ end_ rand
    rw [hv] at hsample
    cases hsample
    rfl
  simp [run, step, Concurrent.step, hfree, hj, State.sample, hupdated]

/-! ## Samples and closures -/

/-- The completions that are in the samples. -/
def counted (st : Concurrent.State) : Int :=
  (st.retired.map Sample.count_).sum + st.vegas.sample_.count_

/-- The closure has not added its completion yet. -/
def waits (c : Closing) : Bool :=
  match c.stage with
  | .take | .add _ => true
  | .check _ | .lock _ => false

/-- The sample that a closure holds. -/
def held : Stage → Option Nat
  | .take => none
  | .add s | .check s | .lock s => some s

theorem counted_setSample (st : Concurrent.State) (s : Nat) (rtt inflight : Int) (drop : Bool) :
    counted (st.setSample s ((st.sample s).Add rtt inflight drop)) = counted st + 1 := by
  unfold State.setSample
  split <;> rename_i hs
  · have hget : st.sample s = st.retired[s] := by
      simp [State.sample, hs]
    simp only [counted, List.map_set, List.sum_set', List.length_map, hs, dif_pos, hget,
      List.getElem_map, Sample.Add]
    omega
  · have hget : st.sample s = st.vegas.sample_ := by
      simp [State.sample, List.getElem?_eq_none (Nat.le_of_not_lt hs)]
    simp only [counted, hget, Sample.Add]
    omega

/-- No sample loses anything. -/
theorem count_setSample_le (st : Concurrent.State) (s t : Nat) (rtt inflight : Int) (drop : Bool) :
    (st.sample t).count_ ≤
      ((st.setSample s ((st.sample s).Add rtt inflight drop)).sample t).count_ := by
  have hadd : ∀ x : Sample, x.count_ ≤ (x.Add rtt inflight drop).count_ := by
    intro x
    simp only [Sample.Add]
    omega
  unfold State.setSample
  split <;> rename_i hs
  · simp only [State.sample, List.getD_eq_getElem?_getD, List.getElem?_set]
    by_cases hst : s = t
    · subst hst
      simpa [hs] using hadd _
    · simp [hst]
  · simp only [State.sample, List.getD_eq_getElem?_getD]
    rw [List.getElem?_eq_none (Nat.le_of_not_lt hs), Option.getD_none]
    cases st.retired[t]? with
    | none => exact hadd _
    | some x => exact Int.le_refl _

theorem retired_setSample (st : Concurrent.State) (s : Nat) (sample : Sample) :
    (st.setSample s sample).retired.length = st.retired.length := by
  unfold State.setSample
  split <;> simp

/-! ## The invariant -/

/-- `n` closures were called with something to count. -/
structure Inv (n : Nat) (st : Concurrent.State) : Prop where
  total : counted st + st.closing.countP waits = n
  full : ∀ s < st.retired.length, 16 ≤ (st.sample s).count_
  current : 0 ≤ st.vegas.sample_.count_
  known : ∀ c ∈ st.closing, ∀ s ∈ held c.stage, s ≤ st.retired.length
  ready : ∀ c ∈ st.closing, ∀ s, c.stage = .lock s → 16 ≤ (st.sample s).count_

theorem inv_initial : Inv 0 {} where
  total := rfl
  full := by simp
  current := Int.le_refl 0
  known := by simp
  ready := by simp

namespace Inv

variable {n : Nat} {st : Concurrent.State}

/-- The closures and the samples are as they were. -/
theorem same (h : Inv n st) {st' : Concurrent.State}
    (hsample : st'.vegas.sample_ = st.vegas.sample_) (hretired : st'.retired = st.retired)
    (hclosing : st'.closing = st.closing) : Inv n st' := by
  have hget : st'.sample = st.sample := by
    funext s
    simp only [State.sample, hretired, hsample]
  refine ⟨?_, ?_, ?_, ?_, ?_⟩
  · rw [counted, hretired, hsample, hclosing]
    exact h.total
  · rw [hretired, hget]
    exact h.full
  · rw [hsample]
    exact h.current
  · rw [hretired, hclosing]
    exact h.known
  · rw [hclosing, hget]
    exact h.ready

/-- A closure is called. -/
theorem called (h : Inv n st) {c : Closing} (hstage : c.stage = .take) :
    Inv (n + 1) { st with closing := st.closing ++ [c] } where
  total := by
    have htotal := h.total
    have hwaits : waits c = true := by simp [waits, hstage]
    simp only [counted, List.countP_append, List.countP_singleton, hwaits, if_true] at htotal ⊢
    omega
  full := h.full
  current := h.current
  known := by
    intro c' hc' s hs
    rcases List.mem_append.mp hc' with hc' | hc'
    · exact h.known c' hc' s hs
    · rw [List.mem_singleton.mp hc', hstage] at hs
      cases hs
  ready := by
    intro c' hc' s hs
    rcases List.mem_append.mp hc' with hc' | hc'
    · exact h.ready c' hc' s hs
    · rw [List.mem_singleton.mp hc', hstage] at hs
      cases hs

/-- A closure goes on, and adds nothing. -/
theorem advance (h : Inv n st) {j : Nat} {c c' : Closing} (hj : st.closing[j]? = some c)
    (hwaits : waits c' = waits c) (hknown : ∀ s ∈ held c'.stage, s ≤ st.retired.length)
    (hready : ∀ s, c'.stage = .lock s → 16 ≤ (st.sample s).count_) :
    Inv n { st with closing := st.closing.set j c' } where
  total := by
    obtain ⟨hlt, hget⟩ := List.getElem?_eq_some_iff.mp hj
    have htotal := h.total
    have hpos : waits c = true → 0 < st.closing.countP waits := fun hc =>
      List.countP_pos_iff.mpr ⟨c, List.mem_of_getElem? hj, hc⟩
    simp only [counted, List.countP_set hlt, hget, hwaits] at htotal ⊢
    split <;> rename_i hc
    · have := hpos hc
      omega
    · simpa using htotal
  full := h.full
  current := h.current
  known := by
    intro x hx
    rcases List.mem_or_eq_of_mem_set hx with hx | rfl
    · exact h.known x hx
    · exact hknown
  ready := by
    intro x hx
    rcases List.mem_or_eq_of_mem_set hx with hx | rfl
    · exact h.ready x hx
    · exact hready

/-- A closure that has added its completion returns. -/
theorem returned (h : Inv n st) {j : Nat} {c : Closing} (hj : st.closing[j]? = some c)
    (hwaits : waits c = false) : Inv n { st with closing := st.closing.eraseIdx j } where
  total := by
    obtain ⟨hlt, hget⟩ := List.getElem?_eq_some_iff.mp hj
    have hperm := List.getElem_cons_eraseIdx_perm hlt
    have hcount := hperm.countP_eq waits
    rw [hget, List.countP_cons_of_neg (by simp [hwaits])] at hcount
    show counted st + _ = _
    rw [hcount]
    exact h.total
  full := h.full
  current := h.current
  known := fun x hx => h.known x (List.mem_of_mem_eraseIdx hx)
  ready := fun x hx => h.ready x (List.mem_of_mem_eraseIdx hx)

/-- A closure adds its completion to the sample that it holds, replaced or not. -/
theorem added (h : Inv n st) {j : Nat} {c c' : Closing} {s : Nat} (hj : st.closing[j]? = some c)
    (hstage : c.stage = .add s) (hstage' : c'.stage = .check s) (rtt inflight : Int)
    (drop : Bool) :
    Inv n { st.setSample s ((st.sample s).Add rtt inflight drop) with
      closing := st.closing.set j c' } where
  total := by
    obtain ⟨hlt, hget⟩ := List.getElem?_eq_some_iff.mp hj
    have htotal := h.total
    have hwaits : waits c = true := by simp [waits, hstage]
    have hwaits' : waits c' = false := by simp [waits, hstage']
    have hpos : 0 < st.closing.countP waits :=
      List.countP_pos_iff.mpr ⟨c, List.mem_of_getElem? hj, hwaits⟩
    have hcounted := counted_setSample st s rtt inflight drop
    show counted (st.setSample s _) + (st.closing.set j c').countP waits = n
    rw [hcounted, List.countP_set hlt, hget, hwaits, hwaits']
    simp only [if_true, Bool.false_eq_true, if_false, Nat.add_zero]
    omega
  full := by
    intro t ht
    exact Int.le_trans (h.full t ((retired_setSample st s _) ▸ ht)) (count_setSample_le ..)
  current := by
    show 0 ≤ (st.setSample s _).vegas.sample_.count_
    rw [← sample_current, retired_setSample]
    refine Int.le_trans ?_ (count_setSample_le ..)
    rw [sample_current]
    exact h.current
  known := by
    intro x hx t ht
    show t ≤ (st.setSample s _).retired.length
    rw [retired_setSample]
    rcases List.mem_or_eq_of_mem_set hx with hx | rfl
    · exact h.known x hx t ht
    · refine h.known c (List.mem_of_getElem? hj) t ?_
      rw [hstage]
      rw [hstage'] at ht
      exact ht
  ready := by
    intro x hx t ht
    refine Int.le_trans ?_ (count_setSample_le st s t rtt inflight drop)
    rcases List.mem_or_eq_of_mem_set hx with hx | rfl
    · exact h.ready x hx t ht
    · rw [hstage'] at ht
      cases ht

/-- The sample is replaced by a closure that found it full. -/
theorem replaced (h : Inv n st) (hfull : 16 ≤ st.vegas.sample_.count_) :
    Inv n { st with
      vegas := { st.vegas with sample_ := {} }
      retired := st.retired ++ [st.vegas.sample_] } := by
  have hold : ∀ s ≤ st.retired.length,
      (st.retired ++ [st.vegas.sample_]).getD s {} = st.sample s := by
    intro s hs
    simp only [State.sample, List.getD_eq_getElem?_getD]
    rcases Nat.lt_or_eq_of_le hs with hlt | rfl
    · rw [List.getElem?_append_left hlt, List.getElem?_eq_getElem hlt, Option.getD_some,
        Option.getD_some]
    · simp
  refine ⟨?_, ?_, Int.le_refl 0, ?_, ?_⟩
  · have htotal := h.total
    simp only [counted, List.map_append, List.sum_append, List.map_singleton,
      List.sum_singleton] at htotal ⊢
    omega
  · intro s hs
    have hs' : s < st.retired.length + 1 := by simpa using hs
    show 16 ≤ ((st.retired ++ [st.vegas.sample_]).getD s {}).count_
    rw [hold s (Nat.le_of_lt_succ hs')]
    rcases Nat.lt_or_eq_of_le (Nat.le_of_lt_succ hs') with hlt | rfl
    · exact h.full s hlt
    · rw [sample_current]
      exact hfull
  · intro c hc s hs
    have hle := h.known c hc s hs
    simp only [List.length_append, List.length_singleton]
    omega
  · intro c hc s hs
    have hle := h.known c hc s (by rw [hs]; rfl)
    show 16 ≤ ((st.retired ++ [st.vegas.sample_]).getD s {}).count_
    rw [hold s hle]
    exact h.ready c hc s hs

end Inv

/-! ## Runs -/

/-- A closure is called with something to count. -/
def completes : Label → Bool
  | .outside (.done _ op _) => op ≠ .Ignore
  | _ => false

/-- The limit that a step sets, if that is another one. -/
def change (d : Doubles) (st : State) (l : Label) : Option Int :=
  ((step d st l).map fun st' => st'.base.vegas.limit_).filter (· ≠ st.base.vegas.limit_)

theorem inv_outside {d : Doubles} {n : Nat} {st st' : Concurrent.State} {l : Concurrent.Label}
    (h : Inv n st) (hstep : Concurrent.step d st l = some st') (hl : ∀ j rand, l ≠ .update j rand) :
    Inv (n + if completes (.outside l) then 1 else 0) st' := by
  cases l with
  | enter =>
    cases hstep
    exact h.same rfl rfl rfl
  | compare i start =>
    simp only [Concurrent.step] at hstep
    split at hstep
    · cases hstep
      exact h.same rfl rfl rfl
    · cases hstep
  | refuse i =>
    simp only [Concurrent.step] at hstep
    split at hstep
    · cases hstep
      exact h.same rfl rfl rfl
    · cases hstep
  | done i op end_ =>
    simp only [Concurrent.step] at hstep
    split at hstep
    · rename_i inFlight start hi
      cases hstep
      by_cases hop : op = .Ignore
      · simp only [hop, completes, ne_eq, not_true_eq_false, decide_false, Bool.false_eq_true,
          if_false, if_true, List.append_nil]
        exact h.same rfl rfl rfl
      · simp only [hop, completes, ne_eq, not_false_eq_true, decide_true, if_true, if_false]
        exact (h.called (c := { inFlight, start, op, end_ }) rfl).same rfl rfl rfl
    · cases hstep
  | take j =>
    simp only [Concurrent.step] at hstep
    split at hstep
    · rename_i hj
      cases hstep
      refine h.advance hj rfl ?_ ?_
      · rintro s ⟨⟩
        exact Nat.le_refl _
      · rintro s ⟨⟩
    · cases hstep
  | add j =>
    simp only [Concurrent.step] at hstep
    split at hstep
    · rename_i hj
      cases hstep
      exact h.added hj rfl rfl _ _ _
    · cases hstep
  | check j =>
    simp only [Concurrent.step] at hstep
    split at hstep
    · rename_i hj
      split at hstep
      · rename_i hcheck
        cases hstep
        refine h.advance hj rfl ?_ ?_
        · intro s hs
          exact h.known _ (List.mem_of_getElem? hj) s hs
        · rintro s ⟨⟩
          exact hcheck.2
      · cases hstep
        exact h.returned hj rfl
    · cases hstep
  | update j rand => exact absurd rfl (hl j rand)

theorem step_outside {d : Doubles} {st st' : State} {l : Concurrent.Label}
    (h : step d st (.outside l) = some st') :
    ∃ base, Concurrent.step d st.base l = some base ∧ (∀ j rand, l ≠ .update j rand) ∧
      st' = { st with base := base } := by
  cases l with
  | update j rand => cases h
  | _ =>
    simp only [step, Option.map_eq_some_iff] at h
    obtain ⟨base, hbase, rfl⟩ := h
    exact ⟨base, hbase, by simp, rfl⟩

theorem Inv.step {d : Doubles} {n : Nat} {st st' : State} {l : Label} (h : Inv n st.base)
    (hstep : step d st l = some st') : Inv (n + if completes l then 1 else 0) st'.base := by
  cases l with
  | outside l =>
    obtain ⟨base, hbase, hl, rfl⟩ := step_outside hstep
    exact inv_outside h hbase hl
  | replace j =>
    simp only [Section.step] at hstep
    split at hstep
    · rename_i s _ hj
      have hready := h.ready _ (List.mem_of_getElem? hj) s rfl
      have hreturned := h.returned hj rfl
      split at hstep
      · rename_i hs
        cases hstep
        rw [hs, sample_current] at hready
        exact hreturned.replaced hready
      · cases hstep
        exact hreturned
    · cases hstep
  | leave rand =>
    simp only [Section.step] at hstep
    split at hstep
    · cases hstep
      exact h.same rfl rfl rfl
    · cases hstep

/-- In front of the mutex no sample is replaced and no limit set. -/
theorem same_outside {d : Doubles} {st st' : Concurrent.State} {l : Concurrent.Label}
    (h : Concurrent.step d st l = some st') (hl : ∀ j rand, l ≠ .update j rand) :
    st'.vegas.limit_ = st.vegas.limit_ ∧ st'.retired.length = st.retired.length := by
  cases l with
  | enter =>
    cases h
    exact ⟨rfl, rfl⟩
  | update j rand => exact absurd rfl (hl j rand)
  | add j =>
    simp only [Concurrent.step] at h
    split at h
    · cases h
      refine ⟨?_, retired_setSample ..⟩
      show (st.setSample _ _).vegas.limit_ = _
      unfold State.setSample
      split <;> rfl
    · cases h
  | check j =>
    simp only [Concurrent.step] at h
    split at h
    · split at h <;> cases h <;> exact ⟨rfl, rfl⟩
    · cases h
  | _ =>
    simp only [Concurrent.step] at h
    split at h
    · cases h
      exact ⟨rfl, rfl⟩
    · cases h

/-- A limit is set by a thread that has replaced a sample. -/
theorem change_le {d : Doubles} {st st' : State} {l : Label} {limits : List Int}
    (h : limits.length + st.inside.toList.length ≤ st.base.retired.length)
    (hstep : step d st l = some st') :
    ((change d st l).elim limits (· :: limits)).length + st'.inside.toList.length ≤
      st'.base.retired.length := by
  have hchange : change d st l = if st'.base.vegas.limit_ ≠ st.base.vegas.limit_ then
      some st'.base.vegas.limit_ else none := by
    simp [change, hstep, Option.filter]
  have hsame : st'.base.vegas.limit_ = st.base.vegas.limit_ →
      ((change d st l).elim limits (· :: limits)).length = limits.length := by
    intro hlimit
    rw [hchange, if_neg (not_not.mpr hlimit)]
    rfl
  cases l with
  | outside l =>
    obtain ⟨base, hbase, hl, rfl⟩ := step_outside hstep
    obtain ⟨hlimit, hretired⟩ := same_outside hbase hl
    rw [hsame hlimit]
    simpa [hretired] using h
  | replace j =>
    simp only [Section.step] at hstep
    split at hstep
    · rename_i hfree _
      rw [hfree] at h
      split at hstep
      · cases hstep
        rw [hsame rfl]
        simpa using h
      · cases hstep
        rw [hsame rfl, hfree]
        exact h
    · cases hstep
  | leave rand =>
    simp only [Section.step] at hstep
    split at hstep
    · rename_i hinside
      rw [hinside] at h
      cases hstep
      rw [hchange]
      split
      · simpa using h
      · exact Nat.le_trans (Nat.add_le_add_left (Nat.zero_le _) _) h
    · cases hstep

theorem run_inv {d : Doubles} {ls : List Label} {st : State}
    (hrun : run (step d) {} ls = some st) : Inv (ls.countP completes) st.base := by
  refine run_traced (I := fun as (u : State) => Inv (as.countP completes) u.base) ls ?_ st ?_ hrun
  · intro as l bs s s' _ hs hl
    rw [List.countP_append, List.countP_singleton]
    exact hs.step hl
  · exact inv_initial

/-- The limits that a run from a state sets. -/
def limits (d : Doubles) (st : State) (ls : List Label) : List Int :=
  shown (step d) (change d) st ls

theorem run_limits {d : Doubles} {ls : List Label} {st : State}
    (hrun : run (step d) {} ls = some st) : (limits d {} ls).length ≤ st.base.retired.length := by
  have hfold : ((limits d {} ls).foldl (fun xs x => x :: xs) []).length +
      st.inside.toList.length ≤ st.base.retired.length := by
    refine run_simulates_shown (G := fun _ _ => True) (R := fun (u : State) (xs : List Int) =>
      xs.length + u.inside.toList.length ≤ u.base.retired.length) ?_ ls {} st [] ?_ ?_ hrun
    · intro u l u' xs hle _ hl
      exact change_le hle hl
    · exact Nat.le_refl _
    · exact guarded_of_forall ls _ fun _ _ _ => trivial
  rw [List.foldl_flip_cons_eq_append] at hfold
  simp only [List.map_id', List.append_nil, List.length_reverse] at hfold
  omega

/-- **Every completion is counted once, and no limit is set on fewer than 16.** However the
threads are interleaved, also with the steps of the one that is in the section: each closure
that was called with `Success` or `Drop` is in one sample, or is going to add itself to one;
every sample that was replaced has at least 16 completions; and for each time that the limit
was changed there are 16 completions of their own. -/
theorem completions_counted (d : Doubles) (ls : List Label) (st : State)
    (hrun : run (step d) {} ls = some st) :
    counted st.base + st.base.closing.countP waits = ls.countP completes ∧
    (∀ s ∈ st.base.retired, 16 ≤ s.count_) ∧
    (limits d {} ls).length ≤ st.base.retired.length ∧
    16 * (limits d {} ls).length ≤ ls.countP completes := by
  have h := run_inv hrun
  have hlimits := run_limits hrun
  have hfull : ∀ s ∈ st.base.retired, 16 ≤ s.count_ := by
    intro s hs
    obtain ⟨i, hi, rfl⟩ := List.mem_iff_getElem.mp hs
    simpa [State.sample, hi] using h.full i hi
  refine ⟨h.total, hfull, hlimits, ?_⟩
  have hsum : 16 * (st.base.retired.length : Int) ≤ (st.base.retired.map Sample.count_).sum := by
    have hle := List.card_nsmul_le_sum (st.base.retired.map Sample.count_) 16 (by simpa using hfull)
    rw [List.length_map, nsmul_eq_mul] at hle
    omega
  have htotal := h.total
  have hcurrent := h.current
  simp only [counted] at htotal
  omega

/-- A request that is counted, beside four others. -/
def request : List Concurrent.Label :=
  [.enter, .compare 4 1, .done 4 .Success 9, .take 0, .add 0]

/-- Sixteen requests beside four that stay. While the last one is in the section, one more is
counted in the new sample. -/
def sixteen : List Label :=
  [.enter, .enter, .enter, .enter, .compare 0 0, .compare 1 0, .compare 2 0, .compare 3 0].map
    .outside ++
  (List.replicate 16 ((request ++ [Concurrent.Label.check 0]).map .outside)).flatten ++
  [.replace 0] ++ request.map .outside ++ [.leave 0]

theorem completions_counted_sixteen :
    ∃ st, run (step whole) {} sixteen = some st ∧ limits whole {} sixteen = [14] ∧
      st.base.retired.map Sample.count_ = [16] ∧ (∀ s ∈ st.base.retired, 16 ≤ s.count_) ∧
      counted st.base + st.base.closing.countP waits = 17 := by
  have hview : (run (step whole) {} sixteen).map (fun st => st.base.retired.map Sample.count_) =
      some [16] := by decide +kernel
  obtain ⟨st, hrun, hst⟩ := Option.map_eq_some_iff.mp hview
  obtain ⟨htotal, hfull, -⟩ := completions_counted whole sixteen st hrun
  exact ⟨st, hrun, by decide +kernel, hst, hfull, htotal.trans (by decide +kernel)⟩

end Cppim.Rate.Section
