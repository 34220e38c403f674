import Cppim.Rate.Concurrent
import Mathlib.Data.List.Induction
import Mathlib.Data.List.Nodup

/-! `rate/Vegas.h`: how often the done closures change the limit.

A run is any sequence of calls of `Acquire` and of the closures it returned, each closure
one step that brings its own clock reading. The clock may stand still or go back, and a
closure may be called more than once. Nothing else in the closure overflows where the sum of
a sample does not: at least sixteen times `lastRTT` are in it. -/

namespace Cppim.Rate.Pacing

open Cppim.Lib.Transition

/-! ## Histories -/

/-- One call of a closure. -/
structure Completion where
  /-- the calls before it -/
  number : Nat
  inFlight : Int
  start : Int
  op : Op
  end_ : Int
  rand : Int
  deriving Repr, DecidableEq

/-- What a call of a closure did, and the completions that were in the sample it looked at. -/
structure Record where
  completion : Completion
  before : Vegas
  after : Vegas
  counted : List Completion
  deriving Repr, DecidableEq

/-- The limiter and its history. -/
structure State where
  vegas : Vegas := {}
  /-- the `inFlight` of each closure that `Acquire` returned -/
  closures : List Int := []
  /-- the completions in `sample_` -/
  counted : List Completion := []
  log : List Record := []
  deriving Repr, DecidableEq

inductive Label where
  | Acquire
  | done (i : Nat) (start : Int) (op : Op) (end_ rand : Int)
  deriving Repr, DecidableEq

/-- The completions in the sample that the closure looks at: it adds its own first. -/
def seen (st : State) (c : Completion) : List Completion :=
  if c.op = .Ignore then st.counted else st.counted ++ [c]

/-- The call of a closure, with its entry in the history. A sample without completions is
one that was just made. -/
def complete (d : Doubles) (st : State) (c : Completion) : State :=
  let v := Vegas.done d st.vegas c.inFlight c.start c.op c.end_ c.rand
  { st with
    vegas := v
    counted := if v.sample_.count_ = 0 then [] else seen st c
    log := st.log ++ [⟨c, st.vegas, v, seen st c⟩] }

def step (d : Doubles) (st : State) : Label → Option State
  | .Acquire =>
    let (v, inFlight, _) := st.vegas.Acquire
    some { st with vegas := v, closures := st.closures ++ [inFlight] }
  | .done i start op end_ rand =>
    st.closures[i]?.map fun inFlight =>
      complete d st ⟨st.log.length, inFlight, start, op, end_, rand⟩

/-- The completion changes the limit. -/
def Record.Changes (r : Record) : Prop := r.after.limit_ ≠ r.before.limit_

/-- The completion sets the time of the next update. -/
def Record.Updates (r : Record) : Prop := r.after.updateTime_ ≠ r.before.updateTime_

/-- The sample that some completions make. -/
def sampleOf (cs : List Completion) : Sample :=
  cs.foldl (fun s c => s.Add (c.end_ - c.start) c.inFlight (c.op = .Drop)) {}

theorem sampleOf_concat (cs : List Completion) (c : Completion) :
    sampleOf (cs ++ [c]) = (sampleOf cs).Add (c.end_ - c.start) c.inFlight (c.op = .Drop) := by
  simp [sampleOf]

theorem sampleOf_count (cs : List Completion) : (sampleOf cs).count_ = cs.length := by
  induction cs using List.reverseRecOn with
  | nil => rfl
  | append_singleton cs c ih =>
    rw [sampleOf_concat]
    simp [Sample.Add, ih]

theorem sampleOf_count_eq_zero {cs : List Completion} : (sampleOf cs).count_ = 0 ↔ cs = [] := by
  rw [sampleOf_count, Int.natCast_eq_zero, List.length_eq_zero_iff]

/-! ## One completion -/

/-- The ways through the closure, by what they do to the sample, to the limit and to the
time of the next update; `s` is the sample with this completion in it. -/
inductive Outcome (d : Doubles) (v : Vegas) (s : Sample) (c : Completion) (v' : Vegas) : Prop
  /-- an `Ignore` looks at nothing -/
  | ignored (hop : c.op = .Ignore) (hlimit : v'.limit_ = v.limit_)
      (htime : v'.updateTime_ = v.updateTime_) (hsample : v'.sample_ = v.sample_)
  /-- it is too early, or the sample too small -/
  | added (hop : c.op ≠ .Ignore) (hlimit : v'.limit_ = v.limit_)
      (htime : v'.updateTime_ = v.updateTime_) (hsample : v'.sample_ = s)
  /-- the round trip time of the sample is of no use -/
  | dropped (hop : c.op ≠ .Ignore) (hlimit : v'.limit_ = v.limit_)
      (htime : v'.updateTime_ = v.updateTime_) (hsample : v'.sample_ = {})
  | updated (hop : c.op ≠ .Ignore) (hlate : v.updateTime_ < c.end_) (hfull : 16 ≤ s.count_)
      (htime : c.end_ + minWindowTime_ ≤ v'.updateTime_ ∧ v'.updateTime_ ≤ c.end_ + maxWindowTime_)
      (hsample : v'.sample_ = {})
      (hupdate : v' = Vegas.update d { v with inFlight_ := v.inFlight_ - 1, sample_ := s } s
        c.end_ c.rand)

theorem done_outcome (d : Doubles) (v : Vegas) (c : Completion) :
    Outcome d v (v.sample_.Add (c.end_ - c.start) c.inFlight (c.op = .Drop)) c
      (Vegas.done d v c.inFlight c.start c.op c.end_ c.rand) := by
  unfold Vegas.done
  by_cases hop : c.op = .Ignore
  · simp only [if_pos hop]
    exact .ignored hop rfl rfl rfl
  · simp only [if_neg hop]
    split
    · rename_i hlate
      rcases Int.lt_or_le 0
          (v.sample_.Add (c.end_ - c.start) c.inFlight (c.op = .Drop)).RTT with hpos | hneg
      · refine .updated hop hlate.1 hlate.2 ?_ (Vegas.update_sample d _ _ _ _) rfl
        rw [Vegas.update_updateTime d _ hpos]
        have := Vegas.window_bounds
          (v.sample_.Add (c.end_ - c.start) c.inFlight (c.op = .Drop)).RTT
        omega
      · rw [Vegas.update_of_nonpos d _ hneg]
        exact .dropped hop rfl rfl rfl
    · exact .added hop rfl rfl rfl

/-- The window is not empty. -/
theorem Outcome.updateTime_le {d : Doubles} {v v' : Vegas} {s : Sample} {c : Completion}
    (h : Outcome d v s c v') : v.updateTime_ ≤ v'.updateTime_ := by
  cases h with
  | ignored _ _ htime _ | added _ _ htime _ | dropped _ _ htime _ => omega
  | updated _ hlate _ htime _ _ =>
    have hmin : (0 : Int) ≤ minWindowTime_ := by decide
    omega

/-! ## Entries of the history -/

/-- A completion that moves the time or the limit has gone through the whole closure, with
a sample of at least sixteen completions. -/
structure Record.Sound (d : Doubles) (r : Record) : Prop where
  time : r.Updates → r.before.updateTime_ < r.completion.end_ ∧
    r.completion.end_ + minWindowTime_ ≤ r.after.updateTime_ ∧
    r.after.updateTime_ ≤ r.completion.end_ + maxWindowTime_
  change : r.Changes → r.Updates ∧ 16 ≤ r.counted.length ∧
    r.after = Vegas.update d
      { r.before with inFlight_ := r.before.inFlight_ - 1, sample_ := sampleOf r.counted }
      (sampleOf r.counted) r.completion.end_ r.completion.rand

theorem Outcome.sound {d : Doubles} {v v' : Vegas} {s : Sample} {c : Completion}
    (h : Outcome d v s c v') {cs : List Completion} (hs : c.op ≠ .Ignore → s = sampleOf cs) :
    Record.Sound d ⟨c, v, v', cs⟩ := by
  cases h with
  | ignored _ hlimit htime _ | added _ hlimit htime _ | dropped _ hlimit htime _ =>
    exact ⟨fun h => absurd htime h, fun h => absurd hlimit h⟩
  | updated hop hlate hfull htime _ hupdate =>
    obtain rfl := hs hop
    rw [sampleOf_count] at hfull
    have hmin : (0 : Int) < minWindowTime_ := by decide
    have hmoves : v'.updateTime_ ≠ v.updateTime_ := by omega
    exact ⟨fun _ => ⟨hlate, htime⟩, fun _ => ⟨hmoves, by exact_mod_cast hfull, hupdate⟩⟩

/-- A completion that changes the limit leaves a fresh sample. -/
theorem Outcome.sample_of_change {d : Doubles} {v v' : Vegas} {s : Sample} {c : Completion}
    (h : Outcome d v s c v') (hchange : v'.limit_ ≠ v.limit_) : v'.sample_ = {} := by
  cases h with
  | ignored _ hlimit _ _ | added _ hlimit _ _ => exact absurd hlimit hchange
  | dropped _ _ _ hsample | updated _ _ _ _ hsample _ => exact hsample

/-- Completions that a sample can hold: different ones among the first `n`. -/
structure Counts (n : Nat) (cs : List Completion) : Prop where
  op : ∀ c ∈ cs, c.op ≠ .Ignore
  number : ∀ c ∈ cs, c.number < n
  nodup : cs.Nodup

theorem Counts.nil (n : Nat) : Counts n [] := ⟨by simp, by simp, by simp⟩

theorem Counts.succ {n : Nat} {cs : List Completion} (h : Counts n cs) : Counts (n + 1) cs :=
  ⟨h.op, fun c hc => Nat.lt_succ_of_lt (h.number c hc), h.nodup⟩

theorem Counts.not_mem {n : Nat} {cs : List Completion} (h : Counts n cs) {c : Completion}
    (hc : c.number = n) : c ∉ cs := by
  intro hmem
  have := h.number c hmem
  omega

theorem Counts.concat {n : Nat} {cs : List Completion} (h : Counts n cs) {c : Completion}
    (hc : c.number = n) (hop : c.op ≠ .Ignore) : Counts (n + 1) (cs ++ [c]) where
  op := by
    intro c' hc'
    rcases List.mem_append.mp hc' with hc' | hc'
    · exact h.op c' hc'
    · rwa [List.mem_singleton.mp hc']
  number := by
    intro c' hc'
    rcases List.mem_append.mp hc' with hc' | hc'
    · exact h.succ.number c' hc'
    · rw [List.mem_singleton.mp hc', hc]
      exact Nat.lt_succ_self n
  nodup := List.nodup_append'.mpr ⟨h.nodup, List.nodup_singleton c, by
    simpa using h.not_mem hc⟩

/-- Of two completions, the later one is behind the window of the earlier one, and looks at
a sample that has nothing in common with the one the earlier one used. -/
def Apart (r r' : Record) : Prop :=
  (r.Updates → r'.Updates → r.completion.end_ + minWindowTime_ < r'.completion.end_) ∧
  (r.Changes → List.Disjoint r.counted r'.counted)

/-- What the history has to do with the limiter. -/
structure Inv (d : Doubles) (st : State) : Prop where
  sample : st.vegas.sample_ = sampleOf st.counted
  counts : Counts st.log.length st.counted
  log_counts : ∀ r ∈ st.log, Counts st.log.length r.counted
  sound : ∀ r ∈ st.log, r.Sound d
  time : ∀ r ∈ st.log, r.after.updateTime_ ≤ st.vegas.updateTime_
  spent : ∀ r ∈ st.log, r.Changes → List.Disjoint r.counted st.counted
  apart : st.log.Pairwise Apart

theorem inv_initial (d : Doubles) : Inv d {} where
  sample := rfl
  counts := .nil 0
  log_counts := by simp
  sound := by simp
  time := by simp
  spent := by simp
  apart := .nil

section Complete

variable {d : Doubles} {st : State} {c : Completion}

theorem Inv.seen_counts (h : Inv d st) (hc : c.number = st.log.length) :
    Counts (st.log.length + 1) (seen st c) := by
  unfold seen
  split
  · exact h.counts.succ
  · rename_i hop
    exact h.counts.concat hc hop

/-- What was used for a change does not come back. -/
theorem Inv.spent_seen (h : Inv d st) (hc : c.number = st.log.length) {r : Record}
    (hr : r ∈ st.log) (hchange : r.Changes) : List.Disjoint r.counted (seen st c) := by
  unfold seen
  split
  · exact h.spent r hr hchange
  · rw [List.disjoint_append_right, List.disjoint_singleton]
    exact ⟨h.spent r hr hchange, (h.log_counts r hr).not_mem hc⟩

theorem Inv.outcome (h : Inv d st) (c : Completion) :
    Outcome d st.vegas (sampleOf (st.counted ++ [c])) c (complete d st c).vegas := by
  rw [sampleOf_concat, ← h.sample]
  exact done_outcome d st.vegas c

theorem Inv.complete_sample (h : Inv d st) :
    (complete d st c).vegas.sample_ = sampleOf (complete d st c).counted := by
  have hcounted : (complete d st c).counted =
      if (complete d st c).vegas.sample_.count_ = 0 then [] else seen st c := rfl
  cases h.outcome c with
  | ignored hop _ _ hsample =>
    rw [hcounted, hsample, h.sample, seen, if_pos hop]
    split
    · rename_i hzero
      rw [sampleOf_count_eq_zero.mp hzero]
    · rfl
  | added hop _ _ hsample =>
    rw [hcounted, hsample, seen, if_neg hop, if_neg]
    simp [sampleOf_count_eq_zero]
  | dropped _ _ _ hsample | updated _ _ _ _ hsample _ =>
    rw [hcounted, hsample]
    rfl

/-- A completion that changes the limit leaves nothing behind in the sample. -/
theorem Inv.counted_of_change (h : Inv d st)
    (hchange : (complete d st c).vegas.limit_ ≠ st.vegas.limit_) :
    (complete d st c).counted = [] := by
  have hsample := (h.outcome c).sample_of_change hchange
  rw [h.complete_sample] at hsample
  exact sampleOf_count_eq_zero.mp (congrArg Sample.count_ hsample)

theorem Inv.complete_record (h : Inv d st) :
    Record.Sound d ⟨c, st.vegas, (complete d st c).vegas, seen st c⟩ := by
  refine (h.outcome c).sound fun hop => ?_
  rw [seen, if_neg hop]

theorem Inv.apart_record (h : Inv d st) (hc : c.number = st.log.length) {r : Record}
    (hr : r ∈ st.log) : Apart r ⟨c, st.vegas, (complete d st c).vegas, seen st c⟩ := by
  refine ⟨fun hupdates hupdates' => ?_, h.spent_seen hc hr⟩
  have hwindow := ((h.sound r hr).time hupdates).2.1
  have htime := h.time r hr
  have hlate : st.vegas.updateTime_ < c.end_ := (h.complete_record.time hupdates').1
  show r.completion.end_ + minWindowTime_ < c.end_
  omega

/-- What is in the sample behind a completion was in it before, or is new. -/
theorem complete_counted (d : Doubles) (st : State) (c : Completion) :
    (complete d st c).counted = [] ∨ (complete d st c).counted = seen st c := by
  simp only [complete]
  split
  · exact Or.inl rfl
  · exact Or.inr rfl

/-- **One completion.** -/
theorem Inv.complete (h : Inv d st) (hc : c.number = st.log.length) :
    Inv d (complete d st c) := by
  have hlog : (Pacing.complete d st c).log =
      st.log ++ [⟨c, st.vegas, (Pacing.complete d st c).vegas, seen st c⟩] := rfl
  have hlength : (Pacing.complete d st c).log.length = st.log.length + 1 := by simp [hlog]
  have hcases : ∀ {P : Record → Prop}, (∀ r ∈ st.log, P r) →
      P ⟨c, st.vegas, (Pacing.complete d st c).vegas, seen st c⟩ →
      ∀ r ∈ (Pacing.complete d st c).log, P r := by
    intro P hold hnew r hr
    rcases List.mem_append.mp (hlog ▸ hr) with hr | hr
    · exact hold r hr
    · rwa [List.mem_singleton.mp hr]
  constructor
  case sample => exact h.complete_sample
  case counts =>
    rw [hlength]
    rcases complete_counted d st c with hnone | hseen
    · rw [hnone]
      exact .nil _
    · rw [hseen]
      exact h.seen_counts hc
  case log_counts =>
    rw [hlength]
    exact hcases (fun r hr => (h.log_counts r hr).succ) (h.seen_counts hc)
  case sound => exact hcases h.sound h.complete_record
  case time =>
    exact hcases (fun r hr => Int.le_trans (h.time r hr) (h.outcome c).updateTime_le)
      (Int.le_refl _)
  case spent =>
    refine hcases (fun r hr hchange => ?_) fun hchange => ?_
    · rcases complete_counted d st c with hnone | hseen
      · rw [hnone]
        exact List.disjoint_nil_right _
      · rw [hseen]
        exact h.spent_seen hc hr hchange
    · rw [h.counted_of_change hchange]
      exact List.disjoint_nil_right _
  case apart =>
    rw [hlog, List.pairwise_append]
    refine ⟨h.apart, List.pairwise_singleton _ _, fun r hr r' hr' => ?_⟩
    rw [List.mem_singleton.mp hr']
    exact h.apart_record hc hr

end Complete

/-! ## Runs -/

theorem step_inv {d : Doubles} {st st' : State} {l : Label} (h : Inv d st)
    (hstep : step d st l = some st') :
    Inv d st' ∧ st.vegas.updateTime_ ≤ st'.vegas.updateTime_ := by
  cases l with
  | Acquire =>
    cases hstep
    exact ⟨⟨h.sample, h.counts, h.log_counts, h.sound, h.time, h.spent, h.apart⟩, Int.le_refl _⟩
  | done i start op end_ rand =>
    obtain ⟨inFlight, -, rfl⟩ := Option.map_eq_some_iff.mp hstep
    exact ⟨h.complete rfl, (h.outcome _).updateTime_le⟩

theorem run_inv {d : Doubles} {ls : List Label} {st st' : State} (h : Inv d st)
    (hrun : run (step d) st ls = some st') : Inv d st' :=
  run_kept (fun _ _ _ h hstep => (step_inv h hstep).1) ls st st' h hrun

theorem run_updateTime_le {d : Doubles} {ls : List Label} {st st' : State} (h : Inv d st)
    (hrun : run (step d) st ls = some st') :
    st.vegas.updateTime_ ≤ st'.vegas.updateTime_ := by
  induction ls generalizing st with
  | nil =>
    cases hrun
    exact Int.le_refl _
  | cons l ls ih =>
    obtain ⟨m, hstep, hrest⟩ := (run_cons_eq_some st st' l ls).mp hrun
    obtain ⟨hm, hle⟩ := step_inv h hstep
    exact Int.le_trans hle (ih hm hrest)

/-- **The limit is paced.** In every run, two completions that change the limit are more
than 500 ms apart, and what the later one has in its sample was not used by the earlier one.
The time of the next update never goes back, and lies between 500 ms and 2000 ms behind the
completion that sets it. A change comes from a sample of at least sixteen different
completions that succeeded or were dropped. -/
theorem limit_changes_paced (d : Doubles) (ls : List Label) (st : State)
    (hrun : run (step d) {} ls = some st) :
    (st.log.Pairwise fun r r' => r.Changes → r'.Changes →
      r.completion.end_ + 500 * 1000 * 1000 < r'.completion.end_ ∧
      List.Disjoint r.counted r'.counted) ∧
    (∀ as bs u, ls = as ++ bs → run (step d) {} as = some u →
      u.vegas.updateTime_ ≤ st.vegas.updateTime_) ∧
    (∀ r ∈ st.log, r.Updates →
      r.completion.end_ + 500 * 1000 * 1000 ≤ r.after.updateTime_ ∧
      r.after.updateTime_ ≤ r.completion.end_ + 2000 * 1000 * 1000) ∧
    ∀ r ∈ st.log, r.Changes → r.Updates ∧ 16 ≤ r.counted.length ∧ r.counted.Nodup ∧
      (∀ c ∈ r.counted, c.op = .Success ∨ c.op = .Drop) ∧
      r.after = Vegas.update d
        { r.before with inFlight_ := r.before.inFlight_ - 1, sample_ := sampleOf r.counted }
        (sampleOf r.counted) r.completion.end_ r.completion.rand := by
  have h : Inv d st := run_inv (inv_initial d) hrun
  refine ⟨?_, ?_, ?_, ?_⟩
  · refine h.apart.imp_of_mem fun hr hr' hapart hchange hchange' => ?_
    have hupdates := ((h.sound _ hr).change hchange).1
    have hupdates' := ((h.sound _ hr').change hchange').1
    exact ⟨hapart.1 hupdates hupdates', hapart.2 hchange⟩
  · rintro as bs u rfl hu
    rw [run_append, hu] at hrun
    exact run_updateTime_le (run_inv (inv_initial d) hu) hrun
  · exact fun r hr hupdates => ((h.sound r hr).time hupdates).2
  · intro r hr hchange
    obtain ⟨hupdates, hfull, hupdate⟩ := (h.sound r hr).change hchange
    refine ⟨hupdates, hfull, (h.log_counts r hr).nodup, fun c hc => ?_, hupdate⟩
    have hop := (h.log_counts r hr).op c hc
    cases hcop : c.op with
    | Ignore => exact absurd hcop hop
    | Success => exact Or.inl rfl
    | Drop => exact Or.inr rfl

/-- Thirty-two requests that take a second, of which the last sixteen end three seconds
behind the others. -/
def twoBatches : List Label :=
  List.replicate 32 .Acquire ++
    (List.range 16).map (fun i => .done i 0 .Success 1000000000 0) ++
    (List.range 16).map fun i => .done (16 + i) 3000000000 .Success 4000000000 0

/-- Each batch changes the limit once. -/
theorem two_batches_paced :
    ∃ st, run (step Concurrent.whole) {} twoBatches = some st ∧
      st.log.countP (fun r => r.after.limit_ ≠ r.before.limit_) = 2 ∧
      st.log.Pairwise fun r r' => r.Changes → r'.Changes →
        r.completion.end_ + 500 * 1000 * 1000 < r'.completion.end_ ∧
        List.Disjoint r.counted r'.counted := by
  have hview : (run (step Concurrent.whole) {} twoBatches).map
      (fun st => st.log.countP fun r => r.after.limit_ ≠ r.before.limit_) = some 2 := by
    decide +kernel
  obtain ⟨st, hrun, hcount⟩ := Option.map_eq_some_iff.mp hview
  exact ⟨st, hrun, hcount, (limit_changes_paced Concurrent.whole twoBatches st hrun).1⟩

end Cppim.Rate.Pacing
