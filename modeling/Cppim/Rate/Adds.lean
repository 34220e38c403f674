import Cppim.Lib.Threads
import Cppim.Lib.Transition
import Cppim.Rate.Vegas
import Mathlib.Data.BitVec
import Mathlib.Order.Bounds.Basic

/-! `Sample::Add` of `rate/Sample.h`, called by any number of threads at the same time.

The counters are atomic `int64_t`s. A label is one atomic step of one call: the store to
`drop_`, a load of `maxInFlight_`, a `compare_exchange_strong`, the two additions. No
update is lost however the steps interleave, so that the calls leave what they would
leave one after the other (`adds_sequential`); `Cppim.Rate.Concurrent` takes a whole call
as one step. -/

namespace Cppim.Rate.Adds

open Cppim.Lib Cppim.Lib.Transition

/-- The arguments of a call. -/
structure Call where
  rtt : BitVec 64
  inflight : BitVec 64
  drop : Bool
  deriving Repr, DecidableEq

/-- Where a call stands. -/
inductive Pc where
  /-- before `if (drop)` -/
  | drop
  /-- before a load of `maxInFlight_` -/
  | load
  /-- before `compare_exchange_strong(max, inflight)` -/
  | exchange (max : BitVec 64)
  | count
  | total
  | returned
  deriving Repr, DecidableEq

structure Thread where
  call : Call
  pc : Pc := .drop
  deriving Repr, DecidableEq

structure Counters where
  count_ : BitVec 64 := 0
  maxInFlight_ : BitVec 64 := 0
  drop_ : BitVec 64 := 0
  totalRTT_ : BitVec 64 := 0
  deriving Repr, DecidableEq

def act (c : Counters) (t : Thread) : Option (Counters × Thread) :=
  match t.pc with
  | .drop => some (if t.call.drop then { c with drop_ := 1 } else c, { t with pc := .load })
  | .load =>
    if c.maxInFlight_.toInt < t.call.inflight.toInt then
      some (c, { t with pc := .exchange c.maxInFlight_ })
    else some (c, { t with pc := .count })
  | .exchange max =>
    if c.maxInFlight_ = max then
      some ({ c with maxInFlight_ := t.call.inflight }, { t with pc := .count })
    -- the variable `max` is set here, and once more by the load
    else some (c, { t with pc := .load })
  | .count => some ({ c with count_ := c.count_ + 1 }, { t with pc := .total })
  | .total =>
    some ({ c with totalRTT_ := c.totalRTT_ + t.call.rtt }, { t with pc := .returned })
  | .returned => none

abbrev State := Counters × List Thread

/-- A new sample, and the calls that are going to be made. -/
def start (calls : List Call) : State := ({}, calls.map fun call => ⟨call, .drop⟩)

def step : State → Nat → Option State := Threads.step act

/-- What an atomic step can do, and when. -/
inductive Acts : Counters → Thread → Counters → Thread → Prop
  | drop {c : Counters} {call : Call} : call.drop = true →
      Acts c ⟨call, .drop⟩ { c with drop_ := 1 } ⟨call, .load⟩
  | noDrop {c : Counters} {call : Call} : call.drop = false →
      Acts c ⟨call, .drop⟩ c ⟨call, .load⟩
  | below {c : Counters} {call : Call} : c.maxInFlight_.toInt < call.inflight.toInt →
      Acts c ⟨call, .load⟩ c ⟨call, .exchange c.maxInFlight_⟩
  | enough {c : Counters} {call : Call} : call.inflight.toInt ≤ c.maxInFlight_.toInt →
      Acts c ⟨call, .load⟩ c ⟨call, .count⟩
  | exchanged {c : Counters} {call : Call} :
      Acts c ⟨call, .exchange c.maxInFlight_⟩ { c with maxInFlight_ := call.inflight }
        ⟨call, .count⟩
  | overtaken {c : Counters} {call : Call} {max : BitVec 64} : c.maxInFlight_ ≠ max →
      Acts c ⟨call, .exchange max⟩ c ⟨call, .load⟩
  | count {c : Counters} {call : Call} :
      Acts c ⟨call, .count⟩ { c with count_ := c.count_ + 1 } ⟨call, .total⟩
  | total {c : Counters} {call : Call} :
      Acts c ⟨call, .total⟩ { c with totalRTT_ := c.totalRTT_ + call.rtt } ⟨call, .returned⟩

theorem act_inv {c c' : Counters} {t t' : Thread} (h : act c t = some (c', t')) :
    Acts c t c' t' := by
  obtain ⟨call, pc⟩ := t
  cases pc with
  | drop =>
    cases hdrop : call.drop with
    | true =>
      simp only [act, hdrop, ↓reduceIte] at h
      cases h
      exact .drop hdrop
    | false =>
      simp only [act, hdrop] at h
      cases h
      exact .noDrop hdrop
  | load =>
    simp only [act] at h
    split at h <;> cases h
    · exact .below ‹_›
    · exact .enough (Int.not_lt.mp ‹_›)
  | exchange max =>
    simp only [act] at h
    split at h <;> cases h
    · subst max
      exact .exchanged
    · exact .overtaken ‹_›
  | count =>
    cases h
    exact .count
  | total =>
    cases h
    exact .total
  | returned => cases h

/-! ## One thread -/

/-- Behind the store to `drop_`. -/
def Pc.stored : Pc → Bool
  | .drop => false
  | _ => true

/-- Behind the loop. -/
def Pc.raised : Pc → Bool
  | .count | .total | .returned => true
  | _ => false

/-- What a thread knows of the counters. -/
structure Knows (c : Counters) (t : Thread) : Prop where
  drop : t.pc.stored = true → t.call.drop = true → c.drop_ = 1
  loaded : ∀ max, t.pc = .exchange max → max.toInt < t.call.inflight.toInt
  raised : t.pc.raised = true → t.call.inflight.toInt ≤ c.maxInFlight_.toInt

/-- The exchange replaces a value only by a greater one. -/
theorem maxInFlight_mono {c c' : Counters} {t t' : Thread} (h : act c t = some (c', t'))
    (ht : Knows c t) : c.maxInFlight_.toInt ≤ c'.maxInFlight_.toInt := by
  cases act_inv h with
  | exchanged => exact Int.le_of_lt (ht.loaded _ rfl)
  | _ => exact Int.le_refl _

theorem knows_own {c c' : Counters} {t t' : Thread} (h : act c t = some (c', t'))
    (ht : Knows c t) : Knows c' t' := by
  cases act_inv h with
  | drop hdrop => exact ⟨fun _ _ => rfl, nofun, nofun⟩
  | noDrop hdrop => exact ⟨fun _ hd => by simp [hdrop] at hd, nofun, nofun⟩
  | below hlt =>
    refine ⟨ht.drop, fun max hmax => ?_, nofun⟩
    cases hmax
    exact hlt
  | enough hle => exact ⟨ht.drop, nofun, fun _ => hle⟩
  | exchanged => exact ⟨ht.drop, nofun, fun _ => Int.le_refl _⟩
  | overtaken _ => exact ⟨ht.drop, nofun, nofun⟩
  | count => exact ⟨ht.drop, nofun, ht.raised⟩
  | total => exact ⟨ht.drop, nofun, ht.raised⟩

theorem knows_other {c c' : Counters} {t t' u : Thread} (h : act c t = some (c', t'))
    (ht : Knows c t) (hu : Knows c u) : Knows c' u where
  drop hs hd := by
    have hone := hu.drop hs hd
    cases act_inv h with
    | drop _ => rfl
    | _ => exact hone
  loaded := hu.loaded
  raised hr := (hu.raised hr).trans (maxInFlight_mono h ht)

/-! ## All threads -/

/-- The share of a thread in `count_` and in `totalRTT_`. -/
def counted (t : Thread) : BitVec 64 :=
  match t.pc with
  | .total | .returned => 1
  | _ => 0

def paid (t : Thread) : BitVec 64 :=
  match t.pc with
  | .returned => t.call.rtt
  | _ => 0

structure Inv (calls : List Call) (s : State) : Prop where
  calls_eq : s.2.map Thread.call = calls
  knows : ∀ t ∈ s.2, Knows s.1 t
  count_eq : s.1.count_ = (s.2.map counted).sum
  total_eq : s.1.totalRTT_ = (s.2.map paid).sum
  nonneg : 0 ≤ s.1.maxInFlight_.toInt
  attained : s.1.maxInFlight_ = 0 ∨ ∃ call ∈ calls, s.1.maxInFlight_ = call.inflight
  drop_eq : s.1.drop_ = 0 ∨ s.1.drop_ = 1 ∧ ∃ call ∈ calls, call.drop = true

theorem inv_start (calls : List Call) : Inv calls (start calls) where
  calls_eq := by simp [start, Function.comp_def]
  knows := by
    intro t ht
    obtain ⟨call, -, rfl⟩ := List.mem_map.mp ht
    exact ⟨nofun, nofun, nofun⟩
  count_eq := by simp [start, counted, Function.comp_def]
  total_eq := by simp [start, paid, Function.comp_def]
  nonneg := Int.le_refl 0
  attained := Or.inl rfl
  drop_eq := Or.inl rfl

/-- The sum of the shares follows a counter that has followed it so far. -/
theorem follows_sum {q : Counters → BitVec 64} {share : Thread → BitVec 64} {s s' : State}
    {i : Nat}
    (hact : ∀ c t c' t', act c t = some (c', t') → q c' + share t = q c + share t')
    (h : step s i = some s') (hs : q s.1 = (s.2.map share).sum) :
    q s'.1 = (s'.2.map share).sum := by
  have hsum := Threads.step_sum hact h
  rw [hs, add_comm] at hsum
  exact add_left_cancel hsum

theorem step_mono {calls : List Call} {s s' : State} {i : Nat} (hs : Inv calls s)
    (h : step s i = some s') : s.1.maxInFlight_.toInt ≤ s'.1.maxInFlight_.toInt := by
  obtain ⟨t, ht, t', hact⟩ := Threads.exists_act h
  exact maxInFlight_mono hact (hs.knows t ht)

theorem inv_step {calls : List Call} {s s' : State} {i : Nat} (hs : Inv calls s)
    (h : step s i = some s') : Inv calls s' where
  calls_eq := by
    refine Eq.trans (Threads.step_map (fun c t c' t' hact => ?_) h) hs.calls_eq
    cases act_inv hact <;> rfl
  knows := Threads.step_forall (fun _ _ _ _ => knows_own) (fun _ _ _ _ _ => knows_other) h hs.knows
  count_eq := by
    refine follows_sum (q := Counters.count_) (fun c t c' t' hact => ?_) h hs.count_eq
    cases act_inv hact <;> simp [counted]
  total_eq := by
    refine follows_sum (q := Counters.totalRTT_) (fun c t c' t' hact => ?_) h hs.total_eq
    cases act_inv hact <;> simp [paid]
  nonneg := hs.nonneg.trans (step_mono hs h)
  attained := by
    obtain ⟨t, ht, t', hact⟩ := Threads.exists_act h
    have hcall : t.call ∈ calls := hs.calls_eq ▸ List.mem_map_of_mem ht
    obtain ⟨c', ts'⟩ := s'
    cases act_inv hact with
    | exchanged => exact Or.inr ⟨_, hcall, rfl⟩
    | _ => exact hs.attained
  drop_eq := by
    obtain ⟨t, ht, t', hact⟩ := Threads.exists_act h
    have hcall : t.call ∈ calls := hs.calls_eq ▸ List.mem_map_of_mem ht
    obtain ⟨c', ts'⟩ := s'
    cases act_inv hact with
    | drop hdrop => exact Or.inr ⟨rfl, _, hcall, hdrop⟩
    | _ => exact hs.drop_eq

theorem inv_run {calls : List Call} {is : List Nat} {s : State}
    (h : run step (start calls) is = some s) : Inv calls s :=
  run_kept (fun _ _ _ => inv_step) is _ s (inv_start calls) h

/-! ## When all calls have returned -/

theorem sum_counted {ts : List Thread} (hret : ∀ t ∈ ts, t.pc = .returned) :
    (ts.map counted).sum = BitVec.ofNat 64 ts.length := by
  induction ts with
  | nil => rfl
  | cons t ts ih =>
    have ht : counted t = 1 := by rw [counted, hret t List.mem_cons_self]
    have hrest := ih fun u hu => hret u (List.mem_cons_of_mem t hu)
    rw [List.map_cons, List.sum_cons, ht, hrest, List.length_cons, BitVec.ofNat_add, add_comm]
    rfl

theorem sum_paid {ts : List Thread} (hret : ∀ t ∈ ts, t.pc = .returned) :
    (ts.map paid).sum = BitVec.ofInt 64 ((ts.map Thread.call).map fun c => c.rtt.toInt).sum := by
  induction ts with
  | nil => rfl
  | cons t ts ih =>
    have ht : paid t = t.call.rtt := by rw [paid, hret t List.mem_cons_self]
    have hrest := ih fun u hu => hret u (List.mem_cons_of_mem t hu)
    simp only [List.map_cons, List.sum_cons, ht, hrest, BitVec.ofInt_add, BitVec.ofInt_toInt]

theorem greatest_of_returned {calls : List Call} {s : State} (hs : Inv calls s)
    (hret : ∀ t ∈ s.2, t.pc = .returned) :
    IsGreatest (insert 0 {n | ∃ call ∈ calls, n = call.inflight.toInt})
      s.1.maxInFlight_.toInt := by
  constructor
  · rcases hs.attained with h | ⟨call, hcall, h⟩
    · rw [h]
      exact Or.inl rfl
    · rw [h]
      exact Or.inr ⟨call, hcall, rfl⟩
  · rintro n (rfl | ⟨call, hcall, rfl⟩)
    · exact hs.nonneg
    · rw [← hs.calls_eq] at hcall
      obtain ⟨t, ht, rfl⟩ := List.mem_map.mp hcall
      exact (hs.knows t ht).raised (by rw [hret t ht]; rfl)

theorem drop_of_returned {calls : List Call} {s : State} (hs : Inv calls s)
    (hret : ∀ t ∈ s.2, t.pc = .returned) :
    s.1.drop_ = if calls.any Call.drop then 1 else 0 := by
  by_cases hdrop : calls.any Call.drop = true
  · rw [if_pos hdrop]
    obtain ⟨call, hcall, hd⟩ := List.any_eq_true.mp hdrop
    rw [← hs.calls_eq] at hcall
    obtain ⟨t, ht, rfl⟩ := List.mem_map.mp hcall
    exact (hs.knows t ht).drop (by rw [hret t ht]; rfl) hd
  · rw [if_neg hdrop]
    rcases hs.drop_eq with h | ⟨-, call, hcall, hd⟩
    · exact h
    · exact absurd (List.any_eq_true.mpr ⟨call, hcall, hd⟩) hdrop

/-- **No call is lost.** Any number of calls are made on a new sample and their atomic steps
interleave in any way. `maxInFlight_` never falls. Once all calls have returned it is the
greatest of zero and the `inflight` arguments, `count_` is the number of calls and
`totalRTT_` the sum of the `rtt` arguments, both as an `int64_t` holds them, and `drop_` is
one if some call had `drop` set and zero otherwise. -/
theorem adds_not_lost (calls : List Call) (is : List Nat) (s : State)
    (h : run step (start calls) is = some s) :
    (∀ i s', step s i = some s' → s.1.maxInFlight_.toInt ≤ s'.1.maxInFlight_.toInt) ∧
    ((∀ t ∈ s.2, t.pc = .returned) →
      IsGreatest (insert 0 {n | ∃ call ∈ calls, n = call.inflight.toInt})
        s.1.maxInFlight_.toInt ∧
      s.1.count_ = BitVec.ofNat 64 calls.length ∧
      s.1.totalRTT_ = BitVec.ofInt 64 (calls.map fun call => call.rtt.toInt).sum ∧
      s.1.drop_ = if calls.any Call.drop then 1 else 0) := by
  have hs := inv_run h
  refine ⟨fun i s' => step_mono hs, fun hret => ?_⟩
  refine ⟨greatest_of_returned hs hret, ?_, ?_, drop_of_returned hs hret⟩
  · rw [hs.count_eq, sum_counted hret, ← hs.calls_eq, List.length_map]
  · rw [hs.total_eq, sum_paid hret, hs.calls_eq]

/-- Two calls that race for `maxInFlight_`. -/
def racing : List Call := [⟨5, 3, false⟩, ⟨BitVec.ofInt 64 (-2), 7, true⟩]

def raced : State := (⟨2, 7, 1, 3⟩, racing.map fun call => ⟨call, .returned⟩)

/-- Both calls load zero, the greater value is stored first, and the exchange of the other
call fails; it loads again and finds enough. -/
theorem adds_not_lost_race :
    run step (start racing) [0, 1, 0, 1, 1, 0, 0, 1, 0, 1, 0] = some raced ∧
      IsGreatest (insert 0 {n | ∃ call ∈ racing, n = call.inflight.toInt})
        raced.1.maxInFlight_.toInt ∧
      raced.1.count_ = BitVec.ofNat 64 racing.length ∧
      raced.1.totalRTT_ = BitVec.ofInt 64 (racing.map fun call => call.rtt.toInt).sum ∧
      raced.1.drop_ = if racing.any Call.drop then 1 else 0 := by
  have hrun : run step (start racing) [0, 1, 0, 1, 1, 0, 0, 1, 0, 1, 0] = some raced := by decide
  exact ⟨hrun, (adds_not_lost racing _ raced hrun).2 (by decide)⟩

/-! ## One after the other -/

/-- The calls as `Sample.Add` takes them. -/
def addAll (sample : Sample) : List Call → Sample
  | [] => sample
  | call :: calls => addAll (sample.Add call.rtt.toInt call.inflight.toInt call.drop) calls

theorem addAll_count (calls : List Call) (sample : Sample) :
    (addAll sample calls).count_ = sample.count_ + calls.length := by
  induction calls generalizing sample with
  | nil => simp [addAll]
  | cons call calls ih =>
    simp only [addAll, ih, Sample.Add, List.length_cons]
    omega

theorem addAll_total (calls : List Call) (sample : Sample) :
    (addAll sample calls).totalRTT_ =
      sample.totalRTT_ + (calls.map fun call => call.rtt.toInt).sum := by
  induction calls generalizing sample with
  | nil => simp [addAll]
  | cons call calls ih =>
    simp only [addAll, ih, Sample.Add, List.map_cons, List.sum_cons]
    omega

theorem addAll_drop (calls : List Call) (sample : Sample) :
    (addAll sample calls).drop_ = if calls.any Call.drop then 1 else sample.drop_ := by
  induction calls generalizing sample with
  | nil => rfl
  | cons call calls ih =>
    rw [addAll, ih, Sample.Add, List.any_cons]
    cases call.drop <;> simp

theorem addAll_greatest (calls : List Call) (sample : Sample) :
    IsGreatest (insert sample.maxInFlight_ {n | ∃ call ∈ calls, n = call.inflight.toInt})
      (addAll sample calls).maxInFlight_ := by
  induction calls generalizing sample with
  | nil => simp [addAll]
  | cons call calls ih =>
    obtain ⟨hmem, hle⟩ := ih (sample.Add call.rtt.toInt call.inflight.toInt call.drop)
    rw [addAll]
    have hmax := hle (Set.mem_insert _ _)
    constructor
    · rcases hmem with h | ⟨c, hc, h⟩
      · rw [h]
        rcases max_choice sample.maxInFlight_ call.inflight.toInt with h' | h'
        · exact Or.inl h'
        · exact Or.inr ⟨call, List.mem_cons_self, h'⟩
      · exact Or.inr ⟨c, List.mem_cons_of_mem _ hc, h⟩
    · rintro n (rfl | ⟨c, hc, rfl⟩)
      · exact (le_max_left _ _).trans hmax
      · rcases List.mem_cons.mp hc with rfl | hc
        · exact (le_max_right _ _).trans hmax
        · exact hle (Or.inr ⟨c, hc, rfl⟩)

/-- **Concurrent calls are calls one after the other.** As long as the number of calls and
the sum of their times fit in an `int64_t`, the counters are those that `Sample.Add` leaves
when the calls are made in a row. -/
theorem adds_sequential {calls : List Call} {is : List Nat} {s : State}
    (h : run step (start calls) is = some s) (hret : ∀ t ∈ s.2, t.pc = .returned)
    (hcount : calls.length < 2 ^ 63) (hlow : -2 ^ 63 ≤ (calls.map fun call => call.rtt.toInt).sum)
    (hup : (calls.map fun call => call.rtt.toInt).sum < 2 ^ 63) :
    (⟨s.1.count_.toInt, s.1.maxInFlight_.toInt, s.1.drop_.toInt, s.1.totalRTT_.toInt⟩ : Sample) =
      addAll {} calls := by
  have hs := inv_run h
  have hcount_ : s.1.count_.toInt = (addAll {} calls).count_ := by
    rw [hs.count_eq, sum_counted hret, ← List.length_map, hs.calls_eq, ← BitVec.ofInt_natCast,
      BitVec.toInt_ofInt_eq_self (by decide) (by omega) (by omega), addAll_count]
    exact (Int.zero_add _).symm
  have htotal : s.1.totalRTT_.toInt = (addAll {} calls).totalRTT_ := by
    rw [hs.total_eq, sum_paid hret, hs.calls_eq,
      BitVec.toInt_ofInt_eq_self (by decide) hlow hup, addAll_total]
    exact (Int.zero_add _).symm
  have hdrop : s.1.drop_.toInt = (addAll {} calls).drop_ := by
    rw [drop_of_returned hs hret, addAll_drop]
    split <;> rfl
  have hmax := (greatest_of_returned hs hret).unique (addAll_greatest calls {})
  rw [hcount_, htotal, hdrop, hmax]

/-! ## No call waits for another -/

/-- The call returns in at most `n` steps if no other one acts. -/
inductive ReturnsAlone : Nat → Counters → Thread → Prop
  | returned {n : Nat} {c : Counters} {call : Call} : ReturnsAlone n c ⟨call, .returned⟩
  | act {n : Nat} {c c' : Counters} {t t' : Thread} : act c t = some (c', t') →
      ReturnsAlone n c' t' → ReturnsAlone (n + 1) c t

theorem returnsAlone_count (n : Nat) (c : Counters) (call : Call) :
    ReturnsAlone (n + 2) c ⟨call, .count⟩ :=
  .act rfl (.act rfl .returned)

/-- The exchange behind a load of its own succeeds. -/
theorem returnsAlone_load (n : Nat) (c : Counters) (call : Call) :
    ReturnsAlone (n + 4) c ⟨call, .load⟩ := by
  by_cases hlt : c.maxInFlight_.toInt < call.inflight.toInt
  · have hload : Adds.act c ⟨call, .load⟩ = some (c, ⟨call, .exchange c.maxInFlight_⟩) := by
      simp only [Adds.act, if_pos hlt]
    have hexchange : Adds.act c ⟨call, .exchange c.maxInFlight_⟩ =
        some ({ c with maxInFlight_ := call.inflight }, ⟨call, .count⟩) := by
      simp only [Adds.act, ↓reduceIte]
    exact .act hload (.act hexchange (returnsAlone_count n _ call))
  · have hload : Adds.act c ⟨call, .load⟩ = some (c, ⟨call, .count⟩) := by
      simp only [Adds.act, if_neg hlt]
    exact .act hload (returnsAlone_count (n + 1) c call)

theorem returnsAlone_five (c : Counters) (t : Thread) : ReturnsAlone 5 c t := by
  obtain ⟨call, pc⟩ := t
  cases pc with
  | drop => exact .act rfl (returnsAlone_load 0 _ call)
  | load => exact returnsAlone_load 1 c call
  | exchange max =>
    by_cases hmax : c.maxInFlight_ = max
    · have hexchange : Adds.act c ⟨call, .exchange max⟩ =
          some ({ c with maxInFlight_ := call.inflight }, ⟨call, .count⟩) := by
        simp only [Adds.act, if_pos hmax]
      exact .act hexchange (returnsAlone_count 2 _ call)
    · have hexchange : Adds.act c ⟨call, .exchange max⟩ = some (c, ⟨call, .load⟩) := by
        simp only [Adds.act, if_neg hmax]
      exact .act hexchange (returnsAlone_load 0 c call)
  | count => exact returnsAlone_count 3 c call
  | total => exact .act rfl .returned
  | returned => exact .returned

theorem run_of_returnsAlone {n : Nat} {c : Counters} {t : Thread} (h : ReturnsAlone n c t)
    (before behind : List Thread) :
    ∃ k ≤ n, ∃ c', run step (c, before ++ t :: behind) (List.replicate k before.length) =
      some (c', before ++ ⟨t.call, .returned⟩ :: behind) := by
  induction h with
  | returned => exact ⟨0, Nat.zero_le _, _, rfl⟩
  | @act n c c₁ t t₁ hact _ ih =>
    obtain ⟨k, hk, c', hrun⟩ := ih
    have hcall : t₁.call = t.call := by cases act_inv hact <;> rfl
    rw [hcall] at hrun
    refine ⟨k + 1, Nat.succ_le_succ hk, c', ?_⟩
    rw [List.replicate_succ, run_cons_eq_some]
    exact ⟨_, Threads.step_at hact before behind, hrun⟩

/-- **A call left alone returns.** From every state, wherever the other calls stand, a call
returns in at most five steps of its own if no other one acts meanwhile. -/
theorem run_alone (c : Counters) (before behind : List Thread) (t : Thread) :
    ∃ k ≤ 5, ∃ c', run step (c, before ++ t :: behind) (List.replicate k before.length) =
      some (c', before ++ ⟨t.call, .returned⟩ :: behind) :=
  run_of_returnsAlone (returnsAlone_five c t) before behind

end Cppim.Rate.Adds
