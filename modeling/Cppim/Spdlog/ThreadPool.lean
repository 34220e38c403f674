import Cppim.Lib.Threads
import Cppim.Spdlog.CircularQ

/-! `spdlog/details/mpmc_blocking_q.h` and `thread_pool.h`: how a log message gets from the
thread that logs it to the sinks.

Any number of threads post messages, and the workers of the pool take them. A step is a
section under the mutex, a notification, or the handling of a message; a thread that waits
for a condition sleeps until it is notified, or wakes up for no reason, or after ten seconds.
`messages_in_order`, `pool_drains` and `pool_shutdown` say that no message is lost, that no
wake-up is, and what the destructor waits for. -/

namespace Cppim.Spdlog.ThreadPool

open Cppim.Lib.Threads Cppim.Lib.Transition

/-! ## The threads -/

/-- `async_msg`, of which only a log message has a content. -/
inductive AsyncMsg (μ : Type) where
  | log (msg : μ)
  | flush
  | terminate
  deriving Repr, DecidableEq, Inhabited

/-- Where a thread stands in `enqueue`. -/
inductive Stage where
  /-- in front of the mutex -/
  | enter
  /-- `pop_cv_.wait` -/
  | asleep
  /-- woken up, in front of the mutex -/
  | woken
  /-- in front of `push_cv_.notify_one` -/
  | notify
  | returned
  deriving Repr, DecidableEq

/-- A call of `post_async_msg_` with the policy `block`. -/
structure Call (μ : Type) where
  msg : AsyncMsg μ
  stage : Stage := .enter
  deriving Repr, DecidableEq

/-- Where a worker stands in `process_next_msg_`. -/
inductive Worker (μ : Type) where
  /-- in front of the mutex -/
  | enter
  /-- `push_cv_.wait_for` -/
  | asleep
  /-- woken up, in front of the mutex -/
  | woken
  /-- the ten seconds are over, in front of the mutex -/
  | late
  /-- in front of `pop_cv_.notify_one` -/
  | notify (msg : AsyncMsg μ)
  /-- `dequeue_for` has returned the message -/
  | handle (msg : AsyncMsg μ)
  | ended
  deriving Repr, DecidableEq

variable {μ : Type}

/-- `queued`, `taken` and `handled` are a record that no step reads. -/
structure State (μ : Type) where
  q_ : CircularQ (AsyncMsg μ)
  calls : List (Call μ) := []
  workers : List (Worker μ)
  /-- the messages, in the order in which they were pushed -/
  queued : List (AsyncMsg μ) := []
  /-- the messages, in the order in which they were popped, each with its worker -/
  taken : List (Nat × AsyncMsg μ) := []
  handled : List (Nat × AsyncMsg μ) := []
  deriving Repr, DecidableEq

/-- `thread_pool(q_max_items, threads_n)` -/
def start (q_max_items threads_n : Nat) : State μ where
  q_ := .ofSize q_max_items
  workers := List.replicate threads_n .enter

inductive Label (μ : Type) where
  | post (msg : AsyncMsg μ)
  /-- the section of `enqueue` -/
  | enqueue (i : Nat)
  /-- `push_cv_.notify_one`, which wakes up a worker if one sleeps -/
  | notifyPush (i : Nat) (w : Option Nat)
  /-- the section of `dequeue_for` -/
  | dequeue (w : Nat)
  /-- `pop_cv_.notify_one`, which wakes up a thread in `enqueue` if one sleeps -/
  | notifyPop (w : Nat) (i : Option Nat)
  | handle (w : Nat)
  /-- a thread in `enqueue` wakes up for no reason -/
  | spuriousCall (i : Nat)
  | spuriousWorker (w : Nat)
  | timeout (w : Nat)
  deriving Repr, DecidableEq

/-- A thread goes on by itself. -/
def Label.own : Label μ → Bool
  | .enqueue _ | .notifyPush _ _ | .dequeue _ | .notifyPop _ _ | .handle _ => true
  | .post _ | .spuriousCall _ | .spuriousWorker _ | .timeout _ => false

/-! ## The steps -/

/-- `enqueue`, with the mutex. -/
def enqueue (st : State μ) (i : Nat) (msg : AsyncMsg μ) : State μ :=
  if st.q_.full then { st with calls := st.calls.set i ⟨msg, .asleep⟩ }
  else
    { st with
      q_ := st.q_.pushBack msg
      calls := st.calls.set i ⟨msg, .notify⟩
      queued := st.queued ++ [msg] }

/-- `dequeue_for`, with the mutex. On an empty queue `process_next_msg_` begins again if the
time is over. -/
def dequeue (st : State μ) (w : Nat) (late : Bool) : State μ :=
  if st.q_.empty then
    { st with workers := st.workers.set w (if late then .enter else .asleep) }
  else
    { st with
      q_ := st.q_.popFront.1
      workers := st.workers.set w (.notify st.q_.popFront.2)
      taken := st.taken ++ [(w, st.q_.popFront.2)] }

namespace Worker

def sleeps : Worker μ → Nat
  | asleep => 1
  | _ => 0

def wakes : Worker μ → Nat
  | woken | late => 1
  | _ => 0

def notifies : Worker μ → Nat
  | notify _ => 1
  | _ => 0

/-- The message that the worker has in its hands. -/
def holds : Worker μ → List (AsyncMsg μ)
  | notify msg | handle msg => [msg]
  | _ => []

/-- The worker has ended, or is going to. -/
def leaves : Worker μ → Nat
  | ended | notify .terminate | handle .terminate => 1
  | _ => 0

end Worker

namespace Call

def sleeps (c : Call μ) : Nat := if c.stage = .asleep then 1 else 0

def wakes (c : Call μ) : Nat := if c.stage = .woken then 1 else 0

def notifies (c : Call μ) : Nat := if c.stage = .notify then 1 else 0

end Call

/-- One of the workers that sleep is woken up, or there is none. -/
def wakeWorker (st : State μ) : Option Nat → Option (State μ)
  | some w =>
    match st.workers[w]? with
    | some .asleep => some { st with workers := st.workers.set w .woken }
    | _ => none
  | none => if tally Worker.sleeps st.workers = 0 then some st else none

/-- One of the threads that sleep in `enqueue` is woken up, or there is none. -/
def wakeCall (st : State μ) : Option Nat → Option (State μ)
  | some i =>
    match st.calls[i]? with
    | some ⟨msg, .asleep⟩ => some { st with calls := st.calls.set i ⟨msg, .woken⟩ }
    | _ => none
  | none => if tally Call.sleeps st.calls = 0 then some st else none

/-- `process_next_msg_` tells `worker_loop_` whether to go on. -/
def next : AsyncMsg μ → Worker μ
  | .terminate => .ended
  | .log _ | .flush => .enter

def step (st : State μ) : Label μ → Option (State μ)
  | .post msg => some { st with calls := st.calls ++ [{ msg := msg }] }
  | .enqueue i =>
    match st.calls[i]? with
    | some ⟨msg, .enter⟩ | some ⟨msg, .woken⟩ => some (enqueue st i msg)
    | _ => none
  | .notifyPush i w =>
    match st.calls[i]? with
    | some ⟨msg, .notify⟩ => wakeWorker { st with calls := st.calls.set i ⟨msg, .returned⟩ } w
    | _ => none
  | .dequeue w =>
    match st.workers[w]? with
    | some .enter | some .woken => some (dequeue st w false)
    | some .late => some (dequeue st w true)
    | _ => none
  | .notifyPop w i =>
    match st.workers[w]? with
    | some (.notify msg) => wakeCall { st with workers := st.workers.set w (.handle msg) } i
    | _ => none
  | .handle w =>
    match st.workers[w]? with
    | some (.handle msg) =>
      some { st with
        workers := st.workers.set w (next msg)
        handled := st.handled ++ [(w, msg)] }
    | _ => none
  | .spuriousCall i => wakeCall st (some i)
  | .spuriousWorker w => wakeWorker st (some w)
  | .timeout w =>
    match st.workers[w]? with
    | some .asleep => some { st with workers := st.workers.set w .late }
    | _ => none

/-- The steps, one constructor for each way in which a step is taken. -/
inductive Step (st : State μ) : Label μ → State μ → Prop
  | post (msg : AsyncMsg μ) : Step st (.post msg) { st with calls := st.calls ++ [{ msg := msg }] }
  | wait (i : Nat) (c : Call μ) (hc : st.calls[i]? = some c)
      (hstage : c.stage = .enter ∨ c.stage = .woken) (hfull : st.q_.full = true) :
    Step st (.enqueue i) { st with calls := st.calls.set i ⟨c.msg, .asleep⟩ }
  | push (i : Nat) (c : Call μ) (hc : st.calls[i]? = some c)
      (hstage : c.stage = .enter ∨ c.stage = .woken) (hroom : st.q_.full = false) :
    Step st (.enqueue i) { st with
      q_ := st.q_.pushBack c.msg
      calls := st.calls.set i ⟨c.msg, .notify⟩
      queued := st.queued ++ [c.msg] }
  | notifyPush (i w : Nat) (c : Call μ) (hc : st.calls[i]? = some c) (hstage : c.stage = .notify)
      (hw : st.workers[w]? = some .asleep) :
    Step st (.notifyPush i (some w)) { st with
      calls := st.calls.set i ⟨c.msg, .returned⟩
      workers := st.workers.set w .woken }
  | notifyNone (i : Nat) (c : Call μ) (hc : st.calls[i]? = some c) (hstage : c.stage = .notify)
      (hnone : tally Worker.sleeps st.workers = 0) :
    Step st (.notifyPush i none) { st with calls := st.calls.set i ⟨c.msg, .returned⟩ }
  | doze (w : Nat) (t : Worker μ) (hw : st.workers[w]? = some t) (ht : t = .enter ∨ t = .woken)
      (hempty : st.q_.empty = true) :
    Step st (.dequeue w) { st with workers := st.workers.set w .asleep }
  | again (w : Nat) (hw : st.workers[w]? = some .late) (hempty : st.q_.empty = true) :
    Step st (.dequeue w) { st with workers := st.workers.set w .enter }
  | pop (w : Nat) (t : Worker μ) (hw : st.workers[w]? = some t)
      (ht : t = .enter ∨ t = .woken ∨ t = .late) (hsome : st.q_.empty = false) :
    Step st (.dequeue w) { st with
      q_ := st.q_.popFront.1
      workers := st.workers.set w (.notify st.q_.popFront.2)
      taken := st.taken ++ [(w, st.q_.popFront.2)] }
  | notifyPop (w i : Nat) (msg : AsyncMsg μ) (c : Call μ) (hw : st.workers[w]? = some (.notify msg))
      (hc : st.calls[i]? = some c) (hstage : c.stage = .asleep) :
    Step st (.notifyPop w (some i)) { st with
      workers := st.workers.set w (.handle msg)
      calls := st.calls.set i ⟨c.msg, .woken⟩ }
  | notifyNobody (w : Nat) (msg : AsyncMsg μ) (hw : st.workers[w]? = some (.notify msg))
      (hnone : tally Call.sleeps st.calls = 0) :
    Step st (.notifyPop w none) { st with workers := st.workers.set w (.handle msg) }
  | handle (w : Nat) (msg : AsyncMsg μ) (hw : st.workers[w]? = some (.handle msg)) :
    Step st (.handle w) { st with
      workers := st.workers.set w (next msg)
      handled := st.handled ++ [(w, msg)] }
  | spuriousCall (i : Nat) (c : Call μ) (hc : st.calls[i]? = some c) (hstage : c.stage = .asleep) :
    Step st (.spuriousCall i) { st with calls := st.calls.set i ⟨c.msg, .woken⟩ }
  | spuriousWorker (w : Nat) (hw : st.workers[w]? = some .asleep) :
    Step st (.spuriousWorker w) { st with workers := st.workers.set w .woken }
  | timeout (w : Nat) (hw : st.workers[w]? = some .asleep) :
    Step st (.timeout w) { st with workers := st.workers.set w .late }

theorem step_inv_enqueue {st : State μ} {i : Nat} {c : Call μ} (hc : st.calls[i]? = some c)
    (hstage : c.stage = .enter ∨ c.stage = .woken) : Step st (.enqueue i) (enqueue st i c.msg) := by
  unfold enqueue
  split <;> rename_i hfull
  · exact .wait i c hc hstage hfull
  · exact .push i c hc hstage (Bool.eq_false_of_not_eq_true hfull)

theorem step_inv_dequeue {st : State μ} {w : Nat} {t : Worker μ} {late : Bool}
    (hw : st.workers[w]? = some t)
    (ht : late = false ∧ (t = .enter ∨ t = .woken) ∨ late = true ∧ t = .late) :
    Step st (.dequeue w) (dequeue st w late) := by
  unfold dequeue
  split <;> rename_i hempty
  · rcases ht with ⟨rfl, ht⟩ | ⟨rfl, rfl⟩
    · exact .doze w t hw ht hempty
    · exact .again w hw hempty
  · refine .pop w t hw ?_ (Bool.eq_false_of_not_eq_true hempty)
    rcases ht with ⟨-, ht | ht⟩ | ⟨-, ht⟩ <;> simp [ht]

theorem step_inv {st st' : State μ} {l : Label μ} (h : step st l = some st') : Step st l st' := by
  cases l with
  | post msg =>
    cases h
    exact .post msg
  | enqueue i =>
    simp only [step] at h
    split at h
    · cases h
      exact step_inv_enqueue ‹_› (Or.inl rfl)
    · cases h
      exact step_inv_enqueue ‹_› (Or.inr rfl)
    · cases h
  | notifyPush i w =>
    simp only [step] at h
    split at h
    · cases w with
      | none =>
        simp only [wakeWorker] at h
        split at h <;> cases h
        exact .notifyNone i _ ‹_› rfl ‹_›
      | some w =>
        simp only [wakeWorker] at h
        split at h <;> cases h
        exact .notifyPush i w _ ‹_› rfl ‹_›
    · cases h
  | dequeue w =>
    simp only [step] at h
    split at h
    · cases h
      exact step_inv_dequeue ‹_› (Or.inl ⟨rfl, Or.inl rfl⟩)
    · cases h
      exact step_inv_dequeue ‹_› (Or.inl ⟨rfl, Or.inr rfl⟩)
    · cases h
      exact step_inv_dequeue ‹_› (Or.inr ⟨rfl, rfl⟩)
    · cases h
  | notifyPop w i =>
    simp only [step] at h
    split at h
    · cases i with
      | none =>
        simp only [wakeCall] at h
        split at h <;> cases h
        exact .notifyNobody w _ ‹_› ‹_›
      | some i =>
        simp only [wakeCall] at h
        split at h <;> cases h
        exact .notifyPop w i _ _ ‹_› ‹_› rfl
    · cases h
  | handle w =>
    simp only [step] at h
    split at h <;> cases h
    exact .handle w _ ‹_›
  | spuriousCall i =>
    simp only [step, wakeCall] at h
    split at h <;> cases h
    exact .spuriousCall i _ ‹_› rfl
  | spuriousWorker w =>
    simp only [step, wakeWorker] at h
    split at h <;> cases h
    exact .spuriousWorker w ‹_›
  | timeout w =>
    simp only [step] at h
    split at h <;> cases h
    exact .timeout w ‹_›

/-! ## The invariant -/

/-- What a worker has taken, or handled. -/
def ofWorker (w : Nat) (ms : List (Nat × AsyncMsg μ)) : List (AsyncMsg μ) :=
  (ms.filter (·.1 = w)).map Prod.snd

def isTerminate : AsyncMsg μ → Bool
  | .terminate => true
  | .log _ | .flush => false

/-- `n` messages fit into the queue, and there are `k` workers. In `calls` and `workers` it
says that whoever sleeps without need is going to be woken up: beside `woken` threads, each
free place of the queue and each message in it has a thread that is about to notify. -/
structure Inv (n k : Nat) (st : State μ) : Prop where
  size : st.q_.max_items_ = n + 1
  threads : st.workers.length = k
  overrun : st.q_.overrun_counter_ = 0
  order : st.queued = st.taken.map Prod.snd ++ st.q_.content
  known : ∀ p ∈ st.taken, p.1 < k
  hands : ∀ w t, st.workers[w]? = some t →
    ofWorker w st.taken = ofWorker w st.handled ++ t.holds
  left : (st.taken.map Prod.snd).countP isTerminate = tally Worker.leaves st.workers
  calls : 0 < tally Call.sleeps st.calls →
    n ≤ st.q_.content.length + tally Call.wakes st.calls + tally Worker.notifies st.workers
  workers : 0 < tally Worker.sleeps st.workers →
    st.q_.content.length ≤ tally Worker.wakes st.workers + tally Call.notifies st.calls

@[simp] theorem ofWorker_append (w : Nat) (as bs : List (Nat × AsyncMsg μ)) :
    ofWorker w (as ++ bs) = ofWorker w as ++ ofWorker w bs := by
  simp [ofWorker]

theorem ofWorker_singleton (w v : Nat) (msg : AsyncMsg μ) :
    ofWorker w [(v, msg)] = if v = w then [msg] else [] := by
  by_cases h : v = w <;> simp [ofWorker, h]

theorem content_ofSize (n : Nat) : (CircularQ.ofSize n : CircularQ (AsyncMsg μ)).content = [] :=
  (CircularQ.empty_iff _).mp (decide_eq_true rfl)

theorem inv_start (n k : Nat) : Inv n k (start n k : State μ) := by
  have hworkers : ∀ t ∈ (start n k : State μ).workers, t = .enter := fun t ht =>
    List.eq_of_mem_replicate ht
  have htally : ∀ f : Worker μ → Nat, f .enter = 0 → tally f (start n k : State μ).workers = 0 :=
    fun f hf => tally_eq_zero fun t ht => by rw [hworkers t ht, hf]
  refine ⟨rfl, List.length_replicate, rfl, ?_, by simp [start], ?_, ?_, by simp [start], ?_⟩
  · exact (content_ofSize n).symm
  · intro w t hw
    rw [hworkers t (List.mem_of_getElem? hw)]
    rfl
  · exact (htally Worker.leaves rfl).symm
  · rw [htally Worker.sleeps rfl]
    exact fun h => absurd h (Nat.lt_irrefl 0)

namespace Inv

variable {n k : Nat} {st : State μ}

theorem full_iff (h : Inv n k st) : st.q_.full = true ↔ st.q_.content.length = n := by
  rw [CircularQ.full_iff, h.size]
  omega

/-- A worker that goes on with the same message in its hands. -/
theorem hands_set (h : Inv n k st) {w : Nat} {t t' : Worker μ} (hw : st.workers[w]? = some t)
    (hholds : t'.holds = t.holds) : ∀ v u, (st.workers.set w t')[v]? = some u →
      ofWorker v st.taken = ofWorker v st.handled ++ u.holds := by
  intro v u hu
  rw [List.getElem?_set] at hu
  split at hu
  · rename_i hv
    split at hu
    · cases hu
      rw [hholds, ← hv]
      exact h.hands w t hw
    · cases hu
  · exact h.hands v u hu

theorem post (h : Inv n k st) (msg : AsyncMsg μ) :
    Inv n k { st with calls := st.calls ++ [{ msg := msg }] } := by
  refine ⟨h.size, h.threads, h.overrun, h.order, h.known, h.hands, h.left, ?_, ?_⟩
  · simpa [Call.sleeps, Call.wakes] using h.calls
  · simpa [Call.notifies] using h.workers

theorem wait (h : Inv n k st) {i : Nat} {c : Call μ} (hc : st.calls[i]? = some c)
    (hstage : c.stage = .enter ∨ c.stage = .woken) (hfull : st.q_.full = true) :
    Inv n k { st with calls := st.calls.set i ⟨c.msg, .asleep⟩ } := by
  have hlength := h.full_iff.mp hfull
  have hnotifies : tally Call.notifies (st.calls.set i ⟨c.msg, .asleep⟩) =
      tally Call.notifies st.calls :=
    tally_set_of_eq hc (by rcases hstage with hs | hs <;> simp [Call.notifies, hs])
  refine ⟨h.size, h.threads, h.overrun, h.order, h.known, h.hands, h.left, ?_, ?_⟩
  · intro _
    show n ≤ st.q_.content.length + _ + _
    omega
  · show _ → _ ≤ _ + tally Call.notifies (st.calls.set i ⟨c.msg, .asleep⟩)
    rw [hnotifies]
    exact h.workers

theorem push (h : Inv n k st) {i : Nat} {c : Call μ} (hc : st.calls[i]? = some c)
    (hstage : c.stage = .enter ∨ c.stage = .woken) (hroom : st.q_.full = false) :
    Inv n k { st with
      q_ := st.q_.pushBack c.msg
      calls := st.calls.set i ⟨c.msg, .notify⟩
      queued := st.queued ++ [c.msg] } := by
  have hcontent : (st.q_.pushBack c.msg).content = st.q_.content ++ [c.msg] := by
    rw [CircularQ.content_pushBack, if_neg (by rw [hroom]; decide), List.drop_zero]
  have hsleeps := tally_set (f := Call.sleeps) hc ⟨c.msg, .notify⟩
  have hwakes := tally_set (f := Call.wakes) hc ⟨c.msg, .notify⟩
  have hnotifies := tally_set (f := Call.notifies) hc ⟨c.msg, .notify⟩
  refine ⟨?_, h.threads, ?_, ?_, h.known, h.hands, h.left, ?_, ?_⟩
  · exact (CircularQ.max_items_pushBack ..).trans h.size
  · rw [CircularQ.overrun_counter_pushBack, if_neg (by rw [hroom]; decide)]
    exact h.overrun
  · show st.queued ++ [c.msg] = _ ++ (st.q_.pushBack c.msg).content
    rw [hcontent, h.order, List.append_assoc]
  · have hcalls := h.calls
    simp only [hcontent, List.length_append, List.length_singleton]
    rcases hstage with hs | hs <;> simp [Call.sleeps, Call.wakes, hs] at hsleeps hwakes <;> omega
  · have hworkers := h.workers
    simp only [hcontent, List.length_append, List.length_singleton]
    rcases hstage with hs | hs <;> simp [Call.notifies, hs] at hnotifies <;> omega

/-- A worker goes on, and the queue stays as it is. -/
theorem advance (h : Inv n k st) {w : Nat} {t t' : Worker μ} (hw : st.workers[w]? = some t)
    (hholds : t'.holds = t.holds) (hleaves : t'.leaves = t.leaves)
    (hnotifies : t'.notifies = t.notifies)
    (hsleeps : 0 < tally Worker.sleeps (st.workers.set w t') →
      st.q_.content.length ≤ tally Worker.wakes (st.workers.set w t') +
        tally Call.notifies st.calls) :
    Inv n k { st with workers := st.workers.set w t' } := by
  refine ⟨h.size, (List.length_set ..).trans h.threads, h.overrun, h.order, h.known,
    h.hands_set hw hholds, ?_, ?_, hsleeps⟩
  · exact h.left.trans (tally_set_of_eq hw hleaves).symm
  · show _ → n ≤ _ + tally Worker.notifies (st.workers.set w t')
    rw [tally_set_of_eq hw hnotifies]
    exact h.calls

theorem woken (h : Inv n k st) {w : Nat} (hw : st.workers[w]? = some .asleep) {t : Worker μ}
    (ht : t = .woken ∨ t = .late) : Inv n k { st with workers := st.workers.set w t } := by
  have hsleeps := tally_set (f := Worker.sleeps) hw t
  have hwakes := tally_set (f := Worker.wakes) hw t
  have hworkers := h.workers
  refine h.advance hw ?_ ?_ ?_ ?_
  · rcases ht with rfl | rfl <;> rfl
  · rcases ht with rfl | rfl <;> rfl
  · rcases ht with rfl | rfl <;> rfl
  · rcases ht with rfl | rfl <;> simp only [Worker.sleeps, Worker.wakes] at hsleeps hwakes <;> omega

theorem wokenCall (h : Inv n k st) {i : Nat} {c : Call μ} (hc : st.calls[i]? = some c)
    (hstage : c.stage = .asleep) : Inv n k { st with calls := st.calls.set i ⟨c.msg, .woken⟩ } := by
  have hsleeps := tally_set (f := Call.sleeps) hc ⟨c.msg, .woken⟩
  have hwakes := tally_set (f := Call.wakes) hc ⟨c.msg, .woken⟩
  have hnotifies : tally Call.notifies (st.calls.set i ⟨c.msg, .woken⟩) =
      tally Call.notifies st.calls := tally_set_of_eq hc (by simp [Call.notifies, hstage])
  have hcalls := h.calls
  refine ⟨h.size, h.threads, h.overrun, h.order, h.known, h.hands, h.left, ?_, ?_⟩
  · simp [Call.sleeps, Call.wakes, hstage] at hsleeps hwakes
    dsimp only
    omega
  · show _ → _ ≤ _ + tally Call.notifies (st.calls.set i ⟨c.msg, .woken⟩)
    rw [hnotifies]
    exact h.workers

/-- A thread returns from `enqueue`; the worker that it has woken up stands for it. -/
theorem returned (h : Inv n k st) {i : Nat} {c : Call μ} (hc : st.calls[i]? = some c)
    (hstage : c.stage = .notify) {workers : List (Worker μ)}
    (hthreads : workers.length = k)
    (hhands : ∀ w t, workers[w]? = some t → ofWorker w st.taken = ofWorker w st.handled ++ t.holds)
    (hleaves : tally Worker.leaves workers = tally Worker.leaves st.workers)
    (hnotifies : tally Worker.notifies workers = tally Worker.notifies st.workers)
    (hsleeps : 0 < tally Worker.sleeps workers → 0 < tally Worker.sleeps st.workers ∧
      tally Worker.wakes workers = tally Worker.wakes st.workers + 1) :
    Inv n k { st with calls := st.calls.set i ⟨c.msg, .returned⟩, workers := workers } := by
  have hcalls := tally_set (f := Call.notifies) hc ⟨c.msg, .returned⟩
  have hone : tally Call.sleeps (st.calls.set i ⟨c.msg, .returned⟩) = tally Call.sleeps st.calls :=
    tally_set_of_eq hc (by simp [Call.sleeps, hstage])
  have htwo : tally Call.wakes (st.calls.set i ⟨c.msg, .returned⟩) = tally Call.wakes st.calls :=
    tally_set_of_eq hc (by simp [Call.wakes, hstage])
  refine ⟨h.size, hthreads, h.overrun, h.order, h.known, hhands, h.left.trans hleaves.symm, ?_, ?_⟩
  · show 0 < tally Call.sleeps (st.calls.set i ⟨c.msg, .returned⟩) → n ≤ _ +
      tally Call.wakes (st.calls.set i ⟨c.msg, .returned⟩) + tally Worker.notifies workers
    rw [hone, htwo, hnotifies]
    exact h.calls
  · intro hs
    obtain ⟨hbefore, hwakes⟩ := hsleeps hs
    have hworkers := h.workers hbefore
    simp [Call.notifies, hstage] at hcalls
    dsimp only
    omega

/-- A worker takes the next message. -/
theorem pop (h : Inv n k st) {w : Nat} {t : Worker μ} (hw : st.workers[w]? = some t)
    (ht : t = .enter ∨ t = .woken ∨ t = .late) (hsome : st.q_.empty = false) :
    Inv n k { st with
      q_ := st.q_.popFront.1
      workers := st.workers.set w (.notify st.q_.popFront.2)
      taken := st.taken ++ [(w, st.q_.popFront.2)] } := by
  have hne : st.q_.content ≠ [] := by
    rw [Ne, ← CircularQ.empty_iff, hsome]
    decide
  have hcontent := CircularQ.content_popFront hne
  have hlength := congrArg List.length hcontent
  rw [List.length_cons] at hlength
  have hlt : w < k := by
    rw [← h.threads]
    exact (List.getElem?_eq_some_iff.mp hw).1
  have hnone : t.holds = [] ∧ t.leaves = 0 ∧ t.notifies = 0 ∧ t.sleeps = 0 := by
    rcases ht with rfl | rfl | rfl <;> exact ⟨rfl, rfl, rfl, rfl⟩
  obtain ⟨hholds, hleaves, hnotifies, hsleeps⟩ := hnone
  generalize hmsg : st.q_.popFront.2 = msg at hcontent ⊢
  refine ⟨h.size, (List.length_set ..).trans h.threads, h.overrun, ?_, ?_, ?_, ?_, ?_, ?_⟩
  · show st.queued = (st.taken ++ [(w, msg)]).map Prod.snd ++ st.q_.popFront.1.content
    rw [h.order, hcontent]
    simp
  · intro p hp
    rcases List.mem_append.mp hp with hp | hp
    · exact h.known p hp
    · rw [List.mem_singleton.mp hp]
      exact hlt
  · intro v u hu
    rw [ofWorker_append, ofWorker_singleton]
    rw [List.getElem?_set] at hu
    split at hu
    · rename_i hv
      split at hu
      · cases hu
        subst hv
        rw [if_pos rfl, h.hands w t hw, hholds, List.append_nil]
        rfl
      · cases hu
    · rename_i hv
      rw [if_neg hv, List.append_nil]
      exact h.hands v u hu
  · have hset := tally_set (f := Worker.leaves) hw (.notify msg)
    have hleft := h.left
    have hmsg : (Worker.notify msg).leaves = if isTerminate msg then 1 else 0 := by
      cases msg <;> rfl
    rw [List.map_append, List.countP_append, hleft, List.map_singleton, List.countP_singleton]
    dsimp only
    omega
  · have hset := tally_set (f := Worker.notifies) hw (.notify msg)
    have hcalls := h.calls
    have hnew : (Worker.notify msg).notifies = 1 := rfl
    dsimp only
    omega
  · have hone := tally_set (f := Worker.sleeps) hw (.notify msg)
    have htwo := tally_set (f := Worker.wakes) hw (.notify msg)
    have hworkers := h.workers
    have hle : t.wakes ≤ 1 := by rcases ht with rfl | rfl | rfl <;> simp [Worker.wakes]
    have hnew : (Worker.notify msg).sleeps = 0 ∧ (Worker.notify msg).wakes = 0 := ⟨rfl, rfl⟩
    dsimp only
    omega

/-- A worker has notified; the thread that it has woken up stands for it. -/
theorem told (h : Inv n k st) {w : Nat} {msg : AsyncMsg μ}
    (hw : st.workers[w]? = some (.notify msg)) {calls : List (Call μ)}
    (hnotifies : tally Call.notifies calls = tally Call.notifies st.calls)
    (hsleeps : 0 < tally Call.sleeps calls → 0 < tally Call.sleeps st.calls ∧
      tally Call.wakes calls = tally Call.wakes st.calls + 1) :
    Inv n k { st with workers := st.workers.set w (.handle msg), calls := calls } := by
  have hset := tally_set (f := Worker.notifies) hw (.handle msg)
  have hnew : (Worker.notify msg).notifies = 1 ∧ (Worker.handle msg).notifies = 0 := ⟨rfl, rfl⟩
  have hone : tally Worker.sleeps (st.workers.set w (.handle msg)) =
      tally Worker.sleeps st.workers := tally_set_of_eq hw rfl
  have htwo : tally Worker.wakes (st.workers.set w (.handle msg)) =
      tally Worker.wakes st.workers := tally_set_of_eq hw rfl
  have hleaves : tally Worker.leaves (st.workers.set w (.handle msg)) =
      tally Worker.leaves st.workers := tally_set_of_eq hw (by cases msg <;> rfl)
  refine ⟨h.size, (List.length_set ..).trans h.threads, h.overrun, h.order, h.known,
    h.hands_set hw rfl, h.left.trans hleaves.symm, ?_, ?_⟩
  · intro hs
    obtain ⟨hbefore, hwakes⟩ := hsleeps hs
    have hcalls := h.calls hbefore
    dsimp only
    omega
  · dsimp only
    rw [hone, htwo, hnotifies]
    exact h.workers

theorem handle (h : Inv n k st) {w : Nat} {msg : AsyncMsg μ}
    (hw : st.workers[w]? = some (.handle msg)) :
    Inv n k { st with
      workers := st.workers.set w (next msg)
      handled := st.handled ++ [(w, msg)] } := by
  have hsame : ∀ f : Worker μ → Nat, f (next msg) = f (.handle msg) →
      tally f (st.workers.set w (next msg)) = tally f st.workers := fun f hf =>
    tally_set_of_eq hw hf
  have hleaves := hsame Worker.leaves (by cases msg <;> rfl)
  have hnotifies := hsame Worker.notifies (by cases msg <;> rfl)
  have hsleeps := hsame Worker.sleeps (by cases msg <;> rfl)
  have hwakes := hsame Worker.wakes (by cases msg <;> rfl)
  refine ⟨h.size, (List.length_set ..).trans h.threads, h.overrun, h.order, h.known, ?_,
    h.left.trans hleaves.symm, ?_, ?_⟩
  · intro v u hu
    rw [ofWorker_append, ofWorker_singleton]
    rw [List.getElem?_set] at hu
    split at hu
    · rename_i hv
      split at hu
      · cases hu
        subst hv
        have hnone : (next msg).holds = [] := by cases msg <;> rfl
        rw [if_pos rfl, hnone, List.append_nil]
        exact h.hands w _ hw
      · cases hu
    · rename_i hv
      rw [if_neg hv, List.append_nil]
      exact h.hands v u hu
  · dsimp only
    rw [hnotifies]
    exact h.calls
  · dsimp only
    rw [hsleeps, hwakes]
    exact h.workers

end Inv

theorem Step.inv {n k : Nat} {st st' : State μ} {l : Label μ} (hs : Step st l st')
    (h : Inv n k st) : Inv n k st' := by
  cases hs with
  | post msg => exact h.post msg
  | wait i c hc hstage hfull => exact h.wait hc hstage hfull
  | push i c hc hstage hroom => exact h.push hc hstage hroom
  | notifyPush i w c hc hstage hw =>
    have hone := tally_set (f := Worker.sleeps) hw .woken
    have htwo := tally_set (f := Worker.wakes) hw .woken
    refine h.returned hc hstage ((List.length_set ..).trans h.threads) (h.hands_set hw rfl)
      (tally_set_of_eq hw rfl) (tally_set_of_eq hw rfl) fun _ => ?_
    simp only [Worker.sleeps, Worker.wakes] at hone htwo
    omega
  | notifyNone i c hc hstage hnone =>
    refine h.returned hc hstage h.threads h.hands rfl rfl fun hpos => ?_
    omega
  | doze w t hw ht hempty =>
    have hnil := congrArg List.length ((CircularQ.empty_iff _).mp hempty)
    refine h.advance hw ?_ ?_ ?_ fun _ => ?_
    · rcases ht with rfl | rfl <;> rfl
    · rcases ht with rfl | rfl <;> rfl
    · rcases ht with rfl | rfl <;> rfl
    · rw [hnil]
      exact Nat.zero_le _
  | again w hw hempty =>
    have hnil := congrArg List.length ((CircularQ.empty_iff _).mp hempty)
    refine h.advance hw rfl rfl rfl fun _ => ?_
    rw [hnil]
    exact Nat.zero_le _
  | pop w t hw ht hsome => exact h.pop hw ht hsome
  | notifyPop w i msg c hw hc hstage =>
    have hone := tally_set (f := Call.sleeps) hc ⟨c.msg, .woken⟩
    have htwo := tally_set (f := Call.wakes) hc ⟨c.msg, .woken⟩
    refine h.told hw (tally_set_of_eq hc (by simp [Call.notifies, hstage])) fun _ => ?_
    simp [Call.sleeps, Call.wakes, hstage] at hone htwo
    omega
  | notifyNobody w msg hw hnone =>
    refine h.told hw rfl fun hpos => ?_
    omega
  | handle w msg hw => exact h.handle hw
  | spuriousCall i c hc hstage => exact h.wokenCall hc hstage
  | spuriousWorker w hw => exact h.woken hw (Or.inl rfl)
  | timeout w hw => exact h.woken hw (Or.inr rfl)

theorem run_inv {n k : Nat} {ls : List (Label μ)} {st : State μ}
    (hrun : run step (start n k) ls = some st) : Inv n k st :=
  run_kept (fun _ _ _ h hl => (step_inv hl).inv h) ls _ st (inv_start n k) hrun

/-- **No message is lost, doubled or overtaken.** Whatever the threads do in whatever order:
the messages are taken in the order in which they were pushed, by one worker each; what a
worker has taken it has handled in this order, up to the one that it has in its hands; the
queue never holds more than it may, and nothing is overrun. -/
theorem messages_in_order (n k : Nat) (ls : List (Label μ)) (st : State μ)
    (hrun : run step (start n k) ls = some st) :
    st.queued = st.taken.map Prod.snd ++ st.q_.content ∧
    (∀ p ∈ st.taken, p.1 < k) ∧
    (∀ w t, st.workers[w]? = some t → ofWorker w st.taken = ofWorker w st.handled ++ t.holds) ∧
    st.q_.content.length ≤ n ∧ st.q_.overrun_counter_ = 0 := by
  have h := run_inv hrun
  refine ⟨h.order, h.known, h.hands, ?_, h.overrun⟩
  have hlt := st.q_.size_lt
  rw [h.size] at hlt
  rw [CircularQ.length_content]
  omega

/-- Two messages are posted when there is room for one. -/
def crowded : List (Label Nat) :=
  [.post (.log 5), .post (.log 6), .enqueue 0, .enqueue 1]

/-- Both are handled. -/
def served : List (Label Nat) :=
  [.notifyPush 0 none, .dequeue 0, .notifyPop 0 (some 1), .handle 0, .dequeue 0, .enqueue 1,
    .notifyPush 1 (some 0), .dequeue 0, .notifyPop 0 none, .handle 0, .dequeue 0]

theorem messages_in_order_crowded :
    ∃ st, run step (start 1 1) (crowded ++ served) = some st ∧
      st.queued = [.log 5, .log 6] ∧ st.queued = st.taken.map Prod.snd ++ st.q_.content ∧
      st.q_.overrun_counter_ = 0 := by
  have hview : (run step (start 1 1) (crowded ++ served)).map (·.queued) =
      some [.log 5, .log 6] := by decide +kernel
  obtain ⟨st, hrun, hst⟩ := Option.map_eq_some_iff.mp hview
  obtain ⟨horder, -, -, -, hoverrun⟩ := messages_in_order 1 1 _ st hrun
  exact ⟨st, hrun, hst, horder, hoverrun⟩

/-! ## Progress -/

def Call.weight (c : Call μ) : Nat :=
  match c.stage with
  | .enter | .woken => 7
  | .asleep => 6
  | .notify => 2
  | .returned => 0

def Worker.weight : Worker μ → Nat
  | enter | woken => 1
  | late | handle _ => 2
  | notify _ => 4
  | asleep | ended => 0

/-- How many steps are left at most. -/
def weight (st : State μ) : Nat :=
  tally Call.weight st.calls + tally Worker.weight st.workers + 4 * st.q_.content.length

theorem Step.weight_lt {st st' : State μ} {l : Label μ} (hs : Step st l st')
    (hown : l.own = true) : weight st' < weight st := by
  cases hs with
  | post msg => cases hown
  | wait i c hc hstage hfull =>
    have hset := tally_set (f := Call.weight) hc ⟨c.msg, .asleep⟩
    rcases hstage with hs | hs <;> simp only [Call.weight, hs] at hset <;>
      simp only [weight] <;> omega
  | push i c hc hstage hroom =>
    have hset := tally_set (f := Call.weight) hc ⟨c.msg, .notify⟩
    have hcontent : (st.q_.pushBack c.msg).content.length = st.q_.content.length + 1 := by
      rw [CircularQ.content_pushBack, if_neg (by rw [hroom]; decide)]
      simp
    rcases hstage with hs | hs <;> simp only [Call.weight, hs] at hset <;>
      simp only [weight, hcontent] <;> omega
  | notifyPush i w c hc hstage hw =>
    have hset := tally_set (f := Call.weight) hc ⟨c.msg, .returned⟩
    have hwake := tally_set (f := Worker.weight) hw .woken
    simp only [Call.weight, hstage] at hset
    simp only [Worker.weight] at hwake
    simp only [weight]
    omega
  | notifyNone i c hc hstage hnone =>
    have hset := tally_set (f := Call.weight) hc ⟨c.msg, .returned⟩
    simp only [Call.weight, hstage] at hset
    simp only [weight]
    omega
  | doze w t hw ht hempty =>
    have hset := tally_set (f := Worker.weight) hw .asleep
    rcases ht with rfl | rfl <;> simp only [Worker.weight] at hset <;> simp only [weight] <;> omega
  | again w hw hempty =>
    have hset := tally_set (f := Worker.weight) hw .enter
    simp only [Worker.weight] at hset
    simp only [weight]
    omega
  | pop w t hw ht hsome =>
    have hset := tally_set (f := Worker.weight) hw (.notify st.q_.popFront.2)
    have hne : st.q_.content ≠ [] := by
      rw [Ne, ← CircularQ.empty_iff, hsome]
      decide
    have hlength := congrArg List.length (CircularQ.content_popFront hne)
    rw [List.length_cons] at hlength
    rcases ht with rfl | rfl | rfl <;> simp only [Worker.weight] at hset <;>
      simp only [weight] <;> omega
  | notifyPop w i msg c hw hc hstage =>
    have hset := tally_set (f := Worker.weight) hw (.handle msg)
    have hwake := tally_set (f := Call.weight) hc ⟨c.msg, .woken⟩
    simp only [Call.weight, hstage] at hwake
    simp only [Worker.weight] at hset
    simp only [weight]
    omega
  | notifyNobody w msg hw hnone =>
    have hset := tally_set (f := Worker.weight) hw (.handle msg)
    simp only [Worker.weight] at hset
    simp only [weight]
    omega
  | handle w msg hw =>
    have hset := tally_set (f := Worker.weight) hw (next msg)
    have hnext : (next msg).weight ≤ 1 := by cases msg <;> simp [next, Worker.weight]
    have hbefore : (Worker.handle msg).weight = 2 := rfl
    simp only [weight]
    omega
  | spuriousCall i c hc hstage => cases hown
  | spuriousWorker w hw => cases hown
  | timeout w hw => cases hown

/-- No thread can go on by itself. -/
def Stuck (st : State μ) : Prop := ∀ l : Label μ, l.own = true → step st l = none

/-- Who cannot go on sleeps, or has nothing left to do. -/
theorem Stuck.workers {st : State μ} (h : Stuck st) {w : Nat} {t : Worker μ}
    (hw : st.workers[w]? = some t) : t = .asleep ∨ t = .ended := by
  cases t with
  | asleep => exact Or.inl rfl
  | ended => exact Or.inr rfl
  | enter =>
    have hnone := h (.dequeue w) rfl
    simp [step, hw] at hnone
  | woken =>
    have hnone := h (.dequeue w) rfl
    simp [step, hw] at hnone
  | late =>
    have hnone := h (.dequeue w) rfl
    simp [step, hw] at hnone
  | notify msg =>
    rcases Nat.eq_zero_or_pos (tally Call.sleeps st.calls) with hzero | hpos
    · have hnone := h (.notifyPop w none) rfl
      simp [step, hw, wakeCall, hzero] at hnone
    · obtain ⟨i, ⟨m, stage⟩, hc, hsleeps⟩ := exists_of_tally_pos hpos
      have hstage : stage = .asleep := by
        by_contra hne
        simp [Call.sleeps, hne] at hsleeps
      have hnone := h (.notifyPop w (some i)) rfl
      simp [step, hw, wakeCall, hc, hstage] at hnone
  | handle msg =>
    have hnone := h (.handle w) rfl
    simp [step, hw] at hnone

theorem Stuck.calls {st : State μ} (h : Stuck st) {i : Nat} {c : Call μ}
    (hc : st.calls[i]? = some c) : c.stage = .asleep ∨ c.stage = .returned := by
  obtain ⟨msg, stage⟩ := c
  cases stage with
  | asleep => exact Or.inl rfl
  | returned => exact Or.inr rfl
  | enter =>
    have hnone := h (.enqueue i) rfl
    simp [step, hc] at hnone
  | woken =>
    have hnone := h (.enqueue i) rfl
    simp [step, hc] at hnone
  | notify =>
    rcases Nat.eq_zero_or_pos (tally Worker.sleeps st.workers) with hzero | hpos
    · have hnone := h (.notifyPush i none) rfl
      simp [step, hc, wakeWorker, hzero] at hnone
    · obtain ⟨w, t, hw, hsleeps⟩ := exists_of_tally_pos hpos
      have ht : t = .asleep := by
        cases t <;> simp [Worker.sleeps] at hsleeps ⊢
      have hnone := h (.notifyPush i (some w)) rfl
      simp [step, hc, wakeWorker, hw, ht] at hnone

/-- A state in which everybody sleeps or has nothing left to do. -/
theorem stuck_of {st : State μ} (hcalls : ∀ s ∈ st.calls.map (·.stage), s = .returned)
    (hworkers : ∀ t ∈ st.workers, t = .asleep ∨ t = .ended) : Stuck st := by
  have hcall : ∀ {i : Nat} {c : Call μ}, st.calls[i]? = some c → c.stage = .returned := fun hc =>
    hcalls _ (List.mem_map_of_mem (List.mem_of_getElem? hc))
  have hworker : ∀ {w : Nat} {t : Worker μ}, st.workers[w]? = some t → t = .asleep ∨ t = .ended :=
    fun hw => hworkers _ (List.mem_of_getElem? hw)
  intro l hown
  by_contra hsome
  obtain ⟨st', hstep⟩ := Option.ne_none_iff_exists'.mp hsome
  cases step_inv hstep with
  | post msg => cases hown
  | wait i c hc hstage => simp [hcall hc] at hstage
  | push i c hc hstage => simp [hcall hc] at hstage
  | notifyPush i w c hc hstage => simp [hcall hc] at hstage
  | notifyNone i c hc hstage => simp [hcall hc] at hstage
  | doze w t hw ht => rcases hworker hw with rfl | rfl <;> simp at ht
  | again w hw => simpa using hworker hw
  | pop w t hw ht => rcases hworker hw with rfl | rfl <;> simp at ht
  | notifyPop w i msg c hw => simpa using hworker hw
  | notifyNobody w msg hw => simpa using hworker hw
  | handle w msg hw => simpa using hworker hw
  | spuriousCall i c hc hstage => cases hown
  | spuriousWorker w hw => cases hown
  | timeout w hw => cases hown

namespace Inv

variable {n k : Nat} {st : State μ}

/-- Where no thread can go on, nobody is about to wake up or to notify. -/
theorem stuck_tallies (hstuck : Stuck st) :
    tally Worker.wakes st.workers = 0 ∧ tally Worker.notifies st.workers = 0 ∧
      tally Call.wakes st.calls = 0 ∧ tally Call.notifies st.calls = 0 := by
  have hworker : ∀ f : Worker μ → Nat, f .asleep = 0 → f .ended = 0 →
      tally f st.workers = 0 := by
    intro f hasleep hended
    refine tally_eq_zero fun t ht => ?_
    obtain ⟨w, hw⟩ := List.getElem?_of_mem ht
    rcases hstuck.workers hw with rfl | rfl
    · exact hasleep
    · exact hended
  have hcall : ∀ c ∈ st.calls, c.stage = .asleep ∨ c.stage = .returned := by
    intro c hc
    obtain ⟨i, hi⟩ := List.getElem?_of_mem hc
    exact hstuck.calls hi
  refine ⟨hworker _ rfl rfl, hworker _ rfl rfl, tally_eq_zero fun c hc => ?_,
    tally_eq_zero fun c hc => ?_⟩
  · rcases hcall c hc with hs | hs <;> simp [Call.wakes, hs]
  · rcases hcall c hc with hs | hs <;> simp [Call.notifies, hs]

/-- Where no thread can go on, a worker that has not ended finds nothing in the queue. -/
theorem stuck_content (h : Inv n k st) (hstuck : Stuck st) {t : Worker μ} (ht : t ∈ st.workers)
    (hended : t ≠ .ended) : st.q_.content = [] := by
  obtain ⟨hwakes, -, -, hnotifies⟩ := stuck_tallies hstuck
  obtain ⟨w, hw⟩ := List.getElem?_of_mem ht
  have hasleep := (hstuck.workers hw).resolve_right hended
  have hpos : t.sleeps ≤ tally Worker.sleeps st.workers := le_tally ht
  rw [hasleep] at hpos
  have hworkers := h.workers hpos
  rw [hwakes, hnotifies] at hworkers
  exact List.eq_nil_of_length_eq_zero (Nat.le_zero.mp hworkers)

theorem stuck_handled (h : Inv n k st) (hstuck : Stuck st) {w : Nat} (hlt : w < k) :
    ofWorker w st.taken = ofWorker w st.handled := by
  rw [← h.threads] at hlt
  have hw := List.getElem?_eq_getElem hlt
  have hnone : st.workers[w].holds = [] := by
    rcases hstuck.workers hw with ht | ht <;> rw [ht] <;> rfl
  rw [h.hands w _ hw, hnone, List.append_nil]

end Inv

/-- **Nobody sleeps through it.** From every state that can be reached, the threads go on by
themselves only so many times, whatever their order. When they cannot any more, then every
call has returned and every message has been handled, unless all workers have ended: nobody
waits for a notification that does not come, and the ten seconds are never needed. -/
theorem pool_drains (n k : Nat) (hn : 0 < n) (ls : List (Label μ)) (st : State μ)
    (hrun : run step (start n k) ls = some st) (os : List (Label μ))
    (hown : ∀ l ∈ os, l.own = true) (st' : State μ) (hrun' : run step st os = some st') :
    os.length ≤ weight st ∧
    (Stuck st' → (∃ t ∈ st'.workers, t ≠ .ended) →
      (∀ c ∈ st'.calls, c.stage = .returned) ∧ st'.queued = st'.taken.map Prod.snd ∧
      ∀ w < k, ofWorker w st'.taken = ofWorker w st'.handled) := by
  constructor
  · have hle := run_length_le weight (fun _ _ _ hl hs => (step_inv hs).weight_lt hl) os st st'
      hown hrun'
    omega
  · rintro hstuck ⟨t, ht, hended⟩
    have h : Inv n k st' := run_kept (fun _ _ _ h hl => (step_inv hl).inv h) os st st'
      (run_inv hrun) hrun'
    have hcontent := h.stuck_content hstuck ht hended
    refine ⟨fun c hc => ?_, ?_, fun w hw => h.stuck_handled hstuck hw⟩
    · obtain ⟨i, hi⟩ := List.getElem?_of_mem hc
      refine (hstuck.calls hi).resolve_left fun hasleep => ?_
      -- a thread that sleeps in front of an empty queue would have been woken up
      obtain ⟨-, hnotifies, hwakes, -⟩ := Inv.stuck_tallies hstuck
      have hpos : c.sleeps ≤ tally Call.sleeps st'.calls := le_tally hc
      have hone : c.sleeps = 1 := if_pos hasleep
      have hcalls := h.calls (by omega)
      rw [hcontent, hnotifies, hwakes, List.length_nil] at hcalls
      omega
    · rw [h.order, hcontent, List.append_nil]

theorem pool_drains_crowded :
    ∃ st st', run step (start 1 1) crowded = some st ∧ run step st served = some st' ∧
      served.length ≤ weight st ∧ Stuck st' ∧ (∀ c ∈ st'.calls, c.stage = .returned) ∧
      st'.queued = st'.taken.map Prod.snd := by
  have hview : ((run step (start 1 1) crowded).bind fun st => run step st served).map (fun st =>
      (st.calls.map (·.stage), st.workers)) = some ([.returned, .returned], [.asleep]) := by
    decide +kernel
  obtain ⟨st', hboth, hst'⟩ := Option.map_eq_some_iff.mp hview
  obtain ⟨st, hrun, hrun'⟩ := Option.bind_eq_some_iff.mp hboth
  simp only [Prod.mk.injEq] at hst'
  obtain ⟨hcalls, hworkers⟩ := hst'
  have hstuck : Stuck st' := stuck_of (by simp [hcalls]) (by simp [hworkers])
  obtain ⟨hlength, hdrained⟩ :=
    pool_drains 1 1 (by decide) crowded st hrun served (by decide) st' hrun'
  obtain ⟨hreturned, hqueued, -⟩ := hdrained hstuck ⟨.asleep, by simp [hworkers], by simp⟩
  exact ⟨st, st', hrun, hrun', hlength, hstuck, hreturned, hqueued⟩

/-- The worker is told to end. -/
def ended : List (Label Nat) :=
  [.post .terminate, .enqueue 2, .notifyPush 2 (some 0), .dequeue 0, .notifyPop 0 none, .handle 0]

/-- **The destructor.** It posts a `terminate` for each worker and joins them. When no thread
can go on and as many have been pushed, all workers have ended, so that it returns, and every
message that was pushed before the last `terminate` has been handled. -/
theorem pool_shutdown (n k : Nat) (ls : List (Label μ)) (st : State μ)
    (hrun : run step (start n k) ls = some st) (hstuck : Stuck st)
    (before behind : List (AsyncMsg μ)) (hqueued : st.queued = before ++ .terminate :: behind)
    (hcount : before.countP isTerminate + 1 = k) :
    (∀ t ∈ st.workers, t = .ended) ∧ before ++ [.terminate] <+: st.taken.map Prod.snd ∧
      ∀ w < k, ofWorker w st.taken = ofWorker w st.handled := by
  have h := run_inv hrun
  have hone : ∀ t ∈ st.workers, t.leaves ≤ 1 := by
    intro t _
    unfold Worker.leaves
    split <;> omega
  have hall : ∀ t ∈ st.workers, t = .ended := by
    intro t ht
    by_contra hended
    have horder := h.order
    rw [h.stuck_content hstuck ht hended, List.append_nil] at horder
    have hleft := h.left
    rw [← horder, hqueued, List.countP_append,
      List.countP_cons_of_pos (show isTerminate (.terminate : AsyncMsg μ) = true from rfl)] at hleft
    obtain ⟨w, hw⟩ := List.getElem?_of_mem ht
    have hasleep := (hstuck.workers hw).resolve_right hended
    -- one of the others would have taken two of them
    obtain ⟨as, bs, hsplit⟩ := List.append_of_mem ht
    have hthreads := h.threads
    rw [hsplit] at hone hleft hthreads
    have has : tally Worker.leaves as ≤ as.length :=
      tally_le_length fun u hu => hone u (by simp [hu])
    have hbs : tally Worker.leaves bs ≤ bs.length :=
      tally_le_length fun u hu => hone u (by simp [hu])
    have hzero : t.leaves = 0 := by rw [hasleep]; rfl
    rw [← List.singleton_append, tally_append, tally_append, tally_singleton, hzero] at hleft
    rw [List.length_append, List.length_cons] at hthreads
    omega
  refine ⟨hall, ?_, fun w hw => h.stuck_handled hstuck hw⟩
  have hleft := h.left
  have hworkers : st.workers = List.replicate k .ended :=
    List.eq_replicate_iff.mpr ⟨h.threads, hall⟩
  have htally : tally Worker.leaves (List.replicate k (.ended : Worker μ)) = k := by
    simp [tally, Worker.leaves]
  rw [hworkers, htally] at hleft
  have htaken : st.taken.map Prod.snd <+: st.queued := ⟨_, h.order.symm⟩
  have hlast : before ++ [.terminate] <+: st.queued := ⟨behind, by simp [hqueued]⟩
  rcases List.prefix_or_prefix_of_prefix htaken hlast with hshort | hlong
  · rcases List.prefix_concat_iff.mp hshort with heq | hshorter
    · exact ⟨[], by rw [heq, List.append_nil]⟩
    · have hle := hshorter.sublist.countP_le (p := isTerminate)
      omega
  · exact hlong

theorem pool_shutdown_one :
    ∃ st, run step (start 1 1) (crowded ++ served ++ ended) = some st ∧ Stuck st ∧
      st.queued = [.log 5, .log 6, .terminate] ∧ (∀ t ∈ st.workers, t = .ended) ∧
      [.log 5, .log 6, .terminate] <+: st.taken.map Prod.snd := by
  have hview : (run step (start 1 1) (crowded ++ served ++ ended)).map (fun st =>
      (st.queued, st.calls.map (·.stage), st.workers)) =
      some ([.log 5, .log 6, .terminate], [.returned, .returned, .returned], [.ended]) := by
    decide +kernel
  obtain ⟨st, hrun, hst⟩ := Option.map_eq_some_iff.mp hview
  simp only [Prod.mk.injEq] at hst
  obtain ⟨hqueued, hcalls, hworkers⟩ := hst
  have hstuck : Stuck st := stuck_of (by simp [hcalls]) (by simp [hworkers])
  obtain ⟨hended, htaken, -⟩ := pool_shutdown 1 1 _ st hrun hstuck [.log 5, .log 6] [] hqueued rfl
  exact ⟨st, hrun, hstuck, hqueued, hended, htaken⟩

end Cppim.Spdlog.ThreadPool
