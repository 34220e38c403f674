import Cppim.Net.Session

/-! The queue between `send` and `write` of a session. `send` looks at `write_buf_`
to decide whether it has to wake the loop, while the loop empties and refills it.
`send_queue_exact` says that no buffer is lost, repeated or left behind, as long as
no write fails. -/

namespace Cppim.Net.Session

open Cppim.Common Cppim.Lib Cppim.Lib.Transition

/-- No `async_write_some` ends with an error. -/
def NoFailure : Label → Prop
  | .fail _ => False
  | _ => True

/-- The loop is at work on the queue, or will be: a write is out, the loop stands
inside `write` or the completion handler, or a task is posted or about to be
posted that finds `write_buf_` empty and so calls `write`. -/
def Woken (s : State) : Prop :=
  s.ops ≠ [] ∨ s.pc ≠ .idle ∨ (s.write_buf_.readable = [] ∧ 0 < s.posting + s.tasks)

/-- What holds besides `Inv` as long as no write fails. -/
structure Awake (s : State) : Prop where
  sound : .failed ∉ s.ops
  out : s.pc = .idle → s.write_buf_.readable ≠ [] → s.ops ≠ []
  batch : todo s.pc <:+ s.tmp_queue_
  wake : s.unsend_queue_ ≠ [] → Woken s

theorem awake_init : Awake init := by
  refine ⟨by simp [init], fun _ h => ?_, by simp [init, todo], by simp [init]⟩
  exact absurd (Buffer.readable_ofSize kInitialSize) h

/-- An idle loop with something in `write_buf_` has a write out; otherwise a task
is enough. -/
theorem woken_of_task {s : State} (hout : s.pc = .idle → s.write_buf_.readable ≠ [] → s.ops ≠ [])
    (htask : s.write_buf_.readable = [] → 0 < s.posting + s.tasks) : Woken s := by
  by_cases hpc : s.pc = .idle
  · by_cases hw : s.write_buf_.readable = []
    · exact Or.inr (Or.inr ⟨hw, htask hw⟩)
    · exact Or.inl (hout hpc hw)
  · exact Or.inr (Or.inl hpc)

/-- What the loop keeps up until it runs the handler of a failed write. -/
structure Alert (s : State) : Prop where
  out : s.pc = .idle → s.write_buf_.readable ≠ [] → s.ops ≠ []
  empty : s.pc = .write ∨ s.pc = .completed → s.write_buf_.readable = []
  wake : s.unsend_queue_ ≠ [] → Woken s

theorem alert_init : Alert init := by
  refine ⟨fun _ h => ?_, by simp [init], by simp [init]⟩
  exact absurd (Buffer.readable_ofSize kInitialSize) h

theorem Step.alert {s s' : State} {l : Label} (h : Step s l s')
    (hl : ∀ i, l = .complete i → s.ops[i]? ≠ some .failed) (ha : Alert s) : Alert s' := by
  obtain ⟨hout, hempty, hwake⟩ := ha
  have hset {i : Nat} {op op' : Op} (hop : s.ops[i]? = some op) : s.ops.set i op' ≠ [] := by
    rw [ne_eq, List.set_eq_nil_iff]
    exact List.ne_nil_of_mem (List.mem_of_getElem? hop)
  cases h with
  | send buffer =>
    refine ⟨hout, hempty, fun _ => woken_of_task hout fun hw => ?_⟩
    -- the caller found `write_buf_` empty and is going to post
    have h0 := s.write_buf_.readable_eq_nil_iff.mp hw
    simp only [h0, ne_eq, not_true_eq_false, ↓reduceIte]
    omega
  | post hp =>
    refine ⟨hout, hempty, fun hq => ?_⟩
    rcases hwake hq with h | h | ⟨hw, -⟩
    · exact Or.inl h
    · exact Or.inr (Or.inl h)
    · exact Or.inr (Or.inr ⟨hw, by simp⟩)
  | taskBusy hpc _ hw => exact ⟨hout, hempty, fun _ => Or.inl (hout hpc hw)⟩
  | taskWrite hpc _ hw => exact ⟨by simp, fun _ => hw, fun _ => Or.inr (Or.inl (by simp))⟩
  | lockEmpty hpc hq =>
    exact ⟨fun _ hne => absurd (hempty (Or.inl hpc)) hne, by simp, fun hne => absurd hq hne⟩
  | lock hpc hq => exact ⟨by simp, by simp, fun hne => absurd rfl hne⟩
  | append buf rest wb hpc _ _ => exact ⟨by simp, by simp, fun _ => Or.inr (Or.inl (by simp))⟩
  | start hpc => exact ⟨by simp, by simp, fun _ => Or.inl (by simp)⟩
  | transfer i size offered hop _ _ _ =>
    exact ⟨fun _ _ => hset hop, hempty, fun _ => Or.inl (hset hop)⟩
  | fail i offered hop => exact ⟨fun _ _ => hset hop, hempty, fun _ => Or.inl (hset hop)⟩
  | complete i size wb hpc hop hr =>
    exact ⟨by simp, fun _ => hr, fun _ => Or.inr (Or.inl (by simp))⟩
  | completeFailed i hpc hop => exact absurd hop (hl i rfl)
  | checkEmpty hpc hq =>
    exact ⟨fun _ hne => absurd (hempty (Or.inr hpc)) hne, by simp, fun hne => absurd hq hne⟩
  | check hpc hq =>
    exact ⟨by simp, fun _ => hempty (Or.inr hpc), fun _ => Or.inr (Or.inl (by simp))⟩
  | close => exact ⟨hout, hempty, hwake⟩
  | closeTask => exact ⟨hout, hempty, hwake⟩

theorem Awake.alert {s : State} (hi : Inv s) (ha : Awake s) : Alert s where
  out := ha.out
  empty := by
    rintro (hpc | hpc)
    · exact ((hpc ▸ hi.phase).of_write).1
    · exact ((hpc ▸ hi.phase).of_completed).1
  wake := ha.wake

/-- No failed operation is out as long as none fails. -/
theorem Step.sound {s s' : State} {l : Label} (h : Step s l s') (hl : NoFailure l) (hi : Inv s)
    (hs : .failed ∉ s.ops) : .failed ∉ s'.ops := by
  cases h with
  | start hpc => simp [hs]
  | transfer i size offered hop _ _ _ =>
    obtain ⟨rfl, hops, -⟩ := hi.phase.of_op hop
    simp [hops]
  | fail i offered hop => exact hl.elim
  | complete i size wb hpc hop _ => exact fun hmem => hs (List.mem_of_mem_eraseIdx hmem)
  | completeFailed i hpc hop => exact fun hmem => hs (List.mem_of_mem_eraseIdx hmem)
  | _ => exact hs

/-- What is still to append is the end of the batch. -/
theorem Step.batch {s s' : State} {l : Label} (h : Step s l s')
    (hb : todo s.pc <:+ s.tmp_queue_) : todo s'.pc <:+ s'.tmp_queue_ := by
  cases h with
  | taskWrite hpc _ _ => simp [todo]
  | lockEmpty hpc hq => simp [todo]
  | lock hpc hq => simp [todo]
  | append buf rest wb hpc _ _ =>
    rw [hpc] at hb
    exact (List.suffix_cons buf rest).trans hb
  | start hpc => simp [todo]
  | complete i size wb hpc _ _ => simp [todo]
  | checkEmpty hpc hq => simp [todo]
  | check hpc hq => simp [todo]
  | _ => exact hb

theorem Step.awake {s s' : State} {l : Label} (h : Step s l s') (hl : NoFailure l) (hi : Inv s)
    (ha : Awake s) : Awake s' := by
  have halert : Alert s' := h.alert
    (fun i _ hop => ha.sound (List.mem_of_getElem? hop)) (ha.alert hi)
  exact ⟨h.sound hl hi ha.sound, halert.out, h.batch ha.batch, halert.wake⟩

theorem run_awake (ls : List Label) (s : State) (hls : ∀ l ∈ ls, NonemptySend l ∧ NoFailure l)
    (hrun : run step init ls = some s) : Inv s ∧ Awake s := by
  apply run_invariant (G := fun _ l => NonemptySend l ∧ NoFailure l) _ ls init s
    ⟨inv_init, awake_init⟩ (guarded_of_forall ls init fun l hl _ => hls l hl) hrun
  intro s l s' hi hl hs
  exact ⟨(step_inv hs).inv hl.1 hi.1, (step_inv hs).awake hl.2 hi.1 hi.2⟩

/-- At most one operation is out. -/
theorem Phase.ops_length_le {pc : Pc} {w : Bytes} {ops : List Op} (h : Phase pc w ops) :
    ops.length ≤ 1 := by
  cases h <;> simp

/-- **No lost wake-up and no lost buffer.** In every state of a run without failed
writes: the buffers appended so far, the rest of the batch that `write` is
appending and the queue are the buffers sent, in order; at most one write is out;
and a queue that is not empty is going to be looked at. -/
theorem send_queue_exact (ls : List Label) (s : State)
    (hls : ∀ l ∈ ls, NonemptySend l ∧ NoFailure l) (hrun : run step init ls = some s) :
    (s.appended ++ todo s.pc ++ s.unsend_queue_ = s.sent ∧ todo s.pc <:+ s.tmp_queue_) ∧
    s.ops.length ≤ 1 ∧ (s.unsend_queue_ ≠ [] → Woken s) := by
  obtain ⟨hi, ha⟩ := run_awake ls s hls hrun
  exact ⟨⟨hi.order.symm, ha.batch⟩, hi.phase.ops_length_le, ha.wake⟩

/-- A first buffer is taken from the queue; another thread sends before it is
appended. -/
def sendInsideWrite : List Label := [.send [1], .post, .task, .lock, .send [2]]

theorem sendInsideWrite_ok : ∀ l ∈ sendInsideWrite, NonemptySend l ∧ NoFailure l := by
  simp [sendInsideWrite, NonemptySend, NoFailure]

theorem send_queue_exact_inside_write :
    ∃ s, run step init sendInsideWrite = some s ∧
      (s.appended ++ todo s.pc ++ s.unsend_queue_ = s.sent ∧ todo s.pc <:+ s.tmp_queue_) ∧
      s.ops.length ≤ 1 ∧ (s.unsend_queue_ ≠ [] → Woken s) := by
  have hsome : (run step init sendInsideWrite).isSome = true := by decide +kernel
  obtain ⟨s, hs⟩ := Option.isSome_iff_exists.mp hsome
  exact ⟨s, hs, send_queue_exact _ s sendInsideWrite_ok hs⟩

/-- Inside `write` the buffers of the batch are neither in the queue nor appended. -/
theorem batch_between_queue_and_buffer :
    ∃ s, (∀ l ∈ sendInsideWrite, NonemptySend l ∧ NoFailure l) ∧
      run step init sendInsideWrite = some s ∧ s.sent = [[1], [2]] ∧
      s.appended ++ s.unsend_queue_ = [[2]] := by
  have hview : (run step init sendInsideWrite).map
      (fun s => (s.sent, s.appended ++ s.unsend_queue_)) = some ([[1], [2]], [[2]]) := by
    decide +kernel
  obtain ⟨s, hs, hv⟩ := Option.map_eq_some_iff.mp hview
  simp only [Prod.mk.injEq] at hv
  exact ⟨s, sendInsideWrite_ok, hs, hv.1, hv.2⟩

end Cppim.Net.Session
