import Cppim.Common.Buffer
import Cppim.Lib.Transition

/-! `net/Session.{h,cc}`: the sending side of a session.

Any number of threads call `send`; one loop thread runs the posted tasks and the
completion handlers. A label is one atomic step: a locked section, a post, one
turn of the loop in `write`, the start of an `async_write_some`, the transfer by
the operating system, a handler up to its next lock. A `BufferPtr` is its
readable bytes. -/

namespace Cppim.Net.Session

open Cppim.Common Cppim.Lib Cppim.Lib.Transition

/-- Where the loop thread stands. -/
inductive Pc where
  /-- between two handlers -/
  | idle
  /-- in front of the locked section of `write` -/
  | write
  /-- in the loop of `write`, with the buffers of `tmp_queue_` still to append -/
  | appending (rest : List Bytes)
  /-- in the completion handler, behind the `retrieve` and in front of the lock -/
  | completed
  deriving Repr, DecidableEq

/-- An `async_write_some` whose handler has not run yet. -/
inductive Op where
  | pending (offered : Bytes)
  | done (size : Nat)
  | failed
  deriving Repr, DecidableEq

structure State where
  unsend_queue_ : List Bytes
  tmp_queue_ : List Bytes
  write_buf_ : Buffer
  pc : Pc
  /-- callers of `send` between the locked section and `runInLoop` -/
  posting : Nat
  /-- tasks posted by `send` and not run yet -/
  tasks : Nat
  /-- tasks posted by `close` and not run yet -/
  closing : Nat
  ops : List Op
  isOpen : Bool
  /-- the buffers `send` queued so far, in the order of its locked sections -/
  sent : List Bytes
  /-- the buffers appended to `write_buf_` so far -/
  appended : List Bytes
  /-- the bytes that have reached the socket -/
  wire : Bytes
  deriving Repr, DecidableEq

def init : State where
  unsend_queue_ := []
  tmp_queue_ := []
  write_buf_ := Buffer.ofSize kInitialSize
  pc := .idle
  posting := 0
  tasks := 0
  closing := 0
  ops := []
  isOpen := true
  sent := []
  appended := []
  wire := []

inductive Label where
  /-- the locked section of `send` -/
  | send (buffer : Bytes)
  /-- `runInLoop` of a caller of `send` that found `write_buf_` empty -/
  | post
  /-- the loop runs a task posted by `send` -/
  | task
  /-- the locked section of `write` -/
  | lock
  /-- one turn of the loop in `write` -/
  | append
  /-- `async_write_some` -/
  | start
  /-- the first `size` bytes of an operation reach the socket -/
  | transfer (i : Nat) (size : Nat)
  /-- an operation ends with an error -/
  | fail (i : Nat)
  /-- the handler of an operation, up to its locked section -/
  | complete (i : Nat)
  /-- the locked section of the completion handler -/
  | check
  /-- somebody calls `close` -/
  | close
  /-- the loop runs a task posted by `close` -/
  | closeTask
  deriving Repr, DecidableEq

/-- One atomic step; `none` means that the label is not enabled. -/
def step (s : State) : Label → Option State
  | .send buffer =>
    some { s with
      unsend_queue_ := s.unsend_queue_ ++ [buffer]
      posting := if s.write_buf_.readableBytes ≠ 0 then s.posting else s.posting + 1
      sent := s.sent ++ [buffer] }
  | .post =>
    if 0 < s.posting then some { s with posting := s.posting - 1, tasks := s.tasks + 1 } else none
  | .task =>
    if s.pc = .idle ∧ 0 < s.tasks then
      some { s with
        tasks := s.tasks - 1
        pc := if s.write_buf_.readableBytes ≠ 0 then .idle else .write }
    else none
  | .lock =>
    if s.pc = .write then
      some { s with
        tmp_queue_ := s.unsend_queue_
        unsend_queue_ := []
        pc := if s.unsend_queue_ = [] then .idle else .appending s.unsend_queue_ }
    else none
  | .append =>
    match s.pc with
    | .appending (buf :: rest) => do
      let write_buf ← (s.write_buf_.append buf).toOption
      return { s with
        write_buf_ := write_buf
        pc := .appending rest
        appended := s.appended ++ [buf] }
    | _ => none
  | .start =>
    if s.pc = .appending [] then
      some { s with ops := s.ops ++ [.pending s.write_buf_.readable], pc := .idle }
    else none
  | .transfer i size =>
    match s.ops[i]? with
    | some (.pending offered) =>
      if s.isOpen ∧ 1 ≤ size ∧ size ≤ offered.length then
        some { s with ops := s.ops.set i (.done size), wire := s.wire ++ offered.take size }
      else none
    | _ => none
  | .fail i =>
    match s.ops[i]? with
    | some (.pending _) => some { s with ops := s.ops.set i .failed }
    | _ => none
  | .complete i =>
    if s.pc = .idle then
      match s.ops[i]? with
      | some (.done _) => do
        -- the handler does not look at the size it is told
        let write_buf ← (s.write_buf_.retrieve s.write_buf_.readableBytes).toOption
        return { s with write_buf_ := write_buf, ops := s.ops.eraseIdx i, pc := .completed }
      | some .failed => some { s with ops := s.ops.eraseIdx i, closing := s.closing + 1 }
      | _ => none
    else none
  | .check =>
    if s.pc = .completed then
      some { s with pc := if s.unsend_queue_ = [] then .idle else .write }
    else none
  | .close => some { s with closing := s.closing + 1 }
  | .closeTask =>
    if s.pc = .idle ∧ 0 < s.closing then
      some { s with closing := s.closing - 1, isOpen := false }
    else none

/-- `step` as a relation, with what each label does when it is enabled. -/
inductive Step (s : State) : Label → State → Prop
  | send (buffer : Bytes) : Step s (.send buffer)
      { s with
        unsend_queue_ := s.unsend_queue_ ++ [buffer]
        posting := if s.write_buf_.readableBytes ≠ 0 then s.posting else s.posting + 1
        sent := s.sent ++ [buffer] }
  | post : 0 < s.posting → Step s .post { s with posting := s.posting - 1, tasks := s.tasks + 1 }
  | taskBusy : s.pc = .idle → 0 < s.tasks → s.write_buf_.readable ≠ [] →
      Step s .task { s with tasks := s.tasks - 1 }
  | taskWrite : s.pc = .idle → 0 < s.tasks → s.write_buf_.readable = [] →
      Step s .task { s with tasks := s.tasks - 1, pc := .write }
  | lockEmpty : s.pc = .write → s.unsend_queue_ = [] →
      Step s .lock { s with tmp_queue_ := [], pc := .idle }
  | lock : s.pc = .write → s.unsend_queue_ ≠ [] →
      Step s .lock { s with
        tmp_queue_ := s.unsend_queue_, unsend_queue_ := [], pc := .appending s.unsend_queue_ }
  | append (buf : Bytes) (rest : List Bytes) (write_buf : Buffer) :
      s.pc = .appending (buf :: rest) → s.write_buf_.append buf = .ok write_buf →
      write_buf.readable = s.write_buf_.readable ++ buf →
      Step s .append { s with
        write_buf_ := write_buf, pc := .appending rest, appended := s.appended ++ [buf] }
  | start : s.pc = .appending [] → Step s .start
      { s with ops := s.ops ++ [.pending s.write_buf_.readable], pc := .idle }
  | transfer (i size : Nat) (offered : Bytes) : s.ops[i]? = some (.pending offered) →
      s.isOpen = true → 1 ≤ size → size ≤ offered.length → Step s (.transfer i size)
        { s with ops := s.ops.set i (.done size), wire := s.wire ++ offered.take size }
  | fail (i : Nat) (offered : Bytes) : s.ops[i]? = some (.pending offered) →
      Step s (.fail i) { s with ops := s.ops.set i .failed }
  | complete (i size : Nat) (write_buf : Buffer) : s.pc = .idle → s.ops[i]? = some (.done size) →
      write_buf.readable = [] → Step s (.complete i)
        { s with write_buf_ := write_buf, ops := s.ops.eraseIdx i, pc := .completed }
  | completeFailed (i : Nat) : s.pc = .idle → s.ops[i]? = some .failed →
      Step s (.complete i) { s with ops := s.ops.eraseIdx i, closing := s.closing + 1 }
  | checkEmpty : s.pc = .completed → s.unsend_queue_ = [] → Step s .check { s with pc := .idle }
  | check : s.pc = .completed → s.unsend_queue_ ≠ [] → Step s .check { s with pc := .write }
  | close : Step s .close { s with closing := s.closing + 1 }
  | closeTask : s.pc = .idle → 0 < s.closing →
      Step s .closeTask { s with closing := s.closing - 1, isOpen := false }

/-- Everything a step can do. -/
theorem step_inv {s s' : State} {l : Label} (h : step s l = some s') : Step s l s' := by
  cases l with
  | send buffer =>
    cases h
    exact .send buffer
  | post =>
    simp only [step] at h
    split at h <;> cases h
    exact .post ‹_›
  | task =>
    simp only [step] at h
    split at h <;> cases h
    next hg =>
      by_cases hr : s.write_buf_.readable = []
      · have h0 := s.write_buf_.readable_eq_nil_iff.mp hr
        simp only [h0, ne_eq, not_true_eq_false, ↓reduceIte]
        exact .taskWrite hg.1 hg.2 hr
      · have h0 : s.write_buf_.readableBytes ≠ 0 := fun h =>
          hr (s.write_buf_.readable_eq_nil_iff.mpr h)
        have := Step.taskBusy hg.1 hg.2 hr
        simpa only [h0, ne_eq, not_false_eq_true, ↓reduceIte, ← hg.1] using this
  | lock =>
    simp only [step] at h
    split at h <;> cases h
    next hg =>
      by_cases hq : s.unsend_queue_ = []
      · simpa only [hq, ↓reduceIte] using Step.lockEmpty hg hq
      · simpa only [hq, ↓reduceIte] using Step.lock hg hq
  | append =>
    simp only [step] at h
    split at h
    · next buf rest hpc =>
      obtain ⟨wb, hwb, hr, _⟩ := s.write_buf_.append_ok buf
      rw [hwb] at h
      cases h
      exact .append buf rest wb hpc hwb hr
    · cases h
  | start =>
    simp only [step] at h
    split at h <;> cases h
    exact .start ‹_›
  | transfer i size =>
    simp only [step] at h
    split at h
    · next offered hop =>
      split at h <;> cases h
      next hg => exact .transfer i size offered hop hg.1 hg.2.1 hg.2.2
    · cases h
  | fail i =>
    simp only [step] at h
    split at h
    · next offered hop =>
      cases h
      exact .fail i offered hop
    · cases h
  | complete i =>
    simp only [step] at h
    split at h
    · next hpc =>
      split at h
      · next size hop =>
        obtain ⟨wb, hwb, hr⟩ := s.write_buf_.retrieve_ok s.write_buf_.readableBytes (Nat.le_refl _)
        rw [hwb] at h
        cases h
        refine .complete i size wb hpc hop ?_
        rw [hr, ← s.write_buf_.readable_length, List.drop_length]
      · next hop =>
        cases h
        exact .completeFailed i hpc hop
      · cases h
    · cases h
  | check =>
    simp only [step] at h
    split at h <;> cases h
    next hg =>
      by_cases hq : s.unsend_queue_ = []
      · simpa only [hq, ↓reduceIte] using Step.checkEmpty hg hq
      · simpa only [hq, ↓reduceIte] using Step.check hg hq
  | close =>
    cases h
    exact .close
  | closeTask =>
    simp only [step] at h
    split at h <;> cases h
    next hg => exact .closeTask hg.1 hg.2

/-! ## One write at a time -/

/-- The phases of the loop thread: where it stands, what `write_buf_` holds and
which operations are out. -/
inductive Phase : Pc → Bytes → List Op → Prop
  | quiet {pc : Pc} : pc = .idle ∨ pc = .write ∨ pc = .completed → Phase pc [] []
  | filling {rest : List Bytes} {w : Bytes} : (∀ b ∈ rest, b ≠ []) → rest ≠ [] ∨ w ≠ [] →
      Phase (.appending rest) w []
  | writing {w : Bytes} : w ≠ [] → Phase .idle w [.pending w]
  | written {w : Bytes} {size : Nat} : w ≠ [] → Phase .idle w [.done size]
  | broken {w : Bytes} : w ≠ [] → Phase .idle w [.failed]
  | dead {w : Bytes} : w ≠ [] → Phase .idle w []

/-- The buffers taken from the queue and not appended yet. -/
def todo : Pc → List Bytes
  | .appending rest => rest
  | _ => []

/-- What holds in every state of a run that sends no empty buffer. -/
structure Inv (s : State) : Prop where
  phase : Phase s.pc s.write_buf_.readable s.ops
  queued_ne : ∀ b ∈ s.unsend_queue_, b ≠ []
  order : s.sent = s.appended ++ todo s.pc ++ s.unsend_queue_

def NonemptySend : Label → Prop
  | .send buffer => buffer ≠ []
  | _ => True

theorem inv_init : Inv init := by
  refine ⟨?_, by simp [init], by simp [init, todo]⟩
  have h : init.write_buf_.readable = [] := Buffer.readable_ofSize _
  rw [h]
  exact .quiet (Or.inl rfl)

namespace Phase

variable {pc : Pc} {w : Bytes} {ops : List Op}

theorem of_empty (h : Phase pc [] ops) (hpc : todo pc = []) : ops = [] := by
  cases h with
  | quiet _ => rfl
  | filling _ _ => rfl
  | writing hn => exact absurd rfl hn
  | written hn => exact absurd rfl hn
  | broken hn => exact absurd rfl hn
  | dead _ => rfl

theorem of_write (h : Phase .write w ops) : w = [] ∧ ops = [] := by
  cases h with
  | quiet _ => exact ⟨rfl, rfl⟩

theorem of_completed (h : Phase .completed w ops) : w = [] ∧ ops = [] := by
  cases h with
  | quiet _ => exact ⟨rfl, rfl⟩

theorem of_appending {rest : List Bytes} (h : Phase (.appending rest) w ops) :
    ops = [] ∧ (∀ b ∈ rest, b ≠ []) ∧ (rest ≠ [] ∨ w ≠ []) := by
  cases h with
  | quiet hpc => rcases hpc with hpc | hpc | hpc <;> cases hpc
  | filling hall hne => exact ⟨rfl, hall, hne⟩

/-- At most one operation is out, the loop is idle meanwhile, and what it was
offered is still in `write_buf_`. -/
theorem of_op {i : Nat} {op : Op} (h : Phase pc w ops) (hop : ops[i]? = some op) :
    i = 0 ∧ ops = [op] ∧ pc = .idle ∧ w ≠ [] ∧ ∀ offered, op = .pending offered → offered = w := by
  have single {op' : Op} (hop : [op'][i]? = some op) : i = 0 ∧ op' = op := by
    cases i with
    | zero => exact ⟨rfl, by simpa using hop⟩
    | succ i => simp at hop
  cases h with
  | quiet _ => simp at hop
  | filling _ _ => simp at hop
  | dead _ => simp at hop
  | writing hn =>
    obtain ⟨rfl, rfl⟩ := single hop
    exact ⟨rfl, rfl, rfl, hn, fun o h => by cases h; rfl⟩
  | written hn =>
    obtain ⟨rfl, rfl⟩ := single hop
    exact ⟨rfl, rfl, rfl, hn, fun o h => by cases h⟩
  | broken hn =>
    obtain ⟨rfl, rfl⟩ := single hop
    exact ⟨rfl, rfl, rfl, hn, fun o h => by cases h⟩

end Phase

theorem Step.inv {s s' : State} {l : Label} (h : Step s l s') (hl : NonemptySend l) (hi : Inv s) :
    Inv s' := by
  obtain ⟨hphase, hne, horder⟩ := hi
  cases h with
  | send buffer =>
    refine ⟨hphase, ?_, by simp [horder]⟩
    intro b hb
    rcases List.mem_append.mp hb with hb | hb
    · exact hne b hb
    · rw [List.mem_singleton.mp hb]
      exact hl
  | post => exact ⟨hphase, hne, horder⟩
  | taskBusy => exact ⟨hphase, hne, horder⟩
  | taskWrite hpc _ hw =>
    refine ⟨?_, hne, by simpa [hpc, todo] using horder⟩
    rw [hpc, hw] at hphase
    rw [hw, hphase.of_empty rfl]
    exact .quiet (Or.inr (Or.inl rfl))
  | lockEmpty hpc hq =>
    refine ⟨?_, hne, by simpa [hpc, todo] using horder⟩
    obtain ⟨hw, hops⟩ := (hpc ▸ hphase).of_write
    rw [hw, hops]
    exact .quiet (Or.inl rfl)
  | lock hpc hq =>
    refine ⟨?_, by simp, by simpa [hpc, todo] using horder⟩
    obtain ⟨hw, hops⟩ := (hpc ▸ hphase).of_write
    rw [hw, hops]
    exact .filling hne (Or.inl hq)
  | append buf rest wb hpc _ hr =>
    refine ⟨?_, hne, by simpa [hpc, todo] using horder⟩
    obtain ⟨hops, hall, _⟩ := (hpc ▸ hphase).of_appending
    have hb : buf ≠ [] := hall buf (by simp)
    rw [hr, hops]
    exact .filling (fun b hb => hall b (by simp [hb])) (Or.inr (by simp [hb]))
  | start hpc =>
    refine ⟨?_, hne, by simpa [hpc, todo] using horder⟩
    obtain ⟨hops, _, hw⟩ := (hpc ▸ hphase).of_appending
    rw [hops]
    exact .writing (hw.resolve_left (by simp))
  | transfer i size offered hop _ _ _ =>
    refine ⟨?_, hne, horder⟩
    obtain ⟨rfl, hops, hpc, hw, _⟩ := hphase.of_op hop
    rw [hpc, hops]
    exact .written hw
  | fail i offered hop =>
    refine ⟨?_, hne, horder⟩
    obtain ⟨rfl, hops, hpc, hw, _⟩ := hphase.of_op hop
    rw [hpc, hops]
    exact .broken hw
  | complete i size wb hpc hop hr =>
    refine ⟨?_, hne, by simpa [hpc, todo] using horder⟩
    obtain ⟨rfl, hops, _⟩ := hphase.of_op hop
    rw [hr, hops]
    exact .quiet (Or.inr (Or.inr rfl))
  | completeFailed i hpc hop =>
    refine ⟨?_, hne, horder⟩
    obtain ⟨rfl, hops, _, hw, _⟩ := hphase.of_op hop
    rw [hpc, hops]
    exact .dead hw
  | checkEmpty hpc hq =>
    refine ⟨?_, hne, by simpa [hpc, todo] using horder⟩
    obtain ⟨hw, hops⟩ := (hpc ▸ hphase).of_completed
    rw [hw, hops]
    exact .quiet (Or.inl rfl)
  | check hpc hq =>
    refine ⟨?_, hne, by simpa [hpc, todo] using horder⟩
    obtain ⟨hw, hops⟩ := (hpc ▸ hphase).of_completed
    rw [hw, hops]
    exact .quiet (Or.inr (Or.inl rfl))
  | close => exact ⟨hphase, hne, horder⟩
  | closeTask => exact ⟨hphase, hne, horder⟩

/-! ## What reaches the socket -/

/-- The part of `write_buf_` that has not reached the socket, when a transfer
takes all it is offered. -/
def unwritten : List Op → Bytes → Bytes
  | [.done _], _ => []
  | _, w => w

/-- The socket has got everything that left the queue, except what is still to be
written. -/
def WireExact (s : State) : Prop :=
  s.wire ++ unwritten s.ops s.write_buf_.readable = s.appended.flatten

/-- A successful `async_write_some` reports everything it was offered. -/
def FullWrite (s : State) : Label → Prop
  | .transfer i size => ∀ offered, s.ops[i]? = some (.pending offered) → size = offered.length
  | _ => True

theorem wireExact_init : WireExact init := by
  have h : init.write_buf_.readable = [] := Buffer.readable_ofSize _
  rw [WireExact, h]
  rfl

theorem Step.wireExact {s s' : State} {l : Label} (h : Step s l s') (hl : FullWrite s l)
    (hi : Inv s) (hw : WireExact s) : WireExact s' := by
  have hphase := hi.phase
  simp only [WireExact] at hw ⊢
  cases h with
  | send buffer => exact hw
  | post => exact hw
  | taskBusy => exact hw
  | taskWrite => exact hw
  | lockEmpty => exact hw
  | lock => exact hw
  | append buf rest wb hpc _ hr =>
    obtain ⟨hops, _, _⟩ := (hpc ▸ hphase).of_appending
    simp only [hops, unwritten] at hw ⊢
    rw [hr, ← List.append_assoc, hw]
    simp
  | start hpc =>
    obtain ⟨hops, _, _⟩ := (hpc ▸ hphase).of_appending
    simpa [hops, unwritten] using hw
  | transfer i size offered hop _ _ _ =>
    obtain ⟨rfl, hops, _, _, hoff⟩ := hphase.of_op hop
    have hsize : size = offered.length := hl offered hop
    have hsame : offered = s.write_buf_.readable := hoff offered rfl
    simp only [hops, unwritten] at hw ⊢
    rw [hsize, List.take_length, hsame, ← hw]
    simp
  | fail i offered hop =>
    obtain ⟨rfl, hops, _⟩ := hphase.of_op hop
    simpa [hops, unwritten] using hw
  | complete i size wb hpc hop hr =>
    obtain ⟨rfl, hops, _⟩ := hphase.of_op hop
    simpa [hops, unwritten, hr] using hw
  | completeFailed i hpc hop =>
    obtain ⟨rfl, hops, _⟩ := hphase.of_op hop
    simpa [hops, unwritten] using hw
  | checkEmpty => exact hw
  | check => exact hw
  | close => exact hw
  | closeTask => exact hw

/-- Runs in which nobody sends an empty buffer and every write is a full one. -/
def Full : State → List Label → Prop := Guarded step fun s l => NonemptySend l ∧ FullWrite s l

theorem run_wireExact (ls : List Label) (s t : State) (hi : Inv s) (hw : WireExact s)
    (hfull : Full s ls) (hrun : run step s ls = some t) : Inv t ∧ WireExact t :=
  run_invariant (I := fun s => Inv s ∧ WireExact s)
    (fun _ _ _ hi hg hs => ⟨(step_inv hs).inv hg.1 hi.1, (step_inv hs).wireExact hg.2 hi.1 hi.2⟩)
    ls s t ⟨hi, hw⟩ hfull hrun

theorem wire_in_order {s : State} (hi : Inv s) (hw : WireExact s) : s.wire <+: s.sent.flatten := by
  rw [hi.order, List.flatten_append, List.flatten_append, ← hw]
  simp only [List.append_assoc]
  exact List.prefix_append _ _

/-! ## After a short write -/

/-- The loop of `write` moves the whole queue into `write_buf_`. -/
theorem run_appends (s : State) (rest : List Bytes) (hpc : s.pc = .appending rest) :
    ∃ t, run step s (List.replicate rest.length .append) = some t ∧ t.pc = .appending [] ∧
      t.write_buf_.readable = s.write_buf_.readable ++ rest.flatten ∧ t.ops = s.ops ∧
      t.wire = s.wire ∧ t.isOpen = s.isOpen ∧ t.sent = s.sent := by
  induction rest generalizing s with
  | nil => exact ⟨s, rfl, hpc, by simp, rfl, rfl, rfl, rfl⟩
  | cons buf rest ih =>
    obtain ⟨wb, hwb, hr, _⟩ := s.write_buf_.append_ok buf
    let s₁ : State := { s with
      write_buf_ := wb, pc := .appending rest, appended := s.appended ++ [buf] }
    have hstep : step s .append = some s₁ := by simp [step, hpc, hwb, Except.toOption, s₁]
    obtain ⟨t, hrun, ht, hread, hrest⟩ := ih s₁ rfl
    refine ⟨t, ?_, ht, ?_, hrest⟩
    · rw [List.length_cons, List.replicate_succ, run_cons_eq_some]
      exact ⟨_, hstep, hrun⟩
    · rw [hread, List.flatten_cons, ← List.append_assoc, ← hr]

/-- One more byte sent after a write, and the whole queue goes out. -/
def flush (b : UInt8) (queue : List Bytes) : List Label :=
  [.send [b], .complete 0, .check, .lock] ++ List.replicate (queue.length + 1) .append ++ [.start]

theorem run_flush (s : State) (b : UInt8) (size : Nat) (hpc : s.pc = .idle)
    (hops : s.ops = [.done size]) :
    ∃ t, run step s (flush b s.unsend_queue_) = some t ∧
      t.ops = [.pending (s.unsend_queue_.flatten ++ [b])] ∧ t.wire = s.wire ∧
      t.isOpen = s.isOpen ∧ t.sent = s.sent ++ [[b]] := by
  obtain ⟨wb, hwb, hr⟩ := s.write_buf_.retrieve_ok s.write_buf_.readableBytes (Nat.le_refl _)
  rw [← s.write_buf_.readable_length, List.drop_length] at hr
  let queue := s.unsend_queue_ ++ [[b]]
  let s₁ : State := { s with
    unsend_queue_ := queue
    posting := if s.write_buf_.readableBytes ≠ 0 then s.posting else s.posting + 1
    sent := s.sent ++ [[b]] }
  let s₂ : State := { s₁ with write_buf_ := wb, ops := [], pc := .completed }
  let s₃ : State := { s₂ with pc := .write }
  let s₄ : State := { s₃ with
    tmp_queue_ := queue, unsend_queue_ := [], pc := .appending queue }
  have h₁ : step s (.send [b]) = some s₁ := rfl
  have h₂ : step s₁ (.complete 0) = some s₂ := by
    simp [step, hpc, hops, hwb, Except.toOption, s₁, s₂]
  have h₃ : step s₂ .check = some s₃ := by simp [step, s₁, s₂, s₃, queue]
  have h₄ : step s₃ .lock = some s₄ := by simp [step, s₁, s₂, s₃, s₄, queue]
  obtain ⟨t, ht, hpc', hread, hops', hwire, hopen, hsent⟩ := run_appends s₄ queue rfl
  refine ⟨{ t with ops := t.ops ++ [.pending t.write_buf_.readable], pc := .idle }, ?_, ?_, ?_, ?_,
    ?_⟩
  · have hlen : queue.length = s.unsend_queue_.length + 1 := by simp [queue]
    have hlock : run step s [.send [b], .complete 0, .check, .lock] = some s₄ := by
      simp only [run, h₁, h₂, h₃, h₄, Option.bind_some]
    rw [hlen] at ht
    rw [flush, List.append_assoc, run_append_of _ _ _ _ hlock, run_append_of _ _ _ _ ht]
    simp [run, step, hpc']
  · simp [hops', hread, s₄, s₃, s₂, queue, hr]
  · exact hwire
  · exact hopen
  · exact hsent

theorem full_flush (s : State) (b : UInt8) (queue : List Bytes) : Full s (flush b queue) := by
  refine guarded_of_forall _ _ fun l hl s => ?_
  simp only [flush, List.mem_append, List.mem_cons, List.not_mem_nil, or_false,
    List.mem_replicate] at hl
  rcases hl with ((rfl | rfl | rfl | rfl) | ⟨_, rfl⟩) | rfl <;> simp [NonemptySend, FullWrite]

/-- A byte that follows a skipped part can be told from the byte that should have
come in its place. -/
theorem exists_wrong_byte (w q : Bytes) (size : Nat) (h : size < w.length) :
    ∃ b, ¬ w.take size ++ q ++ [b] <+: w ++ q ++ [b] := by
  have hlt : size + q.length < (w ++ q).length := by simp; omega
  refine ⟨(w ++ q)[size + q.length] + 1, fun hpre => ?_⟩
  have hget := hpre.getElem (i := size + q.length) (by simp; omega)
  rw [List.getElem_append_left hlt, List.getElem_append_right (by simp)] at hget
  simp only [List.getElem_singleton] at hget
  exact absurd hget (by grind)

/-- From a short write on, a full run can put a byte in the wrong place. -/
theorem short_write_loses {s s' : State} {i size : Nat} (hi : Inv s) (hw : WireExact s)
    (hs : step s (.transfer i size) = some s') (hshort : ¬ FullWrite s (.transfer i size)) :
    ∃ es t, Full s' es ∧ run step s' es = some t ∧ ¬ t.wire <+: t.sent.flatten := by
  cases step_inv hs with
  | transfer i size offered hop hopen _ hle =>
    obtain ⟨rfl, hops, hpc, _, hoff⟩ := hi.phase.of_op hop
    cases hoff offered rfl
    have hlt : size < s.write_buf_.readable.length := by
      refine Nat.lt_of_le_of_ne hle fun he => hshort fun o ho => ?_
      rw [hop] at ho
      cases ho
      exact he
    obtain ⟨b, hb⟩ := exists_wrong_byte s.write_buf_.readable s.unsend_queue_.flatten size hlt
    let s' : State := { s with
      ops := s.ops.set 0 (.done size), wire := s.wire ++ s.write_buf_.readable.take size }
    have hops' : s'.ops = [.done size] := by simp [s', hops]
    obtain ⟨t, ht, htops, htwire, htopen, htsent⟩ := run_flush s' b size hpc hops'
    generalize hout : s'.unsend_queue_.flatten ++ [b] = out at htops
    have hlast : step t (.transfer 0 out.length) = some { t with
        ops := t.ops.set 0 (.done out.length), wire := t.wire ++ out } := by
      have hpos : 1 ≤ out.length := by simp [← hout]
      simp [step, htops, htopen.trans hopen, hpos]
    refine ⟨flush b s.unsend_queue_ ++ [.transfer 0 out.length], _,
      guarded_append _ _ _ (full_flush s' b s.unsend_queue_) ?_,
      (run_append_of _ _ _ _ ht).trans (by rw [run, hlast]; rfl), ?_⟩
    · intro t' ht'
      cases ht.symm.trans ht'
      refine ⟨⟨trivial, fun offered hoff => ?_⟩, fun _ _ => trivial⟩
      rw [htops] at hoff
      cases hoff
      rfl
    · have hsent : s.sent.flatten =
          s.wire ++ (s.write_buf_.readable ++ s.unsend_queue_.flatten) := by
        have hexact : s.wire ++ s.write_buf_.readable = s.appended.flatten := by
          simpa [WireExact, hops, unwritten] using hw
        rw [hi.order, hpc, ← List.append_assoc, hexact]
        simp [todo]
      intro hpre
      rw [htwire, htsent, ← hout, List.flatten_append, show s'.sent = s.sent from rfl,
        hsent] at hpre
      simp only [s', List.append_assoc, List.flatten_singleton] at hpre
      refine hb ?_
      simpa only [List.append_assoc] using (List.prefix_append_right_inj s.wire).mp hpre

/-- **Wire fidelity.** As long as every write takes all it is offered, the bytes
on the socket are a prefix of the buffers sent, in the order `send` queued them.
The condition cannot be weakened: a transfer keeps the prefix in every full
continuation exactly when it is full itself. -/
theorem wire_fidelity_iff (ls : List Label) (s : State) (hfull : Full init ls)
    (hrun : run step init ls = some s) :
    s.wire <+: s.sent.flatten ∧
    ∀ i size s', step s (.transfer i size) = some s' →
      ((∀ es t, Full s' es → run step s' es = some t → t.wire <+: t.sent.flatten) ↔
        FullWrite s (.transfer i size)) := by
  obtain ⟨hi, hw⟩ := run_wireExact ls init s inv_init wireExact_init hfull hrun
  refine ⟨wire_in_order hi hw, fun i size s' hs => ⟨fun h => ?_, fun h es t hes ht => ?_⟩⟩
  · by_contra hshort
    obtain ⟨es, t, hes, ht, hnot⟩ := short_write_loses hi hw hs hshort
    exact hnot (h es t hes ht)
  · have hi' := (step_inv hs).inv trivial hi
    have hw' := (step_inv hs).wireExact h hi hw
    obtain ⟨hit, hwt⟩ := run_wireExact es s' t hi' hw' hes ht
    exact wire_in_order hit hwt

/-- A first buffer of two bytes, up to the start of its write. -/
def firstWrite : List Label := [.send [1, 2], .post, .task, .lock, .append, .start]

theorem firstWrite_ops :
    (run step init firstWrite).map (fun s => s.ops) = some [.pending [1, 2]] := by
  decide +kernel

theorem wire_fidelity_iff_first_write :
    ∃ s, run step init (firstWrite ++ [.transfer 0 2]) = some s ∧ s.wire <+: s.sent.flatten := by
  have hsome : (run step init (firstWrite ++ [.transfer 0 2])).isSome = true := by decide +kernel
  obtain ⟨s, hs⟩ := Option.isSome_iff_exists.mp hsome
  refine ⟨s, hs, (wire_fidelity_iff _ s (guarded_append _ _ _ ?_ ?_) hs).1⟩
  · exact guarded_of_forall _ _ (by simp [firstWrite, NonemptySend, FullWrite])
  · intro t ht
    have hops := firstWrite_ops
    simp only [ht, Option.map_some, Option.some.injEq] at hops
    refine ⟨⟨trivial, fun offered hoff => ?_⟩, fun _ _ => trivial⟩
    rw [hops] at hoff
    cases hoff
    rfl

/-- The write of `[1, 2]` takes one byte; the handler drops the other one, and
the next buffer follows in its place. -/
theorem wire_skips_byte_after_short_write :
    ∃ ls s, (∀ l ∈ ls, NonemptySend l) ∧ run step init ls = some s ∧ s.sent = [[1, 2], [3]] ∧
      s.wire = [1, 3] ∧ ¬ s.wire <+: s.sent.flatten := by
  let ls := firstWrite ++ [.transfer 0 1, .send [3], .complete 0, .check, .lock, .append, .start,
    .transfer 0 1]
  have hview : (run step init ls).map (fun s => (s.sent, s.wire)) =
      some ([[1, 2], [3]], [1, 3]) := by
    decide +kernel
  obtain ⟨s, hs, hv⟩ := Option.map_eq_some_iff.mp hview
  simp only [Prod.mk.injEq] at hv
  refine ⟨ls, s, by simp [ls, firstWrite, NonemptySend], hs, hv.1, hv.2, ?_⟩
  rw [hv.1, hv.2]
  decide

end Cppim.Net.Session
