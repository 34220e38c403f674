import Cppim.Lib.Loop
import Cppim.Net.SendQueue

/-! `Session::connect`, `read` and `reconnect` of `net/Session.cc`: a session that connects
to a server and connects again whenever the connection is lost.

All handlers run on the loop thread, so a handler of the connection runs between those of
the sending side. `read_buf_` and `write_buf_` belong to the session and not to the
connection. A client never sets `disconnectcallback_`: `close`, which only the handler of a
failed write calls here, throws `std::bad_function_call` out of the loop. -/

namespace Cppim.Net.Client

open Cppim.Common Cppim.Lib Cppim.Lib.Loop Cppim.Lib.Transition

/-- Where the connection stands. -/
inductive Link where
  /-- an `async_connect` is out -/
  | connecting
  /-- connected, and an `async_read_some` is out -/
  | up
  /-- the timer of `reconnect` is running -/
  | waiting
  deriving Repr, DecidableEq

/-- Why the loop thread has stopped. -/
inductive Failure where
  /-- an empty `std::function` was called -/
  | badFunctionCall
  /-- `messagecallback_` did not return -/
  | messageCallback (e : Fault)
  deriving Repr, DecidableEq

variable {ω : Type}

/-- What was read on one connection, and what `messagecallback_` did with it. -/
structure Connection (ω : Type) where
  received : Bytes := []
  events : List ω := []
  deriving Repr, DecidableEq

structure State (ω : Type) where
  /-- the sending side -/
  session : Session.State
  link : Link
  read_buf_ : Buffer
  failure : Option Failure
  /-- the connections so far, the latest first -/
  connections : List (Connection ω)
  deriving Repr, DecidableEq

/-- A session right after `connect`. -/
def init : State ω where
  session := Session.init
  link := .connecting
  read_buf_ := Buffer.ofSize kInitialSize
  failure := none
  connections := []

inductive Label where
  /-- a step of the sending side -/
  | sending (l : Session.Label)
  /-- the handler of an `async_write_some` that failed -/
  | writeFailed (i : Nat)
  /-- the handler of a successful `async_connect` -/
  | connected
  /-- the handler of a failed `async_connect`, as it fails on a socket that is still open -/
  | connectFailed
  /-- the handler of an `async_read_some` that read these bytes -/
  | received (chunk : Bytes)
  /-- the handler of a failed `async_read_some` -/
  | readFailed
  /-- the handler of the timer -/
  | timer
  deriving Repr, DecidableEq

/-- The handler of a read: `hasWritten`, `messagecallback_`, `ensureWritableBytes`. -/
def onRead (messagecallback_ : Buffer → Outcome Buffer ω Fault) (read_buf : Buffer)
    (chunk : Bytes) : Outcome Buffer ω Fault :=
  match (read_buf.copyIn chunk).hasWritten chunk.length with
  | .error e => .fault [] e
  | .ok buf =>
    match messagecallback_ buf with
    | .done o buf =>
      match buf.ensureWritableBytes chunk.length with
      | .ok buf => .done o buf
      | .error e => .fault o e
    | x => x

/-- Everything the handler of a read can do with bytes that fit into `read_buf_`. -/
theorem onRead_cases (messagecallback_ : Buffer → Outcome Buffer ω Fault) {read_buf : Buffer}
    {chunk : Bytes} (hroom : chunk.length ≤ read_buf.writableBytes) :
    ∃ b, b.readable = read_buf.readable ++ chunk ∧
      ((∃ o b' buf, messagecallback_ b = .done o b' ∧
          onRead messagecallback_ read_buf chunk = .done o buf ∧
          buf.readable = b'.readable ∧ chunk.length ≤ buf.writableBytes) ∨
        (∃ o e, messagecallback_ b = .fault o e ∧
          onRead messagecallback_ read_buf chunk = .fault o e) ∨
        ∃ o b', messagecallback_ b = .spin o b' ∧
          onRead messagecallback_ read_buf chunk = .spin o b') := by
  obtain ⟨b, hb, hread, -⟩ := read_buf.copyIn_hasWritten_ok chunk hroom
  refine ⟨b, hread, ?_⟩
  simp only [onRead, hb]
  cases hcall : messagecallback_ b with
  | done o b' =>
    obtain ⟨buf, hbuf, hwritable, hread', -⟩ := b'.ensureWritableBytes_ok chunk.length
    exact Or.inl ⟨o, b', buf, rfl, by simp only [hbuf], hread', hwritable⟩
  | fault o e => exact Or.inr (Or.inl ⟨o, e, rfl, rfl⟩)
  | spin o b' => exact Or.inr (Or.inr ⟨o, b', rfl, rfl⟩)

/-- The steps of the sending side as they are on a client. Nobody calls `close`, nothing is
written to a socket that is not connected yet, and the handler of a failed write is
`writeFailed`. -/
def Ordinary (s : State ω) : Session.Label → Prop
  | .close => False
  | .closeTask => False
  | .transfer _ _ => s.link ≠ .connecting
  | .complete i => s.session.ops[i]? ≠ some .failed
  | _ => True

instance (s : State ω) : (l : Session.Label) → Decidable (Ordinary s l)
  | .close | .closeTask => inferInstanceAs (Decidable False)
  | .transfer _ _ => inferInstanceAs (Decidable (s.link ≠ .connecting))
  | .complete i => inferInstanceAs (Decidable (s.session.ops[i]? ≠ some .failed))
  | .send _ | .post | .task | .lock | .append | .start | .fail _ | .check =>
    inferInstanceAs (Decidable True)

/-- A write that has not ended fails when the socket is closed. -/
def abort (ops : List Session.Op) : List Session.Op :=
  ops.map fun
    | .pending _ => .failed
    | op => op

/-- The latest connection has got these bytes. -/
def heard (s : State ω) (chunk : Bytes) (o : List ω) : List (Connection ω) :=
  s.connections.modifyHead fun c => ⟨c.received ++ chunk, c.events ++ o⟩

/-- One handler, or one step of the sending side; `none` means that it cannot run. -/
def step (messagecallback_ : Buffer → Outcome Buffer ω Fault) (s : State ω) (l : Label) :
    Option (State ω) :=
  if s.failure = none then
    match l with
    | .sending l =>
      if Ordinary s l then (Session.step s.session l).map fun t => { s with session := t }
      else none
    | .writeFailed i =>
      if s.session.pc = .idle ∧ s.session.ops[i]? = some .failed then
        some { s with
          session := { s.session with ops := s.session.ops.eraseIdx i }
          failure := some .badFunctionCall }
      else none
    | .connected =>
      if s.session.pc = .idle ∧ s.link = .connecting then
        some { s with link := .up, connections := {} :: s.connections }
      else none
    | .connectFailed =>
      if s.session.pc = .idle ∧ s.link = .connecting then
        -- `socket_.close()`
        some { s with
          session := { s.session with isOpen := false, ops := abort s.session.ops }
          link := .waiting }
      else none
    | .received chunk =>
      if s.session.pc = .idle ∧ s.link = .up ∧ 1 ≤ chunk.length ∧
          chunk.length ≤ s.read_buf_.writableBytes then
        match onRead messagecallback_ s.read_buf_ chunk with
        | .done o buf => some { s with read_buf_ := buf, connections := heard s chunk o }
        | .fault o e => some { s with
            failure := some (.messageCallback e), connections := heard s chunk o }
        | .spin _ _ => none
      else none
    | .readFailed =>
      if s.session.pc = .idle ∧ s.link = .up then some { s with link := .waiting } else none
    | .timer =>
      if s.session.pc = .idle ∧ s.link = .waiting then
        -- a write that was started while the socket was closed has failed
        let ops := if s.session.isOpen then s.session.ops else abort s.session.ops
        some { s with
          session := { s.session with isOpen := true, ops := ops }
          link := .connecting }
      else none
  else none

/-- `step` as a relation. -/
inductive Step (messagecallback_ : Buffer → Outcome Buffer ω Fault) (s : State ω) :
    Label → State ω → Prop
  | sending {l : Session.Label} {t : Session.State} : Ordinary s l →
      Session.Step s.session l t →
      Step messagecallback_ s (.sending l) { s with session := t }
  | writeFailed {i : Nat} : s.session.pc = .idle → s.session.ops[i]? = some .failed →
      Step messagecallback_ s (.writeFailed i) { s with
        session := { s.session with ops := s.session.ops.eraseIdx i }
        failure := some .badFunctionCall }
  | connected : s.session.pc = .idle → s.link = .connecting →
      Step messagecallback_ s .connected
        { s with link := .up, connections := {} :: s.connections }
  | connectFailed : s.session.pc = .idle → s.link = .connecting →
      Step messagecallback_ s .connectFailed { s with
        session := { s.session with isOpen := false, ops := abort s.session.ops }
        link := .waiting }
  | received {chunk : Bytes} {o : List ω} {buf : Buffer} : s.session.pc = .idle → s.link = .up →
      1 ≤ chunk.length → chunk.length ≤ s.read_buf_.writableBytes →
      onRead messagecallback_ s.read_buf_ chunk = .done o buf →
      Step messagecallback_ s (.received chunk)
        { s with read_buf_ := buf, connections := heard s chunk o }
  | receivedFault {chunk : Bytes} {o : List ω} {e : Fault} : s.session.pc = .idle →
      s.link = .up → 1 ≤ chunk.length → chunk.length ≤ s.read_buf_.writableBytes →
      onRead messagecallback_ s.read_buf_ chunk = .fault o e →
      Step messagecallback_ s (.received chunk)
        { s with failure := some (.messageCallback e), connections := heard s chunk o }
  | readFailed : s.session.pc = .idle → s.link = .up →
      Step messagecallback_ s .readFailed { s with link := .waiting }
  | timer : s.session.pc = .idle → s.link = .waiting →
      Step messagecallback_ s .timer { s with
        session := { s.session with
          isOpen := true
          ops := if s.session.isOpen then s.session.ops else abort s.session.ops }
        link := .connecting }

variable {messagecallback_ : Buffer → Outcome Buffer ω Fault}

/-- Everything a step can do. -/
theorem step_inv {s s' : State ω} {l : Label} (h : step messagecallback_ s l = some s') :
    s.failure = none ∧ Step messagecallback_ s l s' := by
  unfold step at h
  split at h
  · rename_i hfail
    refine ⟨hfail, ?_⟩
    cases l with
    | sending l =>
      simp only at h
      split at h
      · rename_i hl
        obtain ⟨t, ht, rfl⟩ := Option.map_eq_some_iff.mp h
        exact .sending hl (Session.step_inv ht)
      · cases h
    | writeFailed i =>
      simp only at h
      split at h <;> cases h
      next hg => exact .writeFailed hg.1 hg.2
    | connected =>
      simp only at h
      split at h <;> cases h
      next hg => exact .connected hg.1 hg.2
    | connectFailed =>
      simp only at h
      split at h <;> cases h
      next hg => exact .connectFailed hg.1 hg.2
    | received chunk =>
      simp only at h
      split at h
      · rename_i hg
        obtain ⟨hpc, hlink, hpos, hroom⟩ := hg
        split at h
        · rename_i o buf hread
          cases h
          exact .received hpc hlink hpos hroom hread
        · rename_i o e hread
          cases h
          exact .receivedFault hpc hlink hpos hroom hread
        · cases h
      · cases h
    | readFailed =>
      simp only at h
      split at h <;> cases h
      next hg => exact .readFailed hg.1 hg.2
    | timer =>
      simp only at h
      split at h <;> cases h
      next hg => exact .timer hg.1 hg.2
  · cases h

/-! ## Reading -/

/-- There is always room for something to be read. -/
theorem run_roomy (ls : List Label) (s : State ω)
    (hr : run (step messagecallback_) init ls = some s) : 1 ≤ s.read_buf_.writableBytes := by
  apply run_kept (I := fun s : State ω => 1 ≤ s.read_buf_.writableBytes) _ ls init s _ hr
  · intro s l s' hs h
    cases (step_inv h).2 with
    | received _ _ hpos hroom hread =>
      obtain ⟨b, -, hcase⟩ := onRead_cases messagecallback_ hroom
      rcases hcase with ⟨o, b', buf, -, hdone, -, hwritable⟩ | ⟨o, e, -, hfault⟩ |
        ⟨o, b', -, hspin⟩
      · rw [hread] at hdone
        cases hdone
        exact Nat.le_trans hpos hwritable
      · simp [hread] at hfault
      · simp [hread] at hspin
    | _ => exact hs
  · simp [init, Buffer.writableBytes, Buffer.ofSize, kInitialSize]

/-! ## Sending -/

/-- The session can send: no empty function was called, whenever the loop is between two
handlers a write is out for what is in `write_buf_`, and a queue that is not empty is going
to be looked at. -/
structure CanSend (s : State ω) : Prop where
  called : s.failure ≠ some .badFunctionCall
  out : s.session.pc = .idle → s.link = .up → s.session.write_buf_.readable ≠ [] →
    s.session.ops ≠ []
  wake : s.session.unsend_queue_ ≠ [] → Session.Woken s.session

theorem alert_abort {s : Session.State} (isOpen : Bool) (h : Session.Alert s) :
    Session.Alert { s with isOpen := isOpen, ops := abort s.ops } := by
  have hops : abort s.ops ≠ [] ↔ s.ops ≠ [] := by simp [abort]
  refine ⟨fun hpc hw => hops.mpr (h.out hpc hw), h.empty, fun hq => ?_⟩
  rcases h.wake hq with hout | hrest
  · exact Or.inl (hops.mpr hout)
  · exact Or.inr hrest

/-- Every step but the handler of a failed write leaves the session able to send. -/
theorem Step.alert {s s' : State ω} {l : Label} (h : Step messagecallback_ s l s')
    (hl : ∀ i, l ≠ .writeFailed i)
    (hs : s.failure ≠ some .badFunctionCall ∧ Session.Alert s.session) :
    s'.failure ≠ some .badFunctionCall ∧ Session.Alert s'.session := by
  obtain ⟨hcalled, halert⟩ := hs
  cases h with
  | sending hord hstep =>
    refine ⟨hcalled, hstep.alert ?_ halert⟩
    rintro i rfl
    exact hord
  | writeFailed _ _ => exact absurd rfl (hl _)
  | receivedFault _ _ _ _ _ => exact ⟨by simp, halert⟩
  | connectFailed _ _ => exact ⟨hcalled, alert_abort false halert⟩
  | timer _ _ =>
    refine ⟨hcalled, ?_⟩
    simp only
    split
    · exact ⟨halert.out, halert.empty, halert.wake⟩
    · exact alert_abort true halert
  | connected _ _ => exact ⟨hcalled, halert⟩
  | received _ _ _ _ _ => exact ⟨hcalled, halert⟩
  | readFailed _ _ => exact ⟨hcalled, halert⟩

theorem run_canSend (ls : List Label) (s : State ω)
    (hls : ∀ i, .writeFailed i ∉ ls) (hr : run (step messagecallback_) init ls = some s) :
    CanSend s := by
  have hguard : Guarded (step messagecallback_) (fun _ l => ∀ i, l ≠ .writeFailed i) init ls :=
    guarded_of_forall ls init fun l hl _ i he => hls i (he ▸ hl)
  obtain ⟨hcalled, halert⟩ :=
    run_invariant (I := fun s => s.failure ≠ some .badFunctionCall ∧ Session.Alert s.session)
      (fun _ _ _ hs hl h => (step_inv h).2.alert hl hs) ls init s
      ⟨by simp [init], Session.alert_init⟩ hguard hr
  exact ⟨hcalled, fun hpc _ => halert.out hpc, halert.wake⟩

/-- The handler of a failed write does not return. -/
theorem writeFailed_fails {s s' : State ω} {i : Nat}
    (h : step messagecallback_ s (.writeFailed i) = some s') :
    s'.failure = some .badFunctionCall := by
  cases (step_inv h).2 with
  | writeFailed _ _ => rfl

end Cppim.Net.Client
