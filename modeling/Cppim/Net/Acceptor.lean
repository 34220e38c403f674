import Cppim.Common.Basic
import Cppim.Lib.Threads
import Cppim.Net.TcpServer

/-! `net/Acceptor.cc`, `net/LoopMgr.cc` and the callbacks of `net/Session.cc`: how the sessions
of a `TcpServer` begin and end.

A session is made and put into the table before a client is there. The thread of the
acceptor starts it, and from then on the handlers of its own loop act on it, while any
thread may close it. The environment decides when clients and bytes come and what fails.
`Inv` says where a session can stand; `Net/Lifecycle.lean` says what follows. -/

namespace Cppim.Net.Acceptor

open Cppim.Common Cppim.Lib.Threads Cppim.Lib.Transition

/-! ## The state -/

structure Config where
  /-- the number of loops -/
  thrnum : Nat
  /-- whether `disconnectcallback_` is set -/
  hasCallback : Bool

/-- The `async_read_some` of a session. -/
inductive Read where
  | idle
  | waiting
  /-- the handler is going to run -/
  | completed (err : Bool)
  deriving Repr, DecidableEq

structure Session where
  /-- the number of the loop in `loops_` -/
  loop_ : Nat
  /-- `socket_.is_open()` -/
  isOpen : Bool := false
  /-- `start` was called -/
  started : Bool := false
  read : Read := .idle
  /-- how many calls of `socket_.close` are posted to the loop -/
  posted : Nat := 0
  deriving Repr, DecidableEq

/-- Where the acceptor stands. -/
inductive Stage where
  /-- `listen` is posted to its loop -/
  | posted
  /-- in front of `accept` -/
  | accepting
  /-- `async_accept` is outstanding -/
  | waiting (s : Nat)
  /-- the handler is going to run -/
  | completed (s : Nat) (err : Bool)
  /-- in `start` of the session, in front of `read` -/
  | connected (s : Nat)
  /-- in front of `is_open` -/
  | handled
  | returned
  deriving Repr, DecidableEq

/-- What the server is told of a session. -/
inductive Kind where
  /-- `start` has come to `connectioncallback_` -/
  | connection
  | message
  | disconnect
  deriving Repr, DecidableEq

/-- `calls` is a record that no step reads. -/
structure State where
  server : TcpServer.State := {}
  next_ : Nat
  sessions : List Session := []
  /-- `acceptor_.is_open()` -/
  isOpen : Bool := false
  stage : Stage := .posted
  /-- the calls of `Session::close` that are behind the mutex, each with the session that it
  is going to report -/
  closing : List (Nat × Option Nat) := []
  /-- the calls of the callbacks -/
  calls : List (Nat × Kind) := []

inductive Label where
  /-- a client is there -/
  | arrive
  /-- `async_accept` fails -/
  | refuse
  /-- `Acceptor::close` -/
  | stop
  /-- `async_read_some` has read something -/
  | data (s : Nat)
  | fail (s : Nat)
  /-- `Session::close`, called from elsewhere: by a write that failed, or by a callback -/
  | close (s : Nat)
  | listen
  | accept
  /-- the handler of `async_accept`, up to the callback -/
  | handleAccept
  /-- the rest of `start` -/
  | startRead
  /-- the question whether the acceptor is still open -/
  | checkOpen
  /-- the handler of `async_read_some` -/
  | handleRead (s : Nat)
  /-- a call of `close` goes on, with `disconnectcallback_` -/
  | report (j : Nat)
  /-- and ends, having posted `socket_.close` -/
  | post (j : Nat)
  | closeSocket (s : Nat)
  deriving Repr, DecidableEq

/-- The threads of the loops go on by themselves. -/
def Label.own : Label → Bool
  | .arrive | .refuse | .stop | .data _ | .fail _ | .close _ => false
  | _ => true

/-! ## The steps -/

/-- `LoopMgr::findNextLoop`, which leaves in `next_` the number that it returns. -/
def findNextLoop (thrnum next_ : Nat) : Nat :=
  if next_ + 1 = thrnum then 0 else next_ + 1

/-- The constructor of `TcpServer` takes a loop for the acceptor; `start` posts `listen`. -/
def start (cfg : Config) : State where
  next_ := findNextLoop cfg.thrnum 0

/-- `TcpServer::newSession` -/
def newSession (cfg : Config) (st : State) : State :=
  { st with
    server := TcpServer.newSession st.server
    next_ := findNextLoop cfg.thrnum st.next_
    sessions := st.sessions ++ [{ loop_ := findNextLoop cfg.thrnum st.next_ }] }

/-- On a socket that is not open `async_read_some` fails. -/
def Session.asyncRead (c : Session) : Session :=
  { c with read := if c.isOpen then .waiting else .completed true }

/-- `socket_.close`, by which an outstanding read fails. -/
def Session.closeSocket (c : Session) : Session :=
  { c with
    isOpen := false
    read := if c.read = .waiting then .completed true else c.read
    posted := c.posted - 1 }

/-- What `DefaultDisconnectCallback` finds and is going to report. -/
def found (cfg : Config) (server : TcpServer.State) (s : Nat) : Option Nat :=
  if cfg.hasCallback then
    server.ids[s]?.bind fun id => server.connections_[TcpServer.toKey id]?
  else none

/-- `Session::close`, up to the end of the section under the mutex. -/
def close (cfg : Config) (st : State) (s : Nat) : Option State :=
  (TcpServer.step cfg.hasCallback st.server (.close s)).map fun server =>
    { st with server := server, closing := st.closing ++ [(s, found cfg st.server s)] }

/-- The handler of `async_accept`. -/
def handleAccept (cfg : Config) (st : State) (s : Nat) (err : Bool) : Option State :=
  if err then close cfg { st with stage := .handled } s
  else
    st.sessions[s]?.map fun c =>
      { st with
        stage := .connected s
        sessions := st.sessions.set s { c with started := true }
        calls := st.calls ++ [(s, .connection)] }

/-- The handler of `async_read_some`; `reconnect_` is not set. -/
def handleRead (cfg : Config) (st : State) (s : Nat) (c : Session) (err : Bool) : Option State :=
  if err then close cfg { st with sessions := st.sessions.set s { c with read := .idle } } s
  else
    some { st with
      sessions := st.sessions.set s c.asyncRead
      calls := st.calls ++ [(s, .message)] }

def step (cfg : Config) (st : State) : Label → Option State
  | .arrive =>
    match st.stage with
    | .waiting s =>
      st.sessions[s]?.map fun c =>
        { st with
          stage := .completed s false
          sessions := st.sessions.set s { c with isOpen := true } }
    | _ => none
  | .refuse =>
    match st.stage with
    | .waiting s => some { st with stage := .completed s true }
    | _ => none
  | .stop =>
    match st.stage with
    | .waiting s => some { st with isOpen := false, stage := .completed s true }
    | _ => some { st with isOpen := false }
  | .data s =>
    match st.sessions[s]? with
    | some c =>
      if c.read = .waiting then
        some { st with sessions := st.sessions.set s { c with read := .completed false } }
      else none
    | none => none
  | .fail s =>
    match st.sessions[s]? with
    | some c =>
      if c.read = .waiting then
        some { st with sessions := st.sessions.set s { c with read := .completed true } }
      else none
    | none => none
  | .close s =>
    match st.sessions[s]? with
    | some c => if c.started then close cfg st s else none
    | none => none
  | .listen =>
    if st.stage = .posted then some { st with isOpen := true, stage := .accepting } else none
  | .accept =>
    -- `loops_[next_]`
    if st.stage = .accepting ∧ findNextLoop cfg.thrnum st.next_ < cfg.thrnum then
      some { newSession cfg st with
        stage :=
          if st.isOpen then .waiting st.sessions.length else .completed st.sessions.length true }
    else none
  | .handleAccept =>
    match st.stage with
    | .completed s err => handleAccept cfg st s err
    | _ => none
  | .startRead =>
    match st.stage with
    | .connected s =>
      st.sessions[s]?.map fun c =>
        { st with stage := .handled, sessions := st.sessions.set s c.asyncRead }
    | _ => none
  | .checkOpen =>
    if st.stage = .handled then
      some { st with stage := if st.isOpen then .accepting else .returned }
    else none
  | .handleRead s =>
    match st.sessions[s]? with
    | some c =>
      match c.read with
      | .completed err => handleRead cfg st s c err
      | _ => none
    | none => none
  | .report j =>
    match st.closing[j]? with
    | some (s, some o) =>
      (TcpServer.step cfg.hasCallback st.server (.report (st.server.reporting.idxOf o))).map
        fun server =>
          { st with
            server := server
            closing := st.closing.set j (s, none)
            calls := st.calls ++ [(o, .disconnect)] }
    | _ => none
  | .post j =>
    match st.closing[j]? with
    | some (s, none) =>
      st.sessions[s]?.map fun c =>
        { st with
          closing := st.closing.eraseIdx j
          sessions := st.sessions.set s { c with posted := c.posted + 1 } }
    | _ => none
  | .closeSocket s =>
    match st.sessions[s]? with
    | some c =>
      if 0 < c.posted then some { st with sessions := st.sessions.set s c.closeSocket } else none
    | none => none

/-- The steps, one constructor for each way in which a step is taken. -/
inductive Step (cfg : Config) (st : State) : Label → State → Prop
  | arrive (s : Nat) (c : Session) (hstage : st.stage = .waiting s)
      (hc : st.sessions[s]? = some c) :
    Step cfg st .arrive { st with
      stage := .completed s false
      sessions := st.sessions.set s { c with isOpen := true } }
  | refuse (s : Nat) (hstage : st.stage = .waiting s) :
    Step cfg st .refuse { st with stage := .completed s true }
  | abort (s : Nat) (hstage : st.stage = .waiting s) :
    Step cfg st .stop { st with isOpen := false, stage := .completed s true }
  | stop (hstage : ∀ s, st.stage ≠ .waiting s) : Step cfg st .stop { st with isOpen := false }
  | data (s : Nat) (c : Session) (hc : st.sessions[s]? = some c) (hread : c.read = .waiting) :
    Step cfg st (.data s) { st with
      sessions := st.sessions.set s { c with read := .completed false } }
  | fail (s : Nat) (c : Session) (hc : st.sessions[s]? = some c) (hread : c.read = .waiting) :
    Step cfg st (.fail s) { st with
      sessions := st.sessions.set s { c with read := .completed true } }
  | close (s : Nat) (c : Session) (server : TcpServer.State) (hc : st.sessions[s]? = some c)
      (hstarted : c.started = true)
      (hserver : TcpServer.step cfg.hasCallback st.server (.close s) = some server) :
    Step cfg st (.close s) { st with
      server := server
      closing := st.closing ++ [(s, found cfg st.server s)] }
  | listen (hstage : st.stage = .posted) :
    Step cfg st .listen { st with isOpen := true, stage := .accepting }
  | accept (hstage : st.stage = .accepting)
      (hnext : findNextLoop cfg.thrnum st.next_ < cfg.thrnum) :
    Step cfg st .accept { newSession cfg st with
      stage :=
        if st.isOpen then .waiting st.sessions.length else .completed st.sessions.length true }
  | connect (s : Nat) (c : Session) (hstage : st.stage = .completed s false)
      (hc : st.sessions[s]? = some c) :
    Step cfg st .handleAccept { st with
      stage := .connected s
      sessions := st.sessions.set s { c with started := true }
      calls := st.calls ++ [(s, .connection)] }
  | failed (s : Nat) (server : TcpServer.State) (hstage : st.stage = .completed s true)
      (hserver : TcpServer.step cfg.hasCallback st.server (.close s) = some server) :
    Step cfg st .handleAccept { st with
      stage := .handled
      server := server
      closing := st.closing ++ [(s, found cfg st.server s)] }
  | startRead (s : Nat) (c : Session) (hstage : st.stage = .connected s)
      (hc : st.sessions[s]? = some c) :
    Step cfg st .startRead { st with
      stage := .handled
      sessions := st.sessions.set s c.asyncRead }
  | checkOpen (hstage : st.stage = .handled) :
    Step cfg st .checkOpen { st with stage := if st.isOpen then .accepting else .returned }
  | message (s : Nat) (c : Session) (hc : st.sessions[s]? = some c)
      (hread : c.read = .completed false) :
    Step cfg st (.handleRead s) { st with
      sessions := st.sessions.set s c.asyncRead
      calls := st.calls ++ [(s, .message)] }
  | lost (s : Nat) (c : Session) (server : TcpServer.State) (hc : st.sessions[s]? = some c)
      (hread : c.read = .completed true)
      (hserver : TcpServer.step cfg.hasCallback st.server (.close s) = some server) :
    Step cfg st (.handleRead s) { st with
      sessions := st.sessions.set s { c with read := .idle }
      server := server
      closing := st.closing ++ [(s, found cfg st.server s)] }
  | report (j s o : Nat) (server : TcpServer.State) (hj : st.closing[j]? = some (s, some o))
      (hserver : TcpServer.step cfg.hasCallback st.server
        (.report (st.server.reporting.idxOf o)) = some server) :
    Step cfg st (.report j) { st with
      server := server
      closing := st.closing.set j (s, none)
      calls := st.calls ++ [(o, .disconnect)] }
  | post (j s : Nat) (c : Session) (hj : st.closing[j]? = some (s, none))
      (hc : st.sessions[s]? = some c) :
    Step cfg st (.post j) { st with
      closing := st.closing.eraseIdx j
      sessions := st.sessions.set s { c with posted := c.posted + 1 } }
  | closeSocket (s : Nat) (c : Session) (hc : st.sessions[s]? = some c)
      (hposted : 0 < c.posted) :
    Step cfg st (.closeSocket s) { st with sessions := st.sessions.set s c.closeSocket }

theorem close_inv {cfg : Config} {st st' : State} {s : Nat} (h : close cfg st s = some st') :
    ∃ server, TcpServer.step cfg.hasCallback st.server (.close s) = some server ∧
      st' = { st with
        server := server
        closing := st.closing ++ [(s, found cfg st.server s)] } := by
  obtain ⟨server, hserver, rfl⟩ := Option.map_eq_some_iff.mp h
  exact ⟨server, hserver, rfl⟩

theorem step_inv {cfg : Config} {st st' : State} {l : Label} (h : step cfg st l = some st') :
    Step cfg st l st' := by
  cases l with
  | arrive =>
    simp only [step] at h
    split at h
    · obtain ⟨c, hc, rfl⟩ := Option.map_eq_some_iff.mp h
      exact .arrive _ c ‹_› hc
    · cases h
  | refuse =>
    simp only [step] at h
    split at h
    · cases h
      exact .refuse _ ‹_›
    · cases h
  | stop =>
    simp only [step] at h
    split at h
    · cases h
      exact .abort _ ‹_›
    · cases h
      exact .stop ‹_›
  | data s =>
    simp only [step] at h
    split at h
    · split at h
      · cases h
        exact .data s _ ‹_› ‹_›
      · cases h
    · cases h
  | fail s =>
    simp only [step] at h
    split at h
    · split at h
      · cases h
        exact .fail s _ ‹_› ‹_›
      · cases h
    · cases h
  | close s =>
    simp only [step] at h
    split at h
    · split at h
      · obtain ⟨server, hserver, rfl⟩ := close_inv h
        exact .close s _ server ‹_› ‹_› hserver
      · cases h
    · cases h
  | listen =>
    simp only [step] at h
    split at h
    · cases h
      exact .listen ‹_›
    · cases h
  | accept =>
    simp only [step] at h
    split at h
    · rename_i hboth
      cases h
      exact .accept hboth.1 hboth.2
    · cases h
  | handleAccept =>
    simp only [step] at h
    split at h
    · rename_i s err hstage
      cases err with
      | false =>
        obtain ⟨c, hc, rfl⟩ := Option.map_eq_some_iff.mp h
        exact .connect s c hstage hc
      | true =>
        obtain ⟨server, hserver, rfl⟩ := close_inv h
        exact .failed s server hstage hserver
    · cases h
  | startRead =>
    simp only [step] at h
    split at h
    · obtain ⟨c, hc, rfl⟩ := Option.map_eq_some_iff.mp h
      exact .startRead _ c ‹_› hc
    · cases h
  | checkOpen =>
    simp only [step] at h
    split at h
    · cases h
      exact .checkOpen ‹_›
    · cases h
  | handleRead s =>
    simp only [step] at h
    split at h
    · rename_i c hc
      split at h
      · rename_i err hread
        cases err with
        | false =>
          cases h
          exact .message s c hc hread
        | true =>
          obtain ⟨server, hserver, rfl⟩ := close_inv h
          exact .lost s c server hc hread hserver
      · cases h
    · cases h
  | report j =>
    simp only [step] at h
    split at h
    · rename_i s o hj
      obtain ⟨server, hserver, rfl⟩ := Option.map_eq_some_iff.mp h
      exact .report j s o server hj hserver
    · cases h
  | post j =>
    simp only [step] at h
    split at h
    · rename_i s hj
      obtain ⟨c, hc, rfl⟩ := Option.map_eq_some_iff.mp h
      exact .post j s c hj hc
    · cases h
  | closeSocket s =>
    simp only [step] at h
    split at h
    · split at h
      · cases h
        exact .closeSocket s _ ‹_› ‹_›
      · cases h
    · cases h

/-! ## What holds of each session -/

/-- The session that waits for a client. -/
def Stage.pending : Stage → Option Nat
  | waiting s | completed s _ => some s
  | _ => none

/-- The session that the acceptor has in its hands. -/
def Stage.session : Stage → Option Nat
  | waiting s | completed s _ | connected s => some s
  | _ => none

/-- What holds of a session at every moment: as long as it is not closed it waits for a
client, or it is connected and a read is on its way; once it is closed somebody is about to
close its socket, or it is closed. -/
structure Fits (stage : Stage) (closed : List Nat) (closing : List (Nat × Option Nat)) (s : Nat)
    (c : Session) : Prop where
  fresh : c.started = false → c.read = .idle ∧ (s ∈ closed ∨ stage.pending = some s)
  pending : stage.pending = some s →
    c.started = false ∧ s ∉ closed ∧ (c.isOpen = true ↔ stage = .completed s false)
  connected : stage = .connected s → c.started = true ∧ c.read = .idle
  running : c.started = true → s ∉ closed →
    c.isOpen = true ∧ (c.read ≠ .idle ∨ stage = .connected s)
  ends : s ∈ closed → (∃ p ∈ closing, p.1 = s) ∨ 0 < c.posted ∨ c.isOpen = false
  posted : 0 < c.posted → s ∈ closed
  reads : c.read = .waiting → c.isOpen = true

namespace Fits

variable {stage : Stage} {closed : List Nat} {closing : List (Nat × Option Nat)} {s : Nat}
  {c : Session}

/-- The acceptor goes on, but not with this session. -/
theorem elsewhere (h : Fits stage closed closing s c) {stage' : Stage}
    (hbefore : stage.session ≠ some s) (hbehind : stage'.session ≠ some s) :
    Fits stage' closed closing s c := by
  obtain ⟨fresh, pending, connected, running, ends, posted, reads⟩ := h
  have hpending : ∀ {u : Stage}, u.session ≠ some s →
      u.pending ≠ some s ∧ u ≠ .completed s false ∧ u ≠ .connected s := by
    intro u hu
    cases u <;> simp_all [Stage.session, Stage.pending]
  have hone := hpending hbefore
  have htwo := hpending hbehind
  constructor <;> simp_all

/-- The session is closed, for the first time or once more. -/
theorem close (h : Fits stage closed closing s c) (hstage : stage.pending ≠ some s)
    (f : Option Nat) : Fits stage (closed ++ [s]) (closing ++ [(s, f)]) s c := by
  obtain ⟨fresh, pending, connected, running, ends, posted, reads⟩ := h
  constructor <;> simp_all

/-- Another session is closed. -/
theorem close_other (h : Fits stage closed closing s c) {t : Nat} (ht : s ≠ t) (f : Option Nat) :
    Fits stage (closed ++ [t]) (closing ++ [(t, f)]) s c := by
  obtain ⟨fresh, pending, connected, running, ends, posted, reads⟩ := h
  constructor <;> simp_all [Ne.symm ht]

theorem data (h : Fits stage closed closing s c) (hread : c.read = .waiting) (err : Bool) :
    Fits stage closed closing s { c with read := .completed err } := by
  obtain ⟨fresh, pending, connected, running, ends, posted, reads⟩ := h
  constructor <;> simp_all

theorem message (h : Fits stage closed closing s c) (hread : c.read = .completed false) :
    Fits stage closed closing s c.asyncRead := by
  obtain ⟨fresh, pending, connected, running, ends, posted, reads⟩ := h
  constructor <;> simp_all [Session.asyncRead]

theorem closeSocket (h : Fits stage closed closing s c) (hposted : 0 < c.posted) :
    Fits stage closed closing s c.closeSocket := by
  obtain ⟨fresh, pending, connected, running, ends, posted, reads⟩ := h
  have hread : c.closeSocket.read ≠ .waiting := by
    simp only [Session.closeSocket]
    split
    · exact Read.noConfusion
    · assumption
  constructor <;> simp_all [Session.closeSocket]

theorem arrive (h : Fits (.waiting s) closed closing s c) :
    Fits (.completed s false) closed closing s { c with isOpen := true } := by
  obtain ⟨fresh, pending, connected, running, ends, posted, reads⟩ := h
  constructor <;> simp_all [Stage.pending]

theorem refuse (h : Fits (.waiting s) closed closing s c) :
    Fits (.completed s true) closed closing s c := by
  obtain ⟨fresh, pending, connected, running, ends, posted, reads⟩ := h
  constructor <;> simp_all [Stage.pending]

theorem accept (hs : s ∉ closed) (loop_ : Nat) (hstage : stage.pending = some s)
    (hwaits : stage ≠ .completed s false) : Fits stage closed closing s { loop_ := loop_ } := by
  have hconnected : stage ≠ .connected s := by
    rintro rfl
    cases hstage
  constructor <;> simp_all

theorem connect (h : Fits (.completed s false) closed closing s c) :
    Fits (.connected s) closed closing s { c with started := true } := by
  obtain ⟨fresh, pending, connected, running, ends, posted, reads⟩ := h
  constructor <;> simp_all [Stage.pending]

theorem failed (h : Fits (.completed s true) closed closing s c) (f : Option Nat) :
    Fits .handled (closed ++ [s]) (closing ++ [(s, f)]) s c := by
  obtain ⟨fresh, pending, connected, running, ends, posted, reads⟩ := h
  constructor <;> simp_all [Stage.pending]

theorem startRead (h : Fits (.connected s) closed closing s c) :
    Fits .handled closed closing s c.asyncRead := by
  obtain ⟨fresh, pending, connected, running, ends, posted, reads⟩ := h
  constructor <;> simp_all [Stage.pending, Session.asyncRead]

theorem lost (h : Fits stage closed closing s c) (hread : c.read = .completed true)
    (f : Option Nat) :
    Fits stage (closed ++ [s]) (closing ++ [(s, f)]) s { c with read := .idle } := by
  obtain ⟨fresh, pending, connected, running, ends, posted, reads⟩ := h
  constructor <;> simp_all

theorem post (h : Fits stage closed closing s c) (hs : s ∈ closed)
    (closing' : List (Nat × Option Nat)) :
    Fits stage closed closing' s { c with posted := c.posted + 1 } := by
  obtain ⟨fresh, pending, connected, running, ends, posted, reads⟩ := h
  constructor <;> simp_all

theorem of_closing (h : Fits stage closed closing s c) {closing' : List (Nat × Option Nat)}
    (hclosing : (∃ p ∈ closing, p.1 = s) → ∃ p ∈ closing', p.1 = s) :
    Fits stage closed closing' s c := by
  obtain ⟨fresh, pending, connected, running, ends, posted, reads⟩ := h
  exact ⟨fresh, pending, connected, running, fun hs => (ends hs).imp_left hclosing, posted, reads⟩

end Fits

/-! ## What holds of the server -/

/-- The loops are taken in turn. -/
structure Turns (cfg : Config) (st : State) : Prop where
  next : st.next_ = (st.sessions.length + 1) % cfg.thrnum
  loops : ∀ (s : Nat) c, st.sessions[s]? = some c → c.loop_ = (s + 2) % cfg.thrnum

/-- The acceptor handles the last session, and stands still only when it is closed. -/
structure Placed (st : State) : Prop where
  pending : ∀ s, st.stage.pending = some s → s + 1 = st.sessions.length
  connected : ∀ s, st.stage = .connected s → s + 1 = st.sessions.length
  waiting : ∀ s, st.stage = .waiting s → st.isOpen = true
  returned : st.stage = .returned → st.isOpen = false

/-- The table is in order, and so are the calls of `close`. -/
structure Closes (st : State) : Prop where
  server : TcpServer.Inv st.server
  length : st.sessions.length = st.server.ids.length
  closing : ∀ p ∈ st.closing, p.1 ∈ st.server.closed
  reporting : (st.closing.filterMap Prod.snd).Perm st.server.reporting

structure Inv (cfg : Config) (st : State) : Prop extends Turns cfg st, Placed st, Closes st where
  fits : ∀ (s : Nat) c, st.sessions[s]? = some c → Fits st.stage st.server.closed st.closing s c

theorem findNextLoop_mod {thrnum : Nat} (h : 0 < thrnum) (k : Nat) :
    findNextLoop thrnum (k % thrnum) = (k + 1) % thrnum := by
  have hlt := Nat.mod_lt k h
  rw [← Nat.mod_add_mod]
  unfold findNextLoop
  split
  · rename_i heq
    rw [heq, Nat.mod_self]
  · exact (Nat.mod_eq_of_lt (by omega)).symm

variable {cfg : Config} {st st' : State} {l : Label}

/-- A session that goes on stays on its loop. -/
theorem Turns.set (h : Turns cfg st) {s : Nat} {c c' : Session} (hc : st.sessions[s]? = some c)
    (hloop : c'.loop_ = c.loop_) :
    ∀ (t : Nat) d, (st.sessions.set s c')[t]? = some d → d.loop_ = (t + 2) % cfg.thrnum :=
  forall_getElem?_set (hloop.trans (h.loops s c hc)) fun t d _ hd => h.loops t d hd

theorem Step.turns (hstep : Step cfg st l st') (hpos : 0 < cfg.thrnum) (h : Turns cfg st) :
    Turns cfg st' := by
  cases hstep with
  | accept hstage hnext =>
    have hloop : findNextLoop cfg.thrnum st.next_ = (st.sessions.length + 2) % cfg.thrnum := by
      rw [h.next, findNextLoop_mod hpos]
    refine ⟨?_, forall_getElem?_concat hloop h.loops⟩
    simp only [newSession, List.length_append, List.length_singleton, hloop]
  | arrive s c hstage hc => exact ⟨by simpa using h.next, h.set hc rfl⟩
  | data s c hc hread => exact ⟨by simpa using h.next, h.set hc rfl⟩
  | fail s c hc hread => exact ⟨by simpa using h.next, h.set hc rfl⟩
  | connect s c hstage hc => exact ⟨by simpa using h.next, h.set hc rfl⟩
  | startRead s c hstage hc => exact ⟨by simpa using h.next, h.set hc rfl⟩
  | message s c hc hread => exact ⟨by simpa using h.next, h.set hc rfl⟩
  | lost s c server hc hread hserver => exact ⟨by simpa using h.next, h.set hc rfl⟩
  | post j s c hj hc => exact ⟨by simpa using h.next, h.set hc rfl⟩
  | closeSocket s c hc hposted => exact ⟨by simpa using h.next, h.set hc rfl⟩
  | _ => exact ⟨h.next, h.loops⟩

theorem Step.placed (hstep : Step cfg st l st') (h : Placed st) : Placed st' := by
  obtain ⟨pending, connected, waiting, returned⟩ := h
  cases hstep with
  | accept hstage hnext =>
    cases hopen : st.isOpen <;> constructor <;> simp_all [Stage.pending, newSession]
  | checkOpen hstage =>
    cases hopen : st.isOpen <;> constructor <;> simp_all [Stage.pending]
  | _ => constructor <;> simp_all [Stage.pending]

/-- What a call of `close` does to the server. -/
theorem close_server {server server' : TcpServer.State} {s : Nat}
    (h : TcpServer.step cfg.hasCallback server (.close s) = some server') :
    s < server.ids.length ∧ server'.ids = server.ids ∧ server'.closed = server.closed ++ [s] ∧
      server'.reporting = server.reporting ++ (found cfg server s).toList ∧
      server'.reported = server.reported := by
  cases TcpServer.step_inv h with
  | found _ other id hid hother =>
    refine ⟨(List.getElem?_eq_some_iff.mp hid).1, rfl, rfl, ?_, rfl⟩
    cases hcb : cfg.hasCallback <;> simp [found, hid, hother, hcb]
  | notFound _ id hid hnone =>
    refine ⟨(List.getElem?_eq_some_iff.mp hid).1, rfl, rfl, ?_, rfl⟩
    cases hcb : cfg.hasCallback <;> simp [found, hid, hnone, hcb]

theorem report_server {server server' : TcpServer.State} {o : Nat}
    (h : TcpServer.step cfg.hasCallback server (.report (server.reporting.idxOf o)) =
      some server') :
    server'.ids = server.ids ∧ server'.closed = server.closed ∧
      server.reporting.Perm (o :: server'.reporting) ∧
      server'.reported = server.reported ++ [o] := by
  cases TcpServer.step_inv h with
  | report _ other hj =>
    obtain ⟨hlt, rfl⟩ := List.getElem?_eq_some_iff.mp hj
    rw [List.getElem_idxOf]
    exact ⟨rfl, rfl, (List.getElem_idxOf hlt ▸ List.getElem_cons_eraseIdx_perm hlt).symm, rfl⟩

namespace Closes

/-- `close` is called. -/
theorem close (h : Closes st) {s : Nat} {server : TcpServer.State}
    (hserver : TcpServer.step cfg.hasCallback st.server (.close s) = some server)
    (hsame : st'.sessions.length = st.sessions.length) (hs : st'.server = server)
    (hclosing : st'.closing = st.closing ++ [(s, found cfg st.server s)]) : Closes st' := by
  obtain ⟨hlt, hids, hclosed, hreporting, -⟩ := close_server hserver
  subst hs
  refine ⟨(TcpServer.step_inv hserver).inv h.server (fun hl => by cases hl), ?_, ?_, ?_⟩
  · rw [hsame, h.length, hids]
  · rw [hclosing, hclosed]
    intro p hp
    rcases List.mem_append.mp hp with hp | hp
    · exact List.mem_append_left _ (h.closing p hp)
    · rw [List.mem_singleton.mp hp]
      simp
  · rw [hclosing, hreporting, List.filterMap_append]
    refine h.reporting.append (List.Perm.of_eq ?_)
    cases found cfg st.server s <;> rfl

/-- A step that has nothing to do with the table. -/
theorem of_same (h : Closes st) (hserver : st'.server = st.server)
    (hsame : st'.sessions.length = st.sessions.length) (hclosing : st'.closing = st.closing) :
    Closes st' := by
  refine ⟨hserver ▸ h.server, ?_, ?_, ?_⟩
  · rw [hsame, hserver, h.length]
  · rw [hclosing, hserver]
    exact h.closing
  · rw [hclosing, hserver]
    exact h.reporting

end Closes

theorem Step.closes (hstep : Step cfg st l st') (h : Closes st)
    (hfew : st'.server.ids.length ≤ 2 ^ 32) : Closes st' := by
  cases hstep with
  | close s c server hc hstarted hserver => exact h.close hserver rfl rfl rfl
  | failed s server hstage hserver => exact h.close hserver rfl rfl rfl
  | lost s c server hc hread hserver => exact h.close hserver (by simp) rfl rfl
  | accept hstage hnext =>
    have hlength := TcpServer.length_newSession st.server
    refine ⟨h.server.newSession ?_, ?_, h.closing, h.reporting⟩
    · simp only [newSession] at hfew
      omega
    · simp only [newSession, List.length_append, List.length_singleton, h.length, hlength]
  | report j s o server hj hserver =>
    obtain ⟨hids, hclosed, hreporting, -⟩ := report_server hserver
    obtain ⟨hlt, hget⟩ := List.getElem?_eq_some_iff.mp hj
    refine ⟨(TcpServer.step_inv hserver).inv h.server (fun hl => by cases hl), ?_, ?_, ?_⟩
    · rw [hids, h.length]
    · intro p hp
      rw [hclosed]
      rcases List.mem_or_eq_of_mem_set hp with hp | rfl
      · exact h.closing p hp
      · exact h.closing (s, some o) (List.mem_of_getElem? hj)
    · have hset := (List.set_perm_cons_eraseIdx hlt (s, none)).filterMap Prod.snd
      have hall := (List.getElem_cons_eraseIdx_perm hlt).filterMap Prod.snd
      rw [hget] at hall
      exact hset.trans ((hall.trans (h.reporting.trans hreporting)).cons_inv)
  | post j s c hj hc =>
    obtain ⟨hlt, hget⟩ := List.getElem?_eq_some_iff.mp hj
    refine ⟨h.server, by simpa using h.length, ?_, ?_⟩
    · exact fun p hp => h.closing p (List.mem_of_mem_eraseIdx hp)
    · have hall := (List.getElem_cons_eraseIdx_perm hlt).filterMap Prod.snd
      rw [hget] at hall
      exact hall.trans h.reporting
  | _ => exact h.of_same rfl (by simp) rfl

namespace Inv

/-- A session goes on by itself. -/
theorem set (h : Inv cfg st) {s : Nat} {c' : Session}
    (hfits : Fits st.stage st.server.closed st.closing s c') :
    ∀ (t : Nat) d, (st.sessions.set s c')[t]? = some d →
      Fits st.stage st.server.closed st.closing t d :=
  forall_getElem?_set hfits fun t d _ hd => h.fits t d hd

/-- The acceptor goes on with a session. -/
theorem set_stage (h : Inv cfg st) {s : Nat} {c' : Session} {stage : Stage}
    (hbefore : st.stage.session = some s) (hbehind : stage.session = some s ∨ stage.session = none)
    (hfits : Fits stage st.server.closed st.closing s c') :
    ∀ (t : Nat) d, (st.sessions.set s c')[t]? = some d →
      Fits stage st.server.closed st.closing t d := by
  refine forall_getElem?_set hfits fun t d hne hd => (h.fits t d hd).elsewhere ?_ ?_
  · simpa [hbefore] using Ne.symm hne
  · rcases hbehind with hbehind | hbehind <;> simp [hbehind, Ne.symm hne]

/-- `close` is called for a session. -/
theorem close (h : Inv cfg st) {s t : Nat} {c : Session} (hc : st.sessions[t]? = some c)
    (hstage : st.stage.pending ≠ some s) (f : Option Nat) :
    Fits st.stage (st.server.closed ++ [s]) (st.closing ++ [(s, f)]) t c := by
  have hfits := h.fits t c hc
  by_cases heq : t = s
  · subst heq
    exact hfits.close hstage f
  · exact hfits.close_other heq f

end Inv

theorem Step.fits (hstep : Step cfg st l st') (h : Inv cfg st) (t : Nat) (d : Session)
    (hd : st'.sessions[t]? = some d) :
    Fits st'.stage st'.server.closed st'.closing t d := by
  cases hstep with
  | arrive s c hstage hc =>
    have hfits := h.fits s c hc
    rw [hstage] at hfits
    exact h.set_stage (by rw [hstage]; rfl) (Or.inl rfl) hfits.arrive t d hd
  | refuse s hstage =>
    have hfits := h.fits t d hd
    by_cases heq : t = s
    · subst heq
      rw [hstage] at hfits
      exact hfits.refuse
    · exact hfits.elsewhere (by simpa [hstage, Stage.session] using Ne.symm heq)
        (by simpa [Stage.session] using Ne.symm heq)
  | abort s hstage =>
    have hfits := h.fits t d hd
    by_cases heq : t = s
    · subst heq
      rw [hstage] at hfits
      exact hfits.refuse
    · exact hfits.elsewhere (by simpa [hstage, Stage.session] using Ne.symm heq)
        (by simpa [Stage.session] using Ne.symm heq)
  | stop hstage => exact h.fits t d hd
  | data s c hc hread => exact h.set ((h.fits s c hc).data hread false) t d hd
  | fail s c hc hread => exact h.set ((h.fits s c hc).data hread true) t d hd
  | close s c server hc hstarted hserver =>
    obtain ⟨-, -, hclosed, -, -⟩ := close_server hserver
    have hpending : st.stage.pending ≠ some s := by
      intro hpending
      have := ((h.fits s c hc).pending hpending).1
      simp_all
    rw [hclosed]
    exact h.close hd hpending _
  | listen hstage =>
    exact (h.fits t d hd).elsewhere (by simp [hstage, Stage.session]) (by simp [Stage.session])
  | accept hstage hnext =>
    refine forall_getElem?_concat ?_ (fun u e hu => ?_) t d hd
    · have hs : st.sessions.length ∉ st.server.closed := fun hin => by
        have := h.server.closed _ hin
        have := h.length
        omega
      split
      · exact Fits.accept hs _ rfl (by simp)
      · exact Fits.accept hs _ rfl (by simp)
    · have hlt := (List.getElem?_eq_some_iff.mp hu).1
      refine (h.fits u e hu).elsewhere (by simp [hstage, Stage.session]) ?_
      split <;> simp only [Stage.session, ne_eq, Option.some.injEq] <;> omega
  | connect s c hstage hc =>
    have hfits := h.fits s c hc
    rw [hstage] at hfits
    exact h.set_stage (by rw [hstage]; rfl) (Or.inl rfl) hfits.connect t d hd
  | failed s server hstage hserver =>
    obtain ⟨-, -, hclosed, -, -⟩ := close_server hserver
    have hfits := h.fits t d hd
    rw [hclosed]
    by_cases heq : t = s
    · subst heq
      rw [hstage] at hfits
      exact hfits.failed _
    · exact (hfits.elsewhere (by simpa [hstage, Stage.session] using Ne.symm heq)
        (by simp [Stage.session])).close_other heq _
  | startRead s c hstage hc =>
    have hfits := h.fits s c hc
    rw [hstage] at hfits
    exact h.set_stage (by rw [hstage]; rfl) (Or.inr rfl) hfits.startRead t d hd
  | checkOpen hstage =>
    refine (h.fits t d hd).elsewhere (by simp [hstage, Stage.session]) ?_
    split <;> simp [Stage.session]
  | message s c hc hread => exact h.set ((h.fits s c hc).message hread) t d hd
  | lost s c server hc hread hserver =>
    obtain ⟨-, -, hclosed, -, -⟩ := close_server hserver
    rw [hclosed]
    exact forall_getElem?_set ((h.fits s c hc).lost hread _)
      (fun u e hne hu => (h.fits u e hu).close_other hne _) t d hd
  | report j s o server hj hserver =>
    obtain ⟨-, hclosed, -, -⟩ := report_server hserver
    rw [hclosed]
    refine (h.fits t d hd).of_closing ?_
    rintro ⟨p, hp, rfl⟩
    have hset := List.set_perm_cons_eraseIdx (List.getElem?_eq_some_iff.mp hj).1 (s, none)
    rcases mem_eraseIdx_or_eq hj hp with hp | rfl
    · exact ⟨p, hset.mem_iff.mpr (List.mem_cons_of_mem _ hp), rfl⟩
    · exact ⟨(s, none), hset.mem_iff.mpr List.mem_cons_self, rfl⟩
  | post j s c hj hc =>
    have hs := h.closing _ (List.mem_of_getElem? hj)
    refine forall_getElem?_set ((h.fits s c hc).post hs _) (fun u e hne hu => ?_) t d hd
    refine (h.fits u e hu).of_closing ?_
    rintro ⟨p, hp, rfl⟩
    rcases mem_eraseIdx_or_eq hj hp with hp | rfl
    · exact ⟨p, hp, rfl⟩
    · exact absurd rfl hne
  | closeSocket s c hc hposted => exact h.set ((h.fits s c hc).closeSocket hposted) t d hd

theorem inv_start (hpos : 0 < cfg.thrnum) : Inv cfg (start cfg) where
  next := by
    have hnext := findNextLoop_mod hpos 0
    rw [Nat.zero_mod] at hnext
    exact hnext
  loops := by simp [start]
  pending := by simp [start, Stage.pending]
  connected := by simp [start]
  waiting := by simp [start]
  returned := by simp [start]
  server := TcpServer.inv_initial
  length := rfl
  closing := by simp [start]
  reporting := List.Perm.refl _
  fits := by simp [start]

/-- No session is forgotten. -/
theorem Step.sessions_le (hstep : Step cfg st l st') :
    st.server.ids.length ≤ st'.server.ids.length := by
  cases hstep with
  | close s c server hc hstarted hserver => rw [(close_server hserver).2.1]
  | failed s server hstage hserver => rw [(close_server hserver).2.1]
  | lost s c server hc hread hserver => rw [(close_server hserver).2.1]
  | report j s o server hj hserver => rw [(report_server hserver).1]
  | accept hstage hnext =>
    have hlength := TcpServer.length_newSession st.server
    simp only [newSession]
    omega
  | _ => exact Nat.le_refl _

theorem Step.inv (hstep : Step cfg st l st') (hpos : 0 < cfg.thrnum) (h : Inv cfg st)
    (hfew : st'.server.ids.length ≤ 2 ^ 32) : Inv cfg st' where
  toTurns := hstep.turns hpos h.toTurns
  toPlaced := hstep.placed h.toPlaced
  toCloses := hstep.closes h.toCloses hfew
  fits := hstep.fits h

end Cppim.Net.Acceptor
