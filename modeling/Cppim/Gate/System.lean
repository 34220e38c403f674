import Cppim.Gate.Server
import Cppim.Lib.Index
import Cppim.Lib.Transition
import Cppim.Net.TcpServer

/-! The gate with its clients and the replies of the logic server.

A run interleaves the sessions that `TcpServer` makes and closes, the messages of the
clients, the replies to `Connect` and the pushes. A reply is sent by the logic server in
one step and handled by `HandleConnect` in a later one. -/

namespace Cppim.Gate.System

open Cppim.Common Cppim.Protocol Cppim.Lib.Index Cppim.Lib.Transition Cppim.Net

structure State where
  gate : GateServer
  /-- the number of sessions made so far -/
  opened : Nat := 0
  connections_ : SessionSet := ∅

inductive Label where
  | newSession (mid : BitVec 32)
  | message (session : Nat) (m : ClientCodec.Message)
  | reply (id : Nat) (response : ConnectReply)
  | handle (id : Nat)
  | close (session : Nat)
  | serve (orders : Orders) (request : Request)

/-- The memory of a new session holds some `mid_`. -/
def newSession (st : State) (mid : BitVec 32) : State where
  gate := { st.gate with users := Function.update st.gate.users st.opened { mid_ := mid } }
  opened := st.opened + 1
  connections_ := st.connections_.insert st.opened

/-- Every `close` of a session calls it; only the first finds the session. -/
def defaultDisconnectCallback (st : State) (session : Nat) : State :=
  if session ∈ st.connections_ then
    { st with
      gate := st.gate.handleDisconnect session
      connections_ := st.connections_.erase session }
  else st

def advance (g : GateServer) (id : Nat) (call : Call) (progress : Progress) : GateServer :=
  { g with calls := g.calls.set id { call with progress := progress } }

/-- A session may still deliver a message while it is being closed. -/
def step (st : State) : Label → Option State
  | .newSession mid => some (newSession st mid)
  | .message session m =>
    if session < st.opened then
      some { st with gate := st.gate.onClientMessageCallback session m }
    else none
  | .reply id response =>
    match st.gate.calls[id]? with
    | some call =>
      match call.progress with
      | .called => some { st with gate := advance st.gate id call (.replied response) }
      | _ => none
    | none => none
  | .handle id =>
    match st.gate.calls[id]? with
    | some call =>
      match call.progress with
      | .replied response =>
        some { st with
          gate := (advance st.gate id call (.handled response)).handleConnect response
            call.session }
      | _ => none
    | none => none
  | .close session =>
    if session < st.opened then some (defaultDisconnectCallback st session) else none
  | .serve orders request => some { st with gate := st.gate.serve orders request }

def init (serverid : Bytes) : State := { gate := { serverid_ := serverid } }

/-! ## What a step can do -/

/-- The steps, one constructor for each way in which a step is taken. -/
inductive Step (st : State) : Label → State → Prop
  | newSession (mid : BitVec 32) : Step st (.newSession mid) (newSession st mid)
  | message (session : Nat) (m : ClientCodec.Message) (hs : session < st.opened) :
    Step st (.message session m)
      { st with gate := st.gate.onClientMessageCallback session m }
  | reply (id : Nat) (call : Call) (response : ConnectReply)
      (hcall : st.gate.calls[id]? = some call) (hp : call.progress = .called) :
    Step st (.reply id response) { st with gate := advance st.gate id call (.replied response) }
  | handle (id : Nat) (call : Call) (response : ConnectReply)
      (hcall : st.gate.calls[id]? = some call) (hp : call.progress = .replied response) :
    Step st (.handle id) { st with
      gate := (advance st.gate id call (.handled response)).handleConnect response call.session }
  | close (session : Nat) (hs : session ∈ st.connections_) :
    Step st (.close session) { st with
      gate := st.gate.handleDisconnect session
      connections_ := st.connections_.erase session }
  | closeAgain (session : Nat) (hs : session ∉ st.connections_) : Step st (.close session) st
  | serve (orders : Orders) (request : Request) :
    Step st (.serve orders request) { st with gate := st.gate.serve orders request }

/-- The logic server has answered. -/
abbrev replied (st : State) (id : Nat) (call : Call) (response : ConnectReply) : State :=
  { st with gate := advance st.gate id call (.replied response) }

/-- The closure of the call has run. -/
abbrev handled (st : State) (id : Nat) (call : Call) (response : ConnectReply) : State :=
  { st with
    gate := (advance st.gate id call (.handled response)).handleConnect response call.session }

/-- The session is found in `connections_`. -/
abbrev closed (st : State) (session : Nat) : State :=
  { st with
    gate := st.gate.handleDisconnect session
    connections_ := st.connections_.erase session }

theorem step_inv {st st' : State} {l : Label} (h : step st l = some st') : Step st l st' := by
  cases l with
  | newSession mid =>
    cases h
    exact .newSession mid
  | message session m =>
    simp only [step] at h
    split at h
    · cases h
      exact .message session m ‹_›
    · cases h
  | reply id response =>
    simp only [step] at h
    split at h
    · split at h
      · cases h
        exact .reply id _ response ‹_› ‹_›
      · cases h
    · cases h
  | handle id =>
    simp only [step] at h
    split at h
    · split at h
      · cases h
        exact .handle id _ _ ‹_› ‹_›
      · cases h
    · cases h
  | close session =>
    simp only [step, defaultDisconnectCallback] at h
    split at h
    · split at h <;> cases h
      · exact .close session ‹_›
      · exact .closeAgain session ‹_›
    · cases h
  | serve orders request =>
    cases h
    exact .serve orders request

/-! ## The sessions of the server -/

/-- What a label does to the sessions of `TcpServer`. -/
def event : Label → Option TcpServer.Event
  | .newSession _ => some .opens
  | .close session => some (.closes session)
  | _ => none

/-- `connections_` holds the live sessions. -/
structure Represents (st : State) (a : TcpServer.Live) : Prop where
  opened : a.opened = st.opened
  live : ∀ session, session ∈ a.live ↔ session ∈ st.connections_

theorem Step.represents {st st' : State} {l : Label} {a : TcpServer.Live} (h : Step st l st')
    (hr : Represents st a) : Represents st' ((event l).elim a a.after) := by
  cases h with
  | newSession mid =>
    refine ⟨congrArg (· + 1) hr.opened, fun session => ?_⟩
    show session ∈ insert a.opened a.live ↔ session ∈ st.connections_.insert st.opened
    rw [Set.mem_insert_iff, hr.live, hr.opened, Std.ExtTreeSet.mem_insert,
      Std.LawfulEqCmp.compare_eq_iff_eq, eq_comm]
  | close session hs =>
    refine ⟨hr.opened, fun s => ?_⟩
    show s ∈ a.live \ {session} ↔ s ∈ st.connections_.erase session
    rw [Set.mem_sdiff, Set.mem_singleton_iff, hr.live, Std.ExtTreeSet.mem_erase, ne_eq,
      Std.LawfulEqCmp.compare_eq_iff_eq, eq_comm, and_comm]
  | closeAgain session hs =>
    refine ⟨hr.opened, fun s => ?_⟩
    show s ∈ a.live \ {session} ↔ s ∈ st.connections_
    rw [Set.mem_sdiff, Set.mem_singleton_iff, hr.live]
    constructor
    · exact And.left
    · rintro hin
      refine ⟨hin, ?_⟩
      rintro rfl
      exact hs hin
  | _ => exact ⟨hr.opened, hr.live⟩

/-- **The table of `TcpServer` is this set**, as long as there are keys for all sessions:
two runs in which the same sessions begin and end agree on who is connected. -/
theorem connections_agree {hasCallback : Bool} {serverid : Bytes} {ls : List Label} {st : State}
    {ls' : List TcpServer.Label} {server : TcpServer.State}
    (hrun : run step (init serverid) ls = some st)
    (hrun' : run (TcpServer.step hasCallback) {} ls' = some server)
    (hsame : ls.filterMap event = ls'.filterMap TcpServer.view)
    (hfew : server.ids.length ≤ 2 ^ 32) (session : Nat) :
    session ∈ st.connections_ ↔ server.Holds session := by
  have hst : Represents st ((ls.filterMap event).foldl TcpServer.Live.after {}) := by
    apply run_simulates (R := Represents) (G := fun _ _ => True) _ ls _ st {} _ _ hrun
    · intro u l u' a hu _ hl
      exact (step_inv hl).represents hu
    · refine ⟨rfl, fun session => ?_⟩
      simp [init]
    · exact guarded_of_forall ls _ fun _ _ _ => trivial
  rw [← hst.live, hsame]
  exact (TcpServer.run_represents ls' server hrun' hfew).live session

/-! ## The calls -/

theorem getElem?_advance {g : GateServer} {id : Nat} {call : Call} (progress : Progress)
    (hcall : g.calls[id]? = some call) (i : Nat) :
    (advance g id call progress).calls[i]? =
      if i = id then some { call with progress := progress } else g.calls[i]? := by
  obtain ⟨hlt, -⟩ := List.getElem?_eq_some_iff.mp hcall
  rw [advance, List.getElem?_set]
  by_cases hi : i = id
  · simp [hi, hlt]
  · simp [hi, Ne.symm hi]

/-! ## The registry -/

/-- The session is a value in `channels_` or in a set of `rooms_`. -/
def Registered (g : GateServer) (session : Nat) : Prop :=
  (∃ key, g.Under key session) ∨ ∃ room, g.InRoom room session

theorem registered_handleConnect {g : GateServer} {response : ConnectReply} {session s : Nat}
    (h : Registered (g.handleConnect response session) s) : Registered g s ∨ s = session := by
  rcases h with ⟨key, hk⟩ | ⟨room, hr⟩
  · rcases GateServer.under_handleConnect.mp hk with hk | ⟨-, rfl, -⟩
    · exact Or.inl (Or.inl ⟨key, hk⟩)
    · exact Or.inr rfl
  · rcases GateServer.inRoom_handleConnect.mp hr with hr | ⟨-, rfl⟩
    · exact Or.inl (Or.inr ⟨room, hr⟩)
    · exact Or.inr rfl

theorem registered_handleDisconnect {g : GateServer} {session s : Nat}
    (h : Registered (g.handleDisconnect session) s) : Registered g s := by
  rcases h with ⟨key, hk⟩ | ⟨room, hr⟩
  · exact Or.inl ⟨key, (GateServer.under_handleDisconnect.mp hk).1⟩
  · exact Or.inr ⟨room, (GateServer.inRoom_handleDisconnect.mp hr).1⟩

/-- The registry and the fields of the sessions are as they were. -/
structure SameRegistry (g g' : GateServer) : Prop where
  channels : g'.channels_ = g.channels_
  rooms : g'.rooms_ = g.rooms_
  users : g'.users = g.users

namespace SameRegistry

variable {g g' : GateServer}

theorem under (h : SameRegistry g g') : g'.Under = g.Under := by
  funext key s
  simp only [GateServer.Under, h.channels]

theorem inRoom (h : SameRegistry g g') : g'.InRoom = g.InRoom := by
  funext room s
  simp only [GateServer.InRoom, h.rooms]

theorem getKey (h : SameRegistry g g') : g'.getKey = g.getKey := by
  funext s
  simp only [GateServer.getKey, h.users]

theorem getRoom (h : SameRegistry g g') : g'.getRoom = g.getRoom := by
  funext s
  simp only [GateServer.getRoom, h.users]

theorem registered (h : SameRegistry g g') : Registered g' = Registered g := by
  funext s
  simp only [Registered, h.under, h.inRoom]

end SameRegistry

theorem sameRegistry_message (g : GateServer) (session : Nat) (m : ClientCodec.Message) :
    SameRegistry g (g.onClientMessageCallback session m) := by
  unfold GateServer.onClientMessageCallback
  split
  · exact ⟨rfl, rfl, rfl⟩
  · split
    · exact ⟨rfl, rfl, rfl⟩
    · exact ⟨rfl, rfl, rfl⟩

theorem sameRegistry_advance (g : GateServer) (id : Nat) (call : Call) (progress : Progress) :
    SameRegistry g (advance g id call progress) := ⟨rfl, rfl, rfl⟩

theorem serve_eq (orders : Orders) (g : GateServer) (request : Request) :
    ∃ out, g.Sends (g.serve orders request) out := by
  cases request with
  | pushMsg request => exact ⟨_, g.sends_pushMsg request⟩
  | broadcast request => exact ⟨_, GateServer.sends_broadCast orders.channels g request.proto⟩
  | broadcastRoom request =>
    exact ⟨_, GateServer.sends_sendToRoom orders.rooms g request.roomID request.proto⟩

/-- A push changes what was sent and nothing else. -/
theorem serve_same (orders : Orders) (g : GateServer) (request : Request) :
    SameRegistry g (g.serve orders request) ∧ (g.serve orders request).calls = g.calls := by
  obtain ⟨out, h⟩ := serve_eq orders g request
  rw [h]
  exact ⟨⟨rfl, rfl, rfl⟩, rfl⟩

/-- A message of a client is a new call, or leaves the calls as they are. -/
theorem calls_message (g : GateServer) (session : Nat) (m : ClientCodec.Message) :
    (m.op = 7 ∧ (g.onClientMessageCallback session m).calls = g.calls ++
      [{ session := session, request := { server := g.serverid_, token := m.body } }]) ∨
    (m.op ≠ 7 ∧ (g.onClientMessageCallback session m).calls = g.calls) := by
  unfold GateServer.onClientMessageCallback
  split
  · exact Or.inl ⟨‹_›, rfl⟩
  · refine Or.inr ⟨‹_›, ?_⟩
    split <;> rfl

/-- A call of an existing session is added. -/
theorem callers_message {g : GateServer} {opened session : Nat} (m : ClientCodec.Message)
    (h : ∀ call ∈ g.calls, call.session < opened) (hs : session < opened) :
    ∀ call ∈ (g.onClientMessageCallback session m).calls, call.session < opened := by
  rcases calls_message g session m with ⟨-, hcalls⟩ | ⟨-, hcalls⟩
  · rw [hcalls]
    simpa [or_imp, forall_and, hs] using h
  · rw [hcalls]
    exact h

theorem callers_advance {g : GateServer} {opened id : Nat} {call : Call}
    (h : ∀ call ∈ g.calls, call.session < opened) (hcall : g.calls[id]? = some call)
    (progress : Progress) :
    ∀ c ∈ (advance g id call progress).calls, c.session < opened := by
  intro c hc
  rcases List.mem_or_eq_of_mem_set hc with hc | rfl
  · exact h c hc
  · exact h call (List.mem_of_getElem? hcall)

/-! ## A registry that agrees with the sessions -/

/-- What stands in the registry belongs to connected sessions, under the names that
these hold. -/
structure Tidy (st : State) : Prop where
  known : ∀ s ∈ st.connections_, s < st.opened
  callers : ∀ call ∈ st.gate.calls, call.session < st.opened
  keys : Agrees st.gate.Under st.gate.getKey
  rooms : Agrees st.gate.InRoom st.gate.getRoom
  live : ∀ s, Registered st.gate s → s ∈ st.connections_

theorem tidy_init (serverid : Bytes) : Tidy (init serverid) := by
  refine ⟨?_, ?_, ?_, ?_, ?_⟩
  · simp [init]
  · simp [init]
  · intro key s h
    simp [init, GateServer.Under] at h
  · rintro room s ⟨members, h, -⟩
    simp [init] at h
  · rintro s (⟨key, h⟩ | ⟨room, members, h, -⟩)
    · simp [init, GateServer.Under] at h
    · simp [init] at h

namespace Tidy

variable {st : State}

theorem of_same (h : Tidy st) {gate : GateServer} (hsame : SameRegistry st.gate gate)
    (hcallers : ∀ call ∈ gate.calls, call.session < st.opened) :
    Tidy { st with gate := gate } where
  known := h.known
  callers := hcallers
  keys := by
    rw [hsame.under, hsame.getKey]
    exact h.keys
  rooms := by
    rw [hsame.inRoom, hsame.getRoom]
    exact h.rooms
  live := by
    rw [hsame.registered]
    exact h.live

theorem newSession (h : Tidy st) (mid : BitVec 32) : Tidy (newSession st mid) where
  known := by
    intro s hs
    simp only [System.newSession, Std.ExtTreeSet.mem_insert,
      Std.LawfulEqCmp.compare_eq_iff_eq] at hs ⊢
    rcases hs with rfl | hs
    · omega
    · have := h.known s hs
      omega
  callers := fun c hc => Nat.lt_succ_of_lt (h.callers c hc)
  keys := by
    intro key s hs
    have hlt := h.known s (h.live s (Or.inl ⟨key, hs⟩))
    have hkey := h.keys key s hs
    simp only [GateServer.getKey, System.newSession] at hkey ⊢
    rw [Function.update_of_ne (Nat.ne_of_lt hlt)]
    exact hkey
  rooms := by
    intro room s hs
    have hlt := h.known s (h.live s (Or.inr ⟨room, hs⟩))
    have hroom := h.rooms room s hs
    simp only [GateServer.getRoom, System.newSession] at hroom ⊢
    rw [Function.update_of_ne (Nat.ne_of_lt hlt)]
    exact hroom
  live := by
    intro s hs
    simp only [System.newSession, Std.ExtTreeSet.mem_insert]
    exact Or.inr (h.live s hs)

/-- A session that is connected and stands nowhere is registered. -/
theorem handle (h : Tidy st) {id : Nat} {call : Call} (response : ConnectReply)
    (hcall : st.gate.calls[id]? = some call) (hlive : call.session ∈ st.connections_)
    (hfree : ¬ Registered st.gate call.session) : Tidy (handled st id call response) where
  known := h.known
  callers := callers_advance h.callers hcall _
  keys := by
    rw [GateServer.getKey_handleConnect]
    refine Agrees.enter (R := st.gate.Under) h.keys (fun key hk => hfree (Or.inl ⟨key, hk⟩)) ?_
    intro key s hs
    rcases GateServer.under_handleConnect.mp hs with hs | ⟨rfl, rfl, -⟩
    · exact Or.inl hs
    · exact Or.inr ⟨rfl, rfl⟩
  rooms := by
    rw [GateServer.getRoom_handleConnect]
    refine Agrees.enter (R := st.gate.InRoom) h.rooms (fun room hr => hfree (Or.inr ⟨room, hr⟩)) ?_
    intro room s hs
    exact GateServer.inRoom_handleConnect.mp hs
  live := by
    intro s hs
    rcases registered_handleConnect hs with hs | rfl
    · exact h.live s hs
    · exact hlive

/-- A disconnected session stands nowhere. -/
theorem unregistered (h : Tidy st) (session : Nat) :
    ¬ Registered (st.gate.handleDisconnect session) session := by
  have hkeys : Agrees (st.gate.handleDisconnect session).Under st.gate.getKey :=
    h.keys.mono fun key s hs => (GateServer.under_handleDisconnect.mp hs).1
  have hrooms : Agrees (st.gate.handleDisconnect session).InRoom st.gate.getRoom :=
    h.rooms.mono fun room s hs => (GateServer.inRoom_handleDisconnect.mp hs).1
  rintro (⟨key, hk⟩ | ⟨room, hr⟩)
  · exact hkeys.gone (fun hs => (GateServer.under_handleDisconnect.mp hs).2 rfl) key hk
  · exact hrooms.gone (fun hs => (GateServer.inRoom_handleDisconnect.mp hs).2 ⟨rfl, rfl⟩) room hr

theorem close (h : Tidy st) (session : Nat) : Tidy (closed st session) where
  known := fun s hs => h.known s (Std.ExtTreeSet.mem_of_mem_erase hs)
  callers := h.callers
  keys := h.keys.mono fun key s hs => (GateServer.under_handleDisconnect.mp hs).1
  rooms := h.rooms.mono fun room s hs => (GateServer.inRoom_handleDisconnect.mp hs).1
  live := by
    intro s hs
    have hne : session ≠ s := by
      rintro rfl
      exact h.unregistered session hs
    simp only [Std.ExtTreeSet.mem_erase, ne_eq, Std.LawfulEqCmp.compare_eq_iff_eq]
    exact ⟨hne, h.live s (registered_handleDisconnect hs)⟩

end Tidy

end Cppim.Gate.System
