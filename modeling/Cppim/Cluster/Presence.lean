import Cppim.Gate.Hall
import Cppim.Logic.Heartbeat

/-! Whether Redis and the gate agree on who is there.

The gate tells the logic server of tokens, heartbeats and disconnects over one connection.
The logic server takes these requests in their order, at times of its own, and writes what
it learns to Redis, where it lasts for half an hour; the reply to a token comes back to the
gate later still. -/

namespace Cppim.Cluster.Presence

open Cppim.Common Cppim.Protocol Cppim.Redis Cppim.Lib.Transition Cppim.Logic
open Cppim.Logic.Heartbeat (Act Kind)
open Cppim.Gate (GateServer Call Notice Orders)
open Cppim.Gate.System (advance getElem?_advance RepliedKey HandledKey Keyed FreshReply)

/-! ## The system -/

/-- A request on its way from the gate to the logic server. -/
inductive Ask where
  | connect (id : Nat)
  | notice (n : Notice)
  deriving Repr, DecidableEq

structure State (R : Service) where
  net : Gate.System.State
  logic : Heartbeat.State R
  /-- the requests that the logic server has not taken yet, the oldest first -/
  wire : List Ask := []

inductive Label where
  | newSession (mid : BitVec 32)
  | message (session : Nat) (m : Gate.ClientCodec.Message)
  | handle (id : Nat)
  | close (session : Nat)
  | serve (orders : Orders) (request : Gate.Request)
  /-- the logic server takes the oldest request; Redis executes its commands at these times -/
  | take (times : List Nat) (clock : List (BitVec 64))

/-- What the gate has sent between two of its states. -/
def asks (g g' : GateServer) : List Ask :=
  (List.range' g.calls.length (g'.calls.length - g.calls.length)).map .connect ++
    (g'.notices.drop g.notices.length).map .notice

variable {R : Service}

/-- The gate has taken a step, and what it sends is on its way. -/
abbrev moved (st : State R) (net : Gate.System.State) : State R :=
  { st with net := net, wire := st.wire ++ asks st.net.gate net.gate }

/-- A step of the gate. -/
def move (st : State R) (l : Gate.System.Label) : Option (State R) :=
  (Gate.System.step st.net l).map (moved st)

def noticeKey : Notice → Bytes
  | .heartbeat request => request.key
  | .disconnect request => request.key

def noticeKind : Notice → Kind
  | .heartbeat _ => .heartbeat
  | .disconnect _ => .disconnect

/-- `LogicServiceImpl::Heartbeat` and `Disconnect` -/
def noticeRequest : Notice → Heartbeat.Request
  | .heartbeat request => .heartbeat request
  | .disconnect request => .disconnect request

/-- The logic server serves a request, and answers a call of `Connect`. -/
def take (cfg : Config) (st : State R) (times : List Nat) (clock : List (BitVec 64)) :
    Ask → Option (State R)
  | .connect id => do
    let call ← st.net.gate.calls[id]?
    let o ← Logic.connect cfg st.logic.statics clock call.request
    let logic ← Heartbeat.step cfg st.logic (times, .connect clock call.request)
    let net ← Gate.System.step st.net (.reply id o.response)
    return { st with net := net, logic := logic }
  | .notice n => do
    let logic ← Heartbeat.step cfg st.logic (times, noticeRequest n)
    return { st with logic := logic }

def step (cfg : Config) (st : State R) : Label → Option (State R)
  | .newSession mid => move st (.newSession mid)
  | .message session m => move st (.message session m)
  | .handle id => move st (.handle id)
  | .close session => move st (.close session)
  | .serve orders request => move st (.serve orders request)
  | .take times clock =>
    match st.wire with
    | [] => none
    | ask :: rest => take cfg { st with wire := rest } times clock ask

def init (R : Service) (serverid : Bytes) : State R where
  net := Gate.System.init serverid
  logic := Heartbeat.init R

/-- Nothing is on its way between the servers. -/
def Settled (st : State R) : Prop := st.wire = [] ∧ ∀ call ∈ st.net.gate.calls, call.Handled

/-- The steps that the gate takes. -/
inductive Plain : Label → Gate.System.Label → Prop
  | newSession (mid : BitVec 32) : Plain (.newSession mid) (.newSession mid)
  | message (session : Nat) (m : Gate.ClientCodec.Message) :
    Plain (.message session m) (.message session m)
  | handle (id : Nat) : Plain (.handle id) (.handle id)
  | close (session : Nat) : Plain (.close session) (.close session)
  | serve (orders : Orders) (request : Gate.Request) :
    Plain (.serve orders request) (.serve orders request)

inductive Step (cfg : Config) (st : State R) : Label → State R → Prop
  | move (l : Label) (gl : Gate.System.Label) (net : Gate.System.State) (hl : Plain l gl)
      (hstep : Gate.System.Step st.net gl net) :
    Step cfg st l (moved st net)
  | connect (times : List Nat) (clock : List (BitVec 64)) (id : Nat) (rest : List Ask) (call : Call)
      (o : Outcome) (logic : Heartbeat.State R) (hwire : st.wire = .connect id :: rest)
      (hcall : st.net.gate.calls[id]? = some call) (hp : call.progress = .called)
      (hconnect : Logic.connect cfg st.logic.statics clock call.request = some o)
      (hlogic : Heartbeat.Step cfg st.logic (times, .connect clock call.request) logic) :
    Step cfg st (.take times clock)
      { net := { st.net with gate := advance st.net.gate id call (.replied o.response) }
        logic := logic
        wire := rest }
  | notice (times : List Nat) (clock : List (BitVec 64)) (n : Notice) (rest : List Ask)
      (logic : Heartbeat.State R) (hwire : st.wire = .notice n :: rest)
      (hlogic : Heartbeat.Step cfg st.logic (times, noticeRequest n) logic) :
    Step cfg st (.take times clock) { st with logic := logic, wire := rest }

theorem step_of_move {cfg : Config} {st st' : State R} {l : Label} {gl : Gate.System.Label}
    (hl : Plain l gl) (h : move st gl = some st') : Step cfg st l st' := by
  obtain ⟨net, hnet, rfl⟩ := Option.map_eq_some_iff.mp h
  exact .move l gl net hl (Gate.System.step_inv hnet)

theorem step_inv {cfg : Config} {st st' : State R} {l : Label} (h : step cfg st l = some st') :
    Step cfg st l st' := by
  cases l with
  | newSession mid => exact step_of_move (.newSession mid) h
  | message session m => exact step_of_move (.message session m) h
  | handle id => exact step_of_move (.handle id) h
  | close session => exact step_of_move (.close session) h
  | serve orders request => exact step_of_move (.serve orders request) h
  | take times clock =>
    simp only [step] at h
    split at h
    · cases h
    · rename_i ask rest hwire
      cases ask with
      | connect id =>
        simp only [take, Option.bind_eq_bind, Option.bind_eq_some_iff] at h
        obtain ⟨call, hcall, o, ho, logic, hlogic, net, hnet, heq⟩ := h
        cases heq
        cases Gate.System.step_inv hnet with
        | reply id call' response hcall' hp =>
          rw [hcall] at hcall'
          cases hcall'
          exact .connect times clock id rest call o logic hwire hcall hp ho
            (Heartbeat.step_inv hlogic)
      | notice n =>
        simp only [take, Option.bind_eq_bind, Option.bind_eq_some_iff] at h
        obtain ⟨logic, hlogic, heq⟩ := h
        cases heq
        exact .notice times clock n rest logic hwire (Heartbeat.step_inv hlogic)

/-! ## What the gate asks for -/

/-- A token that was accepted is registered under its key. -/
theorem registered_of_accepted {cfg : Config} {st st' : Heartbeat.State R} {times : List Nat}
    {clock : List (BitVec 64)} {request : ConnectReq} {o : Outcome}
    (hconnect : Logic.connect cfg st.statics clock request = some o)
    (hstep : Heartbeat.Step cfg st (times, .connect clock request) st')
    (haccepted : o.accepted = true) :
    IsWord o.response.key ∧ ∃ a : Act, st'.log = st.log ++ [a] ∧ a.kind = .connect ∧
      a.key = o.response.key ∧ a.server = request.server := by
  cases hstep with
  | refused _ _ o' ho he =>
    rw [hconnect] at ho
    cases ho
    have hends := ends_of_connect hconnect
    cases hends with
    | accepted j room gen key accepts mid hparse hroom hkey haccepts hmid =>
      rw [Registration.entry_of_accepted rfl hparse hmid] at he
      cases he
    | _ => simp at haccepted
  | registered t₁ t₂ t₃ t₄ _ _ o' e ho he hkey hword hserver =>
    rw [hconnect] at ho
    cases ho
    exact ⟨hkey ▸ hword, _, rfl, rfl, hkey.symm, hserver⟩

/-- Every call of the gate names it, and so does what is registered; Redis holds what the
logic server has written. -/
structure Kept (serverid : Bytes) (st : State R) : Prop where
  server : st.net.gate.serverid_ = serverid
  calls : ∀ call ∈ st.net.gate.calls, call.request.server = serverid
  servers : ∀ a ∈ st.logic.log, a.kind = .connect → a.server = serverid
  logic : Heartbeat.Inv st.logic

namespace Kept

variable {serverid : Bytes} {st : State R}

/-- A heartbeat or a disconnect. -/
theorem notice (hR : R.Lawful) (h : Kept serverid st) {cfg : Config} {times : List Nat}
    {n : Notice} {logic : Heartbeat.State R}
    (hlogic : Heartbeat.Step cfg st.logic (times, noticeRequest n) logic)
    (hplain : Registration.Plain (noticeKey n)) (rest : List Ask) :
    Kept serverid { st with logic := logic, wire := rest } where
  server := h.server
  calls := h.calls
  servers := by
    cases n with
    | heartbeat request =>
      cases hlogic
      exact List.forall_mem_append.mpr ⟨h.servers, by simp⟩
    | disconnect request =>
      cases hlogic
      exact List.forall_mem_append.mpr ⟨h.servers, by simp⟩
  logic := by
    refine hlogic.inv hR ?_ h.logic
    cases n <;> exact hplain

/-- Calls that move on keep their requests. -/
theorem calls_advance (h : Kept serverid st) {id : Nat} {call : Call}
    (hcall : st.net.gate.calls[id]? = some call) (progress : Gate.Progress) :
    ∀ c ∈ (advance st.net.gate id call progress).calls, c.request.server = serverid := by
  intro c hc
  rcases List.mem_or_eq_of_mem_set hc with hc | rfl
  · exact h.calls c hc
  · exact h.calls call (List.mem_of_getElem? hcall)

/-- A token that is accepted. -/
theorem accepted (hR : R.Lawful) (h : Kept serverid st) (hserverid : IsWord serverid)
    {cfg : Config} {times : List Nat} {clock : List (BitVec 64)} {id : Nat} {call : Call}
    {logic : Heartbeat.State R} (hcall : st.net.gate.calls[id]? = some call)
    (hlogic : Heartbeat.Step cfg st.logic (times, .connect clock call.request) logic)
    (response : ConnectReply) (rest : List Ask) :
    Kept serverid
      { net := { st.net with gate := advance st.net.gate id call (.replied response) }
        logic := logic
        wire := rest } where
  server := h.server
  calls := h.calls_advance hcall _
  servers := by
    have hserver := h.calls call (List.mem_of_getElem? hcall)
    cases hlogic with
    | refused => exact h.servers
    | registered t₁ t₂ t₃ t₄ _ _ o e ho he hkey hword hown =>
      exact List.forall_mem_append.mpr ⟨h.servers, by simp [hown, hserver]⟩
  logic := by
    refine hlogic.inv hR ?_ h.logic
    show IsWord call.request.server
    rw [h.calls call (List.mem_of_getElem? hcall)]
    exact hserverid

/-- A step of the gate. -/
theorem move (h : Kept serverid st) {l : Gate.System.Label} {net : Gate.System.State}
    (hstep : Gate.System.Step st.net l net) :
    Kept serverid (moved st net) := by
  have hgate : net.gate.serverid_ = st.net.gate.serverid_ ∧
      ∀ call ∈ net.gate.calls, call.request.server = serverid := by
    cases hstep with
    | newSession mid => exact ⟨rfl, h.calls⟩
    | message session m hs =>
      refine ⟨?_, ?_⟩
      · simp only [GateServer.onClientMessageCallback]
        split
        · rfl
        · split <;> rfl
      · rcases Gate.System.calls_message st.net.gate session m with ⟨-, hcalls⟩ | ⟨-, hcalls⟩
        · rw [hcalls]
          intro call hcall
          rcases List.mem_append.mp hcall with hcall | hcall
          · exact h.calls call hcall
          · rw [List.mem_singleton.mp hcall]
            exact h.server
        · rw [hcalls]
          exact h.calls
    | reply id call response hcall hp => exact ⟨rfl, h.calls_advance hcall _⟩
    | handle id call response hcall hp => exact ⟨rfl, h.calls_advance hcall _⟩
    | close session hs => exact ⟨rfl, h.calls⟩
    | closeAgain session hs => exact ⟨rfl, h.calls⟩
    | serve orders request =>
      obtain ⟨out, hsends⟩ := Gate.System.serve_eq orders st.net.gate request
      rw [hsends]
      exact ⟨rfl, h.calls⟩
  exact ⟨hgate.1.trans h.server, hgate.2, h.servers, h.logic⟩

end Kept

end Cppim.Cluster.Presence
