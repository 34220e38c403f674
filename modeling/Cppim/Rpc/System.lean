import Cppim.Lib.Transition
import Cppim.Rpc.Channel

/-! One client channel and one server channel joined by two byte streams.

A label of `step` is one atomic step: the parts of `CallMethod` on any number of
threads, the arrival of a chunk, one turn of the loop in `RpcCodec::onMessage`
with the callback it makes, a service that runs its closure. -/

namespace Cppim.Rpc.System

open Cppim.Common Cppim.Lib Cppim.Lib.Loop Cppim.Rpc.Codec Cppim.Rpc.Channel

/-- The descriptor of the called method. Protobuf names are not empty and have no
colon. -/
structure MethodDescriptor where
  service : Bytes
  name : Bytes
  service_ne : service ≠ []
  name_ne : name ≠ []
  colon : 58 ∉ service
  short : service.length + name.length + 3 < 2 ^ 31

/-- The arguments of `CallMethod`; `ByteSize()` is an `int`. -/
structure Call where
  method : MethodDescriptor
  request : Bytes
  response : Parser
  request_lt : request.length < 2 ^ 31

/-- A call and its number, counting from the first `fetch_add`. -/
structure Issued where
  number : Nat
  call : Call

instance : Inhabited Issued :=
  ⟨⟨0, ⟨⟨[0], [0], by decide, by decide, by decide, by decide⟩, [], fun _ => true, by decide⟩⟩⟩

/-- A thread inside `CallMethod`, behind the `fetch_add`. -/
structure Calling where
  issued : Issued
  id : BitVec 64
  registered : Bool

/-- A service that has not run its closure yet. -/
structure Running where
  issued : Issued
  request : Bytes
  name : Bytes

/-- What a service answered, and to what. -/
structure Produced where
  issued : Issued
  request : Bytes
  response : Bytes

/-- A closure that ran, and the bytes its response was parsed from. -/
structure Completed where
  done : Nat
  payload : Bytes
  deriving Repr, DecidableEq

/-- The fields from `calls` on are a record of the run that no step reads: the
calls, what the services produced, which closures ran, whose frames the two
streams carry (first one first) and which calls were dropped. -/
structure State where
  client : RpcChannel
  server : RpcChannel
  calling : List Calling
  toServer : Bytes
  toClient : Bytes
  running : List Running
  calls : List Call
  produced : List Produced
  completed : List Completed
  requests : List Issued
  responses : List (Issued × Bytes)
  lost : List Nat

def init : State := ⟨.new, .new, [], [], [], [], [], [], [], [], [], []⟩

inductive Label where
  /-- `id_.fetch_add(1)` of a new call -/
  | fetch (call : Call)
  /-- the locked section of `CallMethod` -/
  | register (i : Nat)
  /-- `codec_.send` of `CallMethod` -/
  | send (i : Nat)
  /-- the next `n` bytes arrive at the server -/
  | serverRead (n : Nat)
  /-- one turn of the loop in the server's `onMessage` -/
  | serverTurn
  /-- a service runs its closure with a response -/
  | finish (i : Nat) (response : Bytes)
  | clientRead (n : Nat)
  | clientTurn

namespace State

variable (services : Option Services)

def serverMessage (s : State) (d : Delivery) : State :=
  let r := onRpcMessage services s.server d
  let q := s.requests.headD default
  let s := { s with server := r.1, requests := s.requests.tail }
  match r.2 with
  | .call request name => { s with running := s.running ++ [⟨q, request, name⟩] }
  | _ => { s with lost := s.lost ++ [q.number] }

/-- At a client `services_` is `NULL`. -/
def clientMessage (s : State) (d : Delivery) : State :=
  let r := onRpcMessage none s.client d
  let q := s.responses.headD default
  let s := { s with client := r.1, responses := s.responses.tail }
  match r.2 with
  | .run done data => { s with completed := s.completed ++ [⟨done, data⟩] }
  | _ => { s with lost := s.lost ++ [q.1.number] }

def serverEvent (s : State) : Event → State
  | .message d => s.serverMessage services d
  | .error _ => s

def clientEvent (s : State) : Event → State
  | .message d => s.clientMessage d
  | .error _ => s

end State

/-- One atomic step; `none` means that the label is not enabled. -/
def step (services : Option Services) (s : State) : Label → Option State
  | .fetch call =>
    some { s with
      client.id_ := s.client.id_ + 1
      calling := s.calling ++ [⟨⟨s.calls.length, call⟩, s.client.id_, false⟩]
      calls := s.calls ++ [call] }
  | .register i =>
    match s.calling[i]? with
    | some t =>
      if t.registered then none
      else
        let out : OutstandingCall := ⟨t.issued.call.response, t.issued.number⟩
        some { s with
          client.outstandings_ := Function.update s.client.outstandings_ t.id (some out)
          calling := s.calling.set i { t with registered := true } }
    | none => none
  | .send i =>
    match s.calling[i]? with
    | some t =>
      if t.registered then
        let m := t.issued.call.method
        some { s with
          calling := s.calling.eraseIdx i
          toServer := s.toServer ++
            encode ⟨t.id, m.service ++ [58] ++ m.name, t.issued.call.request⟩
          requests := s.requests ++ [t.issued] }
      else none
    | none => none
  | .serverRead n => do
    let server ← s.server.read s.toServer n
    return { s with server := server, toServer := s.toServer.drop n }
  | .serverTurn =>
    if s.server.reading then
      match turn s.server.read_buf_ with
      | .again out buf =>
        some (out.foldl (State.serverEvent services) { s with server.read_buf_ := buf })
      | .leave _ buf => some { s with server.read_buf_ := buf, server.reading := false }
      | .fault _ => none
    else none
  | .finish i response =>
    match s.running[i]? with
    | some r =>
      if response.length < 2 ^ 31 then
        match doneCallback response r.name with
        | some f => some { s with
            running := s.running.eraseIdx i
            toClient := s.toClient ++ encode f
            produced := s.produced ++ [⟨r.issued, r.request, response⟩]
            responses := s.responses ++ [(r.issued, response)] }
        | none => some { s with
            running := s.running.eraseIdx i
            produced := s.produced ++ [⟨r.issued, r.request, response⟩]
            lost := s.lost ++ [r.issued.number] }
      else none
    | none => none
  | .clientRead n => do
    let client ← s.client.read s.toClient n
    return { s with client := client, toClient := s.toClient.drop n }
  | .clientTurn =>
    if s.client.reading then
      match turn s.client.read_buf_ with
      | .again out buf =>
        some (out.foldl State.clientEvent { s with client.read_buf_ := buf })
      | .leave _ buf => some { s with client.read_buf_ := buf, client.reading := false }
      | .fault _ => none
    else none

/-- `step` as a relation, with what each label does when it is enabled. -/
inductive Step (services : Option Services) (s : State) : Label → State → Prop
  | fetch (call : Call) : Step services s (.fetch call) { s with
      client.id_ := s.client.id_ + 1
      calling := s.calling ++ [⟨⟨s.calls.length, call⟩, s.client.id_, false⟩]
      calls := s.calls ++ [call] }
  | register (i : Nat) (t : Calling) : s.calling[i]? = some t →
      Step services s (.register i) { s with
        client.outstandings_ := Function.update s.client.outstandings_ t.id
          (some ⟨t.issued.call.response, t.issued.number⟩)
        calling := s.calling.set i { t with registered := true } }
  | send (i : Nat) (t : Calling) : s.calling[i]? = some t → t.registered = true →
      Step services s (.send i) { s with
        calling := s.calling.eraseIdx i
        toServer := s.toServer ++ encode ⟨t.id,
          t.issued.call.method.service ++ [58] ++ t.issued.call.method.name, t.issued.call.request⟩
        requests := s.requests ++ [t.issued] }
  | serverRead (n : Nat) (server : RpcChannel) : s.server.read s.toServer n = some server →
      Step services s (.serverRead n) { s with server := server, toServer := s.toServer.drop n }
  | serverAgain (out : List Event) (buf : Buffer) : turn s.server.read_buf_ = .again out buf →
      Step services s .serverTurn
        (out.foldl (State.serverEvent services) { s with server.read_buf_ := buf })
  | serverLeave (out : List Event) (buf : Buffer) : turn s.server.read_buf_ = .leave out buf →
      Step services s .serverTurn { s with server.read_buf_ := buf, server.reading := false }
  | finish (i : Nat) (r : Running) (response : Bytes) (f : Frame) : s.running[i]? = some r →
      response.length < 2 ^ 31 → doneCallback response r.name = some f →
      Step services s (.finish i response) { s with
        running := s.running.eraseIdx i
        toClient := s.toClient ++ encode f
        produced := s.produced ++ [⟨r.issued, r.request, response⟩]
        responses := s.responses ++ [(r.issued, response)] }
  | finishLost (i : Nat) (r : Running) (response : Bytes) : s.running[i]? = some r →
      response.length < 2 ^ 31 → doneCallback response r.name = none →
      Step services s (.finish i response) { s with
        running := s.running.eraseIdx i
        produced := s.produced ++ [⟨r.issued, r.request, response⟩]
        lost := s.lost ++ [r.issued.number] }
  | clientRead (n : Nat) (client : RpcChannel) : s.client.read s.toClient n = some client →
      Step services s (.clientRead n) { s with client := client, toClient := s.toClient.drop n }
  | clientAgain (out : List Event) (buf : Buffer) : turn s.client.read_buf_ = .again out buf →
      Step services s .clientTurn (out.foldl State.clientEvent { s with client.read_buf_ := buf })
  | clientLeave (out : List Event) (buf : Buffer) : turn s.client.read_buf_ = .leave out buf →
      Step services s .clientTurn { s with client.read_buf_ := buf, client.reading := false }

/-- Everything a step can do. -/
theorem step_inv {services : Option Services} {s s' : State} {l : Label}
    (h : step services s l = some s') : Step services s l s' := by
  cases l with
  | fetch call =>
    cases h
    exact .fetch call
  | register i =>
    simp only [step] at h
    split at h
    · next t ht =>
      split at h <;> cases h
      exact .register i t ht
    · cases h
  | send i =>
    simp only [step] at h
    split at h
    · next t ht =>
      split at h <;> cases h
      next hr => exact .send i t ht hr
    · cases h
  | serverRead n =>
    obtain ⟨server, hr, hs⟩ := Option.bind_eq_some_iff.mp h
    cases hs
    exact .serverRead n server hr
  | serverTurn =>
    simp only [step] at h
    split at h
    · split at h
      · next out buf ht =>
        cases h
        exact .serverAgain out buf ht
      · next out buf ht =>
        cases h
        exact .serverLeave out buf ht
      · cases h
    · cases h
  | finish i response =>
    simp only [step] at h
    split at h
    · next r hr =>
      split at h
      · next hlen =>
        split at h
        · next f hf =>
          cases h
          exact .finish i r response f hr hlen hf
        · next hf =>
          cases h
          exact .finishLost i r response hr hlen hf
      · cases h
    · cases h
  | clientRead n =>
    obtain ⟨client, hr, hs⟩ := Option.bind_eq_some_iff.mp h
    cases hs
    exact .clientRead n client hr
  | clientTurn =>
    simp only [step] at h
    split at h
    · split at h
      · next out buf ht =>
        cases h
        exact .clientAgain out buf ht
      · next out buf ht =>
        cases h
        exact .clientLeave out buf ht
      · cases h
    · cases h

end Cppim.Rpc.System
