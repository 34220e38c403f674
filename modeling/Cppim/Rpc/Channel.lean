import Cppim.Common.Number
import Cppim.Rpc.Codec
import Mathlib.Logic.Function.Basic

/-! `rpc/RpcChannel.{h,cc}`: what one channel does with a message.

A protobuf message is its serialized bytes, and a message type is what its
`ParseFromArray` accepts. `doneCallback_closureName` says that the name bound in
a closure gives back the id it was made from. -/

namespace Cppim.Rpc.Channel

open Cppim.Common Cppim.Lib Cppim.Rpc.Codec

inductive ErrorCode where
  | NO_ERROR
  | WRONG_PROTO
  | INVALID_REQUEST
  | NO_METHOD
  | NO_SERVICE
  | PARSE_ERROR
  deriving Repr, DecidableEq

/-- What `ParseFromArray` says of serialized bytes. -/
abbrev Parser := Bytes → Bool

/-- A method of a registered service: its request prototype. -/
structure Method where
  request : Parser

structure Service where
  findMethodByName : Bytes → Option Method

/-- `services_`, keyed by the full name of the service. -/
abbrev Services := Bytes → Option Service

structure OutstandingCall where
  response : Parser
  /-- the closure, known by the number of its call -/
  done : Nat

/-- A channel and the read side of its session. -/
structure RpcChannel where
  id_ : BitVec 64
  outstandings_ : BitVec 64 → Option OutstandingCall
  read_buf_ : Buffer
  /-- the loop of `onMessage` is running -/
  reading : Bool

def RpcChannel.new : RpcChannel := ⟨0, fun _ => none, Buffer.ofSize kInitialSize, false⟩

/-- What `onRpcMessage` starts. -/
inductive Effect where
  /-- nothing -/
  | none
  /-- `out.done->Run()` after the response was parsed from `data` -/
  | run (done : Nat) (data : Bytes)
  /-- `service->CallMethod` with the request and the name bound in its closure -/
  | call (request name : Bytes)
  deriving Repr, DecidableEq

/-- The checks on a request. -/
def checkRequest (services_ : Option Services) (servicename methodname data : Bytes) : ErrorCode :=
  match services_ with
  | some services =>
    match services servicename with
    | some service =>
      match service.findMethodByName methodname with
      | some method => if method.request data then .NO_ERROR else .PARSE_ERROR
      | none => .NO_METHOD
    | none => .NO_SERVICE
  | none => .NO_SERVICE

/-- The name `onRpcMessage` binds in the closure it hands to a service. -/
def closureName (servicename methodname : Bytes) (id : BitVec 64) : Bytes :=
  servicename ++ [58] ++ methodname ++ [58] ++ to_string id

def onRpcMessage (services_ : Option Services) (ch : RpcChannel) (d : Delivery) :
    RpcChannel × Effect :=
  if d.isresponse then
    match ch.outstandings_ d.id with
    | some out =>
      ({ ch with outstandings_ := Function.update ch.outstandings_ d.id none },
        if out.response d.data then .run out.done d.data else .none)
    | none => (ch, .none)
  else if checkRequest services_ d.servicename d.methodname d.data = .NO_ERROR then
    (ch, .call d.data (closureName d.servicename d.methodname d.id))
  else
    -- the reply that would carry the error is commented out in the source
    (ch, .none)

/-- `doneCallback`: the frame it sends, if any. -/
def doneCallback (response name : Bytes) : Option Frame :=
  (Cut.cutLast 58 name).map fun p =>
    ⟨strtoull p.2 0 ||| 0x8000000000000000, p.1, response⟩

/-- `async_read_some` delivers the first `n` bytes of the stream. -/
def RpcChannel.read (ch : RpcChannel) (wire : Bytes) (n : Nat) : Option RpcChannel :=
  if ch.reading = false ∧ 1 ≤ n ∧ n ≤ wire.length then do
    let read_buf ← (ch.read_buf_.append (wire.take n)).toOption
    return { ch with read_buf_ := read_buf, reading := true }
  else none

theorem read_some {ch ch' : RpcChannel} {wire : Bytes} {n : Nat} (h : ch.read wire n = some ch') :
    ch'.id_ = ch.id_ ∧ ch'.outstandings_ = ch.outstandings_ ∧
      ch'.read_buf_.readable = ch.read_buf_.readable ++ wire.take n := by
  simp only [RpcChannel.read] at h
  split at h
  · obtain ⟨b, hb, hr⟩ := ch.read_buf_.append_readable (wire.take n)
    rw [hb] at h
    cases h
    exact ⟨rfl, rfl, hr⟩
  · cases h

/-- The id survives the closure: the text behind the last colon is the id, since
decimal text has no colon. -/
theorem doneCallback_closureName (response servicename methodname : Bytes) (id : BitVec 64) :
    doneCallback response (closureName servicename methodname id) =
      some ⟨id ||| 0x8000000000000000, servicename ++ [58] ++ methodname, response⟩ := by
  have hcolon : 58 ∉ to_string id := by
    intro h
    have := Decimal.decimal_range id.toNat 58 h
    simp at this
  have hcut : Cut.cutLast 58 (closureName servicename methodname id) =
      some (servicename ++ [58] ++ methodname, to_string id) := by
    rw [closureName, List.append_assoc _ [58] (to_string id), List.singleton_append]
    exact Cut.cutLast_of_not_mem hcolon
  rw [doneCallback, hcut, Option.map_some, strtoull_to_string]

/-! ## Names -/

/-- A request that is handed to a service is bound to the name it was delivered with. -/
theorem name_of_call {services_ : Option Services} {ch : RpcChannel} {d : Delivery}
    {request name : Bytes} (h : (onRpcMessage services_ ch d).2 = .call request name) :
    name = closureName d.servicename d.methodname d.id := by
  unfold onRpcMessage at h
  split at h
  · split at h
    · dsimp only at h
      split at h <;> cases h
    · cases h
  · split at h
    · cases h
      rfl
    · cases h

theorem nameLenField_encode (f : Frame) (hn : f.name.length + 1 < 2 ^ 31) :
    nameLenField (encode f) = f.name.length + 1 := by
  obtain ⟨-, hname, -⟩ := layout_fields f hn []
  rw [List.append_nil] at hname
  rw [encode_eq_layout f hn, hname]
  rfl

/-- One packet in any chunks. -/
theorem deliver_packet (p : Packet) (hp : p.Sendable) (cs : List Bytes)
    (hcs : cs.flatten = encode p.frame) (buf : Buffer) (hbuf : buf.readable = []) :
    ∃ buf', Framing.feed onMessage Buffer.append buf cs = .done [.message p.delivery] buf' := by
  rw [encode_eq_layout p.frame hp.name_lt] at hcs
  have hne := decodes_sendable.nonempty p hp
  obtain ⟨buf', hfeed, -⟩ := Framing.feed_exact decodes_sendable Buffer.append_readable cs [p] p []
    (List.forall_mem_singleton.mpr hp) hp ⟨List.nil_prefix, hne.symm⟩
    (by rw [hcs, Framing.stream_cons, Framing.stream_nil, List.append_nil, List.append_nil]; rfl)
    buf hbuf
  exact ⟨buf', hfeed⟩

/-- **Names grow by a byte a hop.** The zero that ends a name is delivered with the method,
and the response ends that name with one more. -/
theorem name_grows (p : Packet) (hcolon : 58 ∉ p.service) (hmethod : p.method ≠ [])
    (hfits : bodyLen p.frame ≤ kMaxMessageLen) (cs : List Bytes) (hcs : cs.flatten = encode p.frame)
    (buf : Buffer) (hbuf : buf.readable = []) :
    ∃ d buf', Framing.feed onMessage Buffer.append buf cs = .done [.message d] buf' ∧
      (d.servicename, d.methodname) = (p.service, p.method ++ [0]) ∧
      (d.servicename, d.methodname) ≠ (p.service, p.method) ∧
      ∀ services_ ch request name response,
        (onRpcMessage services_ ch d).2 = .call request name →
        ∃ f, doneCallback response name = some f ∧ f.name = p.name ++ [0] ∧ f.name ≠ p.name ∧
          nameLenField (encode f) = nameLenField (encode p.frame) + 1 := by
  have hp : p.Sendable := by
    refine ⟨?_, hcolon, hfits⟩
    have := List.length_pos_of_ne_nil hmethod
    simp only [Packet.name, List.length_append, List.length_cons]
    omega
  obtain ⟨buf', hfeed⟩ := deliver_packet p hp cs hcs buf hbuf
  refine ⟨p.delivery, buf', hfeed, rfl, by simp [Packet.delivery], ?_⟩
  intro services_ ch request name response hcall
  have hdone := doneCallback_closureName response p.service (p.method ++ [0]) p.delivery.id
  refine ⟨_, by rw [name_of_call hcall]; exact hdone, ?_, ?_, ?_⟩
  · simp [Packet.name]
  · simp [Packet.name]
  · have hfits := hp.fits
    have hname : p.name.length = p.service.length + 1 + p.method.length := by
      simp only [Packet.name, List.length_append, List.length_cons]
      omega
    have hlong : (p.service ++ [58] ++ (p.method ++ [0])).length = p.name.length + 1 := by
      simp only [hname, List.length_append, List.length_singleton]
      omega
    rw [nameLenField_encode p.frame hp.name_lt, nameLenField_encode _ (by rw [hlong]; omega), hlong]
    rfl

/-- A request named `a:b`. -/
def requestAb : Packet := ⟨5, [97], [98], []⟩

theorem encode_requestAb :
    encode requestAb.frame = [0, 0, 0, 16, 0, 0, 0, 0, 0, 0, 0, 5, 0, 0, 0, 4, 97, 58, 98, 0] := by
  rw [encode_eq_layout _ (by decide)]
  decide

theorem name_grows_ab :
    ∃ d buf', Framing.feed onMessage Buffer.append (Buffer.ofSize 0)
        [[0, 0, 0, 16, 0, 0, 0, 0, 0, 0, 0, 5, 0, 0, 0, 4, 97, 58, 98, 0]] =
          .done [.message d] buf' ∧ (d.servicename, d.methodname) = ([97], [98, 0]) := by
  obtain ⟨d, buf', hfeed, hname, -⟩ := name_grows requestAb (by decide) (by decide) (by decide)
    [encode requestAb.frame] (by simp) (Buffer.ofSize 0) (Buffer.readable_ofSize 0)
  rw [encode_requestAb] at hfeed
  exact ⟨d, buf', hfeed, hname⟩

/-- A server of one method, whose name is compared as a C string. -/
def onlyAb : Services := fun service =>
  if service = [97] then
    some ⟨fun method => if method.takeWhile (· ≠ 0) = [98] then some ⟨fun _ => true⟩ else none⟩
  else none

/-- The response to it is named `a:b` with a zero behind, which is counted and followed by
another one. -/
theorem response_name_longer :
    (∃ buf', Framing.feed onMessage Buffer.append (Buffer.ofSize 0)
        [[0, 0, 0, 16, 0, 0, 0, 0, 0, 0, 0, 5, 0, 0, 0, 4, 97, 58, 98, 0]] =
          .done [.message ⟨false, 5, [97], [98, 0], [], 0⟩] buf') ∧
    ∃ name f, (onRpcMessage (some onlyAb) .new ⟨false, 5, [97], [98, 0], [], 0⟩).2 = .call [] name ∧
      doneCallback [] name = some f ∧
      encode f = [0, 0, 0, 17, 128, 0, 0, 0, 0, 0, 0, 5, 0, 0, 0, 5, 97, 58, 98, 0, 0] := by
  constructor
  · have hp : requestAb.Sendable := ⟨by decide, by decide, by decide⟩
    rw [← encode_requestAb]
    exact deliver_packet requestAb hp _ (by simp) (Buffer.ofSize 0) (Buffer.readable_ofSize 0)
  · refine ⟨closureName [97] [98, 0] 5, _, rfl, doneCallback_closureName _ _ _ _, ?_⟩
    rw [encode_eq_layout _ (by decide)]
    decide

/-! ## Ids -/

/-- A name with a colon is cut at its first one, wherever it was joined. -/
theorem exists_packet {name : Bytes} (hcolon : 58 ∈ name) (id : BitVec 64) (message : Bytes) :
    ∃ p : Packet, p.frame = ⟨id, name, message⟩ ∧ p.name = name ∧ 58 ∉ p.service := by
  obtain ⟨service, method, hname, hservice⟩ := List.eq_append_cons_of_mem hcolon
  refine ⟨⟨id, service, method, message⟩, ?_, hname.symm, hservice⟩
  rw [Packet.frame, Packet.name, ← hname]

/-- **The id survives the closure.** Whatever bytes the names are made of, `doneCallback`
finds the name `service:method` and the id in the text that `onRpcMessage` has bound, and
the caller is told of a response to the call of that id, in whatever chunks the frame
arrives. -/
theorem id_survives_closure (service method response : Bytes) (id : BitVec 64)
    (hid : id.toNat < 2 ^ 63) (hname : 2 ≤ service.length + method.length)
    (hfits : bodyLen ⟨id ||| 0x8000000000000000, service ++ [58] ++ method, response⟩ ≤
      kMaxMessageLen) :
    (∀ services_ ch data datalen request name,
      (onRpcMessage services_ ch ⟨false, id, service, method, data, datalen⟩).2 =
        .call request name → name = closureName service method id) ∧
    ∃ f, doneCallback response (closureName service method id) = some f ∧
      f.name = service ++ [58] ++ method ∧ f.id = id ||| 0x8000000000000000 ∧
      f.message = response ∧
      ∀ cs buf, cs.flatten = encode f → buf.readable = [] →
        ∃ d buf', Framing.feed onMessage Buffer.append buf cs = .done [.message d] buf' ∧
          d.isresponse = true ∧ d.id = id ∧ d.data = response := by
  refine ⟨fun services_ ch data datalen request name hcall => name_of_call hcall, ?_⟩
  refine ⟨_, doneCallback_closureName response service method id, rfl, rfl, rfl, ?_⟩
  intro cs buf hcs hbuf
  have hmem : (58 : UInt8) ∈ service ++ [58] ++ method := by simp
  obtain ⟨p, hframe, hpname, hcolon⟩ := exists_packet hmem (id ||| 0x8000000000000000) response
  have hp : p.Sendable := by
    refine ⟨?_, hcolon, ?_⟩
    · rw [hpname]
      simp
      omega
    · rw [← hframe] at hfits
      exact hfits
  rw [← hframe] at hcs
  obtain ⟨buf', hfeed⟩ := deliver_packet p hp cs hcs buf hbuf
  obtain ⟨-, -, hmsb, hmask⟩ := id_bits hid
  have hpid : p.id = id ||| 0x8000000000000000 := congrArg Frame.id hframe
  refine ⟨p.delivery, buf', hfeed, ?_, ?_, congrArg Frame.message hframe⟩
  · rw [Packet.delivery, hpid]
    exact hmsb
  · rw [Packet.delivery, hpid]
    exact hmask

/-- A service whose name ends in a colon and a digit, and a method of one zero byte. -/
theorem id_survives_closure_colons :
    ∃ f, doneCallback [1, 2] (closureName (bytes "a:7:") [0] 9) = some f ∧
      f.name = bytes "a:7:" ++ [58] ++ [0] ∧ f.id = 0x8000000000000009 := by
  obtain ⟨-, f, hf, hname, hid, -⟩ := id_survives_closure (bytes "a:7:") [0] [1, 2] 9
    (by decide) (by decide) (by decide)
  exact ⟨f, hf, hname, hid⟩

end Cppim.Rpc.Channel
