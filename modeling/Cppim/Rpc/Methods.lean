import Cppim.Protocol.RoundTrip
import Cppim.Rpc.Channel

/-! The services of `protocol/gate.pb.cc` and `protocol/logic.pb.cc` over an RPC channel,
with the messages as objects: what `RpcChannel::CallMethod` serializes is what the method
of the service is called with. `call_round_trip` is the way of a request and of its reply. -/

namespace Cppim.Rpc.Methods

open Cppim.Common Cppim.Lib Cppim.Lib.Wire Cppim.Protocol.Pb Cppim.Rpc.Codec Cppim.Rpc.Channel
open Cppim.Lib.Reference (runtime)

/-! ## Descriptors -/

/-- The services; each server registers one of them. -/
inductive ServiceType where
  | Gate
  | Logic
  deriving Repr, DecidableEq

def ServiceType.full_name : ServiceType → Bytes
  | .Gate => bytes "gate.Gate"
  | .Logic => bytes "logic.Logic"

inductive GateMethod where
  | Ping
  | Close
  | PushMsg
  | Broadcast
  | BroadcastRoom
  | Rooms
  deriving Repr, DecidableEq

inductive LogicMethod where
  | Ping
  | Close
  | Connect
  | Disconnect
  | Heartbeat
  | RenewOnline
  | Receive
  deriving Repr, DecidableEq

inductive Method where
  | gate (m : GateMethod)
  | logic (m : LogicMethod)
  deriving Repr, DecidableEq

namespace Method

def service : Method → ServiceType
  | .gate _ => .Gate
  | .logic _ => .Logic

def name : Method → Bytes
  | .gate .Ping => bytes "Ping"
  | .gate .Close => bytes "Close"
  | .gate .PushMsg => bytes "PushMsg"
  | .gate .Broadcast => bytes "Broadcast"
  | .gate .BroadcastRoom => bytes "BroadcastRoom"
  | .gate .Rooms => bytes "Rooms"
  | .logic .Ping => bytes "Ping"
  | .logic .Close => bytes "Close"
  | .logic .Connect => bytes "Connect"
  | .logic .Disconnect => bytes "Disconnect"
  | .logic .Heartbeat => bytes "Heartbeat"
  | .logic .RenewOnline => bytes "RenewOnline"
  | .logic .Receive => bytes "Receive"

/-- `GetRequestPrototype` -/
def request : Method → MessageType
  | .gate .PushMsg => .PushMsgReq
  | .gate .Broadcast => .BroadcastReq
  | .gate .BroadcastRoom => .BroadcastRoomReq
  | .gate .Ping | .gate .Close | .gate .Rooms => .Empty
  | .logic .Connect => .ConnectReq
  | .logic .Disconnect => .DisconnectReq
  | .logic .Heartbeat => .HeartbeatReq
  | .logic .RenewOnline => .OnlineReq
  | .logic .Receive => .ReceiveReq
  | .logic .Ping | .logic .Close => .Empty

/-- `GetResponsePrototype` -/
def response : Method → MessageType
  | .gate .Rooms => .RoomsReply
  | .gate .Ping | .gate .Close | .gate .PushMsg | .gate .Broadcast | .gate .BroadcastRoom => .Empty
  | .logic .Connect => .ConnectReply
  | .logic .Disconnect => .DisconnectReply
  | .logic .RenewOnline => .OnlineReply
  | .logic .Ping | .logic .Close | .logic .Heartbeat | .logic .Receive => .Empty

end Method

/-- The methods of a service, in the order of their indexes. -/
def ServiceType.methods : ServiceType → List Method
  | .Gate => [.gate .Ping, .gate .Close, .gate .PushMsg, .gate .Broadcast, .gate .BroadcastRoom,
      .gate .Rooms]
  | .Logic => [.logic .Ping, .logic .Close, .logic .Connect, .logic .Disconnect,
      .logic .Heartbeat, .logic .RenewOnline, .logic .Receive]

/-- The name is looked up as a C string. -/
def ServiceType.findMethodByName (s : ServiceType) (name : Bytes) : Option Method :=
  s.methods.find? fun m => m.name = name.takeWhile (· ≠ 0)

/-- `services_` of a server that has registered one service. -/
def ServiceType.services (P : Runtime) (s : ServiceType) : Services := fun name =>
  if name = s.full_name then
    some ⟨fun method => (s.findMethodByName method).map fun m =>
      ⟨fun data => (parseFromArray P m.request data).isSome⟩⟩
  else none

/-! ## Messages on a channel -/

/-- The method that `onRpcMessage` calls for a request, and what it calls it with. -/
def received (P : Runtime) (s : ServiceType) (d : Delivery) :
    Option ((m : Method) × Message m.request) :=
  if d.servicename = s.full_name then
    (s.findMethodByName d.methodname).bind fun m =>
      (parseFromArray P m.request d.data).map fun request => ⟨m, request⟩
  else none

/-- A method is called if and only if there is a request for it. -/
theorem onRpcMessage_request (P : Runtime) (s : ServiceType) (ch : RpcChannel) (d : Delivery)
    (hd : d.isresponse = false) :
    onRpcMessage (some (s.services P)) ch d =
      (ch, if (received P s d).isSome then
        .call d.data (closureName d.servicename d.methodname d.id) else .none) := by
  simp only [onRpcMessage, hd, Bool.false_eq_true, if_false, checkRequest, ServiceType.services,
    received]
  by_cases hname : d.servicename = s.full_name
  · simp only [if_pos hname]
    cases s.findMethodByName d.methodname with
    | none => rfl
    | some m =>
      simp only [Option.map_some, Option.bind_some, Option.isSome_map]
      by_cases hparse : (parseFromArray P m.request d.data).isSome = true <;> simp [hparse]
  · simp only [if_neg hname]
    rfl

/-- What `CallMethod` puts on the wire. -/
def Method.packet (P : Runtime) (m : Method) (id : BitVec 64) (request : Message m.request) :
    Packet :=
  ⟨id, m.service.full_name, m.name, serializeAsString P m.request request⟩

/-- The zero that is delivered behind the name does not matter. -/
theorem findMethodByName_name (m : Method) :
    m.service.findMethodByName (m.name ++ [0]) = some m := by
  cases m with
  | gate m => cases m <;> decide
  | logic m => cases m <;> decide

theorem received_packet (P : Runtime) (m : Method) (id : BitVec 64) (request : Message m.request)
    (hlen : (serializeAsString P m.request request).length < 2 ^ 26) :
    ∃ request', Same m.request request request' ∧
      received P m.service (m.packet P id request).delivery =
        if (texts m.request request).all P.isUtf8 then some ⟨m, request'⟩ else none := by
  refine ⟨_, same_mergeFrom P m.request request, ?_⟩
  simp only [received, Packet.delivery, Method.packet, if_true, findMethodByName_name,
    Option.bind_some, parseFromArray_written P m.request request hlen]
  split <;> rfl

/-! ## Whole calls -/

/-- `fillEmptyBuffer` on a message object: the space is made for the size that `ByteSize`
counts, and the message is written there. `none` means that it runs over the end. -/
def fillEmptyBuffer (P : Runtime) (buf : Buffer) (T : MessageType) (message : Message T)
    (id : BitVec 64) (name : Bytes) : Except Fault (Option Buffer) := do
  assert (buf.readableBytes = 0)
  let buf ← buf.appendInt64 id
  let nameLen : BitVec 32 := BitVec.ofNat 32 (name.length + 1)
  let buf ← buf.appendInt32 nameLen
  let text ← makeString (name ++ [0]) (nameLen.signExtend 64).toNat
  let buf ← buf.append text
  let byte_size := byteSize P T message
  let buf ← buf.ensureWritableBytes byte_size
  let data := serializeAsString P T message
  if data.length ≤ buf.writableBytes then
    let buf ← (buf.copyIn data).hasWritten byte_size
    let len : BitVec 32 := BitVec.ofNat 32 buf.readableBytes
    some <$> buf.prepend (BigEndian.toBytes 4 len.toNat)
  else return none

theorem le_writableBytes_of_ensure {b b' : Buffer} {n : Nat}
    (h : b.ensureWritableBytes n = .ok b') : n ≤ b'.writableBytes := by
  obtain ⟨b₁, h₁, hle, -⟩ := b.ensureWritableBytes_ok n
  rw [h₁] at h
  cases h
  exact hle

/-- The size is exact, so that the frame is the one of the serialized bytes. -/
theorem fillEmptyBuffer_eq (P : Runtime) (buf : Buffer) (T : MessageType) (message : Message T)
    (id : BitVec 64) (name : Bytes) (h : (serializeAsString P T message).length < 2 ^ 26) :
    fillEmptyBuffer P buf T message id name =
      some <$> Codec.fillEmptyBuffer buf ⟨id, name, serializeAsString P T message⟩ := by
  unfold fillEmptyBuffer Codec.fillEmptyBuffer
  rw [byteSize_eq P T message h]
  simp only [map_bind]
  refine bind_congr fun _ => bind_congr fun b₁ => bind_congr fun b₂ => bind_congr fun text =>
    bind_congr fun b₃ => ?_
  cases hspace : b₃.ensureWritableBytes (serializeAsString P T message).length with
  | error e => rfl
  | ok b₄ => simp only [ok_bind, if_pos (le_writableBytes_of_ensure hspace)]

/-- What `doneCallback` puts on the wire: the name has kept the zero of the request's. -/
def Method.replyPacket (P : Runtime) (m : Method) (id : BitVec 64) (reply : Message m.response) :
    Packet :=
  ⟨id ||| 0x8000000000000000, m.service.full_name, m.name ++ [0],
    serializeAsString P m.response reply⟩

theorem doneCallback_delivery (P : Runtime) (m : Method) (id : BitVec 64)
    (request : Message m.request) (reply : Message m.response) (hid : id.toNat < 2 ^ 63) :
    doneCallback (serializeAsString P m.response reply)
        (closureName (m.packet P id request).delivery.servicename
          (m.packet P id request).delivery.methodname (m.packet P id request).delivery.id) =
      some (m.replyPacket P id reply).frame := by
  have hmask : (m.packet P id request).delivery.id = id := (id_bits hid).2.1
  rw [doneCallback_closureName, hmask]
  simp [Packet.delivery, Method.packet, Method.replyPacket, Packet.frame, Packet.name]

theorem length_names (m : Method) :
    4 ≤ m.name.length ∧ m.name.length ≤ 13 ∧ m.service.full_name.length ≤ 11 ∧
      58 ∉ m.service.full_name := by
  cases m with
  | gate m => cases m <;> decide
  | logic m => cases m <;> decide

theorem packet_sendable (P : Runtime) (m : Method) (id : BitVec 64) (request : Message m.request)
    (h : (serializeAsString P m.request request).length ≤ 2 ^ 25) :
    (m.packet P id request).Sendable := by
  obtain ⟨hmin, hmax, hservice, hcolon⟩ := length_names m
  refine ⟨?_, hcolon, ?_⟩ <;> simp [Packet.name, Method.packet] <;> omega

theorem replyPacket_sendable (P : Runtime) (m : Method) (id : BitVec 64)
    (reply : Message m.response) (h : (serializeAsString P m.response reply).length ≤ 2 ^ 25) :
    (m.replyPacket P id reply).Sendable := by
  obtain ⟨hmin, hmax, hservice, hcolon⟩ := length_names m
  refine ⟨?_, hcolon, ?_⟩ <;> simp [Packet.name, Method.replyPacket] <;> omega

end Cppim.Rpc.Methods
