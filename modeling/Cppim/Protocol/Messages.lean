import Cppim.Common.Protocol
import Cppim.Lib.Message

/-! `protocol/gate.pb.{h,cc}` and `protocol/logic.pb.{h,cc}`: the messages as the generated
code has them, and their fields as it writes and parses them.

`Schema.serialize` is `InternalSerializeWithCachedSizesToArray`, `Schema.byteSize` is
`ByteSize`, `Schema.mergeFrom` is `MergeFrom` and `Schema.merge` is
`MergePartialFromCodedStream`, for the table of a message. An entry has the tag, the tags
that `ExpectTag` is called with behind a value, and the member. The runtime that the
generated code is linked with is a parameter. -/

namespace Cppim.Protocol.Pb

open Cppim.Common Cppim.Lib.Message Cppim.Lib.Wire

/-! ## The classes -/

/-- The messages without fields: `gate.Empty`, `PushMsgReply`, `BroadcastReply`,
`BroadcastRoomReply`, `RoomsReq`, `CloseReq`, `CloseReply`, `PingReq`, `PingReply`,
`HeartbeatReply` and `ReceiveReply`. -/
structure Empty where
  deriving Repr, DecidableEq

/-- `proto_` is a null pointer until it is set. -/
structure PushMsgReq where
  keys : List Bytes := []
  proto : Option Proto := none
  protoOp : BitVec 32 := 0
  deriving Repr, DecidableEq

structure BroadcastReq where
  protoOp : BitVec 32 := 0
  proto : Option Proto := none
  speed : BitVec 32 := 0
  deriving Repr, DecidableEq

structure BroadcastRoomReq where
  roomID : Bytes := []
  proto : Option Proto := none
  deriving Repr, DecidableEq

/-- `type` is any `int` that arrives. -/
structure PushMsg where
  type : BitVec 32 := 0
  operation : BitVec 32 := 0
  speed : BitVec 32 := 0
  server : Bytes := []
  room : Bytes := []
  keys : List Bytes := []
  msg : Bytes := []
  deriving Repr, DecidableEq

structure ConnectReq where
  server : Bytes := []
  cookie : Bytes := []
  token : Bytes := []
  deriving Repr, DecidableEq

structure ConnectReply where
  mid : BitVec 64 := 0
  key : Bytes := []
  roomID : Bytes := []
  accepts : List (BitVec 32) := []
  heartbeat : BitVec 64 := 0
  deriving Repr, DecidableEq

structure DisconnectReply where
  has : Bool := false
  deriving Repr, DecidableEq

structure OnlineReq where
  server : Bytes := []
  roomCount : Map (BitVec 32) := .empty
  deriving Repr, DecidableEq

structure OnlineReply where
  allRoomCount : Map (BitVec 32) := .empty
  deriving Repr, DecidableEq

structure RoomsReply where
  rooms : Map Bool := .empty
  deriving Repr, DecidableEq

structure ReceiveReq where
  mid : BitVec 64 := 0
  proto : Option Proto := none
  deriving Repr, DecidableEq

/-! ## The tables -/

def noFields : Schema Empty := ⟨[], List.nodup_nil, by simp⟩

def proto (P : Runtime) : Schema Proto where
  fields :=
    [.optional P.int32 0 8 [16] { get := Proto.ver, set := fun m a => { m with ver := a } },
      .optional P.int32 0 16 [24] { get := Proto.op, set := fun m a => { m with op := a } },
      .optional P.int32 0 24 [34] { get := Proto.seq, set := fun m a => { m with seq := a } },
      .optional P.bytes [] 34 [] { get := Proto.body, set := fun m a => { m with body := a } }]
  nodup := by simp [Field.optional]
  expects := by simp [Field.optional]

/-- The recursion limit of `CodedInputStream`. -/
def recursionLimit : Nat := 100

/-- A member of type `Proto`, which is read with one level less to go. -/
def protoField {M : Type} (P : Runtime) (tag : UInt8) (expects : List UInt8)
    (l : Lens M (Option Proto)) (htag : tag.toNat < 128 ∧ tag.toNat ≠ 0 := by decide) :
    Lib.Message.Field M :=
  .message P (proto P) (recursionLimit - 1) {} tag expects l htag

def pushMsgReq (P : Runtime) : Schema PushMsgReq where
  fields :=
    [.repeated P.string 10 [10, 18]
        { get := PushMsgReq.keys, set := fun m a => { m with keys := a } },
      protoField P 18 [24] { get := PushMsgReq.proto, set := fun m a => { m with proto := a } },
      .optional P.int32 0 24 []
        { get := PushMsgReq.protoOp, set := fun m a => { m with protoOp := a } }]
  nodup := by simp [Field.optional, Field.repeated, Field.each, protoField, Field.message]
  expects := by simp [Field.optional, Field.repeated, Field.each, protoField, Field.message]

def broadcastReq (P : Runtime) : Schema BroadcastReq where
  fields :=
    [.optional P.int32 0 8 [18]
        { get := BroadcastReq.protoOp, set := fun m a => { m with protoOp := a } },
      protoField P 18 [24] { get := BroadcastReq.proto, set := fun m a => { m with proto := a } },
      .optional P.int32 0 24 []
        { get := BroadcastReq.speed, set := fun m a => { m with speed := a } }]
  nodup := by simp [Field.optional, protoField, Field.message]
  expects := by simp [Field.optional, protoField, Field.message]

def broadcastRoomReq (P : Runtime) : Schema BroadcastRoomReq where
  fields :=
    [.optional P.string [] 10 [18]
        { get := BroadcastRoomReq.roomID, set := fun m a => { m with roomID := a } },
      protoField P 18 [] { get := BroadcastRoomReq.proto, set := fun m a => { m with proto := a } }]
  nodup := by simp [Field.optional, protoField, Field.message]
  expects := by simp [Field.optional, protoField, Field.message]

def pushMsg (P : Runtime) : Schema PushMsg where
  fields :=
    [.optional P.enum 0 8 [16] { get := PushMsg.type, set := fun m a => { m with type := a } },
      .optional P.int32 0 16 [24]
        { get := PushMsg.operation, set := fun m a => { m with operation := a } },
      .optional P.int32 0 24 [34] { get := PushMsg.speed, set := fun m a => { m with speed := a } },
      .optional P.string [] 34 [42]
        { get := PushMsg.server, set := fun m a => { m with server := a } },
      .optional P.string [] 42 [50] { get := PushMsg.room, set := fun m a => { m with room := a } },
      .repeated P.string 50 [50, 58]
        { get := PushMsg.keys, set := fun m a => { m with keys := a } },
      .optional P.bytes [] 58 [] { get := PushMsg.msg, set := fun m a => { m with msg := a } }]
  nodup := by simp [Field.optional, Field.repeated, Field.each]
  expects := by simp [Field.optional, Field.repeated, Field.each]

def connectReq (P : Runtime) : Schema ConnectReq where
  fields :=
    [.optional P.string [] 10 [18]
        { get := ConnectReq.server, set := fun m a => { m with server := a } },
      .optional P.string [] 18 [26]
        { get := ConnectReq.cookie, set := fun m a => { m with cookie := a } },
      .optional P.bytes [] 26 []
        { get := ConnectReq.token, set := fun m a => { m with token := a } }]
  nodup := by simp [Field.optional]
  expects := by simp [Field.optional]

/-- `accepts` is written packed. A single element is read as well, and behind it the reader
looks for the tag of the packed ones, 34. -/
def connectReply (P : Runtime) : Schema ConnectReply where
  fields :=
    [.optional P.int64 0 8 [18] { get := ConnectReply.mid, set := fun m a => { m with mid := a } },
      .optional P.string [] 18 [26]
        { get := ConnectReply.key, set := fun m a => { m with key := a } },
      .optional P.string [] 26 [34]
        { get := ConnectReply.roomID, set := fun m a => { m with roomID := a } },
      .packed P 34 [40]
        { get := ConnectReply.accepts, set := fun m a => { m with accepts := a } },
      .unpacked P 1 34 32 [40]
        { get := ConnectReply.accepts, set := fun m a => { m with accepts := a } },
      .optional P.int64 0 40 []
        { get := ConnectReply.heartbeat, set := fun m a => { m with heartbeat := a } }]
  nodup := by simp [Field.optional, Field.packed, Field.unpacked]
  expects := by simp [Field.optional, Field.packed, Field.unpacked]

def disconnectReq (P : Runtime) : Schema DisconnectReq where
  fields :=
    [.optional P.int64 0 8 [18] { get := DisconnectReq.mid, set := fun m a => { m with mid := a } },
      .optional P.string [] 18 [26]
        { get := DisconnectReq.key, set := fun m a => { m with key := a } },
      .optional P.string [] 26 []
        { get := DisconnectReq.server, set := fun m a => { m with server := a } }]
  nodup := by simp [Field.optional]
  expects := by simp [Field.optional]

def disconnectReply (P : Runtime) : Schema DisconnectReply where
  fields :=
    [.optional P.bool false 8 []
        { get := DisconnectReply.has, set := fun m a => { m with has := a } }]
  nodup := by simp [Field.optional]
  expects := by simp [Field.optional]

def heartbeatReq (P : Runtime) : Schema HeartbeatReq where
  fields :=
    [.optional P.int64 0 8 [18] { get := HeartbeatReq.mid, set := fun m a => { m with mid := a } },
      .optional P.string [] 18 [26]
        { get := HeartbeatReq.key, set := fun m a => { m with key := a } },
      .optional P.string [] 26 []
        { get := HeartbeatReq.server, set := fun m a => { m with server := a } }]
  nodup := by simp [Field.optional]
  expects := by simp [Field.optional]

/-- An entry of a map is assigned before its key is verified. -/
def onlineReq (P : Runtime) : Schema OnlineReq where
  fields :=
    [.optional P.string [] 10 [18]
        { get := OnlineReq.server, set := fun m a => { m with server := a } },
      .map P (P.int32Entry.checked fun e => P.isUtf8 e.1) 18 [18]
        { get := OnlineReq.roomCount, set := fun m a => { m with roomCount := a } }]
  nodup := by simp [Field.optional, Field.map, Field.each]
  expects := by simp [Field.optional, Field.map, Field.each]

def onlineReply (P : Runtime) : Schema OnlineReply where
  fields :=
    [.map P (P.int32Entry.checked fun e => P.isUtf8 e.1) 10 [10]
        { get := OnlineReply.allRoomCount, set := fun m a => { m with allRoomCount := a } }]
  nodup := by simp [Field.map, Field.each]
  expects := by simp [Field.map, Field.each]

def roomsReply (P : Runtime) : Schema RoomsReply where
  fields :=
    [.map P (P.boolEntry.checked fun e => P.isUtf8 e.1) 10 [10]
        { get := RoomsReply.rooms, set := fun m a => { m with rooms := a } }]
  nodup := by simp [Field.map, Field.each]
  expects := by simp [Field.map, Field.each]

def receiveReq (P : Runtime) : Schema ReceiveReq where
  fields :=
    [.optional P.int64 0 8 [18] { get := ReceiveReq.mid, set := fun m a => { m with mid := a } },
      protoField P 18 [] { get := ReceiveReq.proto, set := fun m a => { m with proto := a } }]
  nodup := by simp [Field.optional, protoField, Field.message]
  expects := by simp [Field.optional, protoField, Field.message]

end Cppim.Protocol.Pb
