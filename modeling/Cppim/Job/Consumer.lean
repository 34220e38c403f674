import Cppim.Job.Server
import Cppim.Rpc.Methods

/-! `jobserver/JobServer.cc` and `GateRpcClient.cc`: what the job server makes of the bytes
that Kafka hands to it. `handleKafkaMessage_payload` says which of the messages that the
logic server has serialized go on to the gate. -/

namespace Cppim.Job.Consumer

open Cppim.Common Cppim.Lib Cppim.Lib.Wire Cppim.Protocol.Pb Cppim.Rpc.Methods
open Cppim.Logic (PushType)

/-- `RdKafka::ErrorCode` -/
inductive ErrorCode where
  | ERR__TIMED_OUT
  | ERR_NO_ERROR
  | ERR__PARTITION_EOF
  | ERR__UNKNOWN_TOPIC
  | ERR__UNKNOWN_PARTITION
  | other (code : Int)
  deriving Repr, DecidableEq

structure KafkaMessage where
  err : ErrorCode
  payload : Bytes
  deriving Repr, DecidableEq

/-- A call of the stub. -/
abbrev Request := (m : Method) × Message m.request

def pushKeys (operation : BitVec 32) (_server : Bytes) (keys : List Bytes) (msg : Bytes) :
    Request :=
  ⟨.gate .PushMsg,
    ({ keys := keys, protoOp := operation, proto := some (proto msg) } : PushMsgReq)⟩

def broadcastRoom (room msg : Bytes) : Request :=
  ⟨.gate .BroadcastRoom, ({ roomID := room, proto := some (proto msg) } : BroadcastRoomReq)⟩

def broadcast (operation : BitVec 32) (msg : Bytes) (speed : BitVec 32) : Request :=
  ⟨.gate .Broadcast,
    ({ speed := speed, protoOp := operation, proto := some (proto msg) } : BroadcastReq)⟩

/-- A type that the enumeration does not have is taken and dropped. -/
def push (msg : PushMsg) : Option Request :=
  if msg.type = 0 then some (pushKeys msg.operation msg.server msg.keys msg.msg)
  else if msg.type = 1 then some (broadcastRoom msg.room msg.msg)
  else if msg.type = 2 then some (broadcast msg.operation msg.msg msg.speed)
  else none

/-- `HandleKafkaMessage`. What is not a message, or cannot be parsed, is only logged. -/
def handleKafkaMessage (P : Runtime) (message : KafkaMessage) : Option Request :=
  match message.err with
  | .ERR_NO_ERROR => (parseFromArray P .PushMsg message.payload).bind push
  | .ERR__TIMED_OUT | .ERR__PARTITION_EOF | .ERR__UNKNOWN_TOPIC | .ERR__UNKNOWN_PARTITION
  | .other _ => none

/-! ## The messages of the logic server -/

/-- The number of a type in `logic.proto`. -/
def typeNumber : PushType → BitVec 32
  | .PUSH => 0
  | .ROOM => 1
  | .BROADCAST => 2

/-- The object that the logic server has filled. -/
def toMessage (m : Logic.PushMsg) : PushMsg where
  type := typeNumber m.type
  operation := BitVec.ofInt 32 m.operation
  speed := BitVec.ofInt 32 m.speed
  server := m.server
  room := m.room
  keys := m.keys
  msg := m.msg

/-- What is given to `KafkaProducer::Produce`. -/
def payload (P : Runtime) (m : Logic.PushMsg) : Bytes := serializeAsString P .PushMsg (toMessage m)

/-- The texts of a message are UTF-8. -/
def Utf8 (P : Runtime) (m : Logic.PushMsg) : Bool := (m.server :: m.room :: m.keys).all P.isUtf8

/-- The call that the job server makes for a message. -/
def request (m : Logic.PushMsg) : Request :=
  match m.type with
  | .PUSH => pushKeys (BitVec.ofInt 32 m.operation) m.server m.keys m.msg
  | .ROOM => broadcastRoom m.room m.msg
  | .BROADCAST => broadcast (BitVec.ofInt 32 m.operation) m.msg (BitVec.ofInt 32 m.speed)

theorem push_toMessage (m : Logic.PushMsg) : push (toMessage m) = some (request m) := by
  cases htype : m.type <;> simp [push, toMessage, request, htype, typeNumber]

/-- A message goes on to the gate if its texts are UTF-8. -/
theorem handleKafkaMessage_payload (P : Runtime) (m : Logic.PushMsg)
    (h : (payload P m).length < 2 ^ 26) :
    handleKafkaMessage P ⟨.ERR_NO_ERROR, payload P m⟩ =
      if Utf8 P m then some (request m) else none := by
  have hmerge : toMessage m = mergeFrom P .PushMsg (fresh .PushMsg) (toMessage m) :=
    same_mergeFrom P .PushMsg (toMessage m)
  have htexts : (texts .PushMsg (toMessage m)).all P.isUtf8 = Utf8 P m := rfl
  have hparse := parseFromArray_written P .PushMsg (toMessage m) h
  rw [← hmerge, htexts] at hparse
  simp only [handleKafkaMessage, payload, hparse]
  cases Utf8 P m
  · rfl
  · exact push_toMessage m

/-- The texts of the call are texts of the message. -/
theorem texts_request (P : Runtime) (m : Logic.PushMsg) (h : Utf8 P m = true) :
    (texts (request m).1.request (request m).2).all P.isUtf8 = true := by
  simp only [Utf8, List.all_cons, Bool.and_eq_true] at h
  unfold request
  split
  · exact h.2.2
  · simp only [broadcastRoom]
    exact Bool.and_eq_true_iff.mpr ⟨h.2.1, rfl⟩
  · rfl

end Cppim.Job.Consumer
