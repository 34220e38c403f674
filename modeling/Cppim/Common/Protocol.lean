import Cppim.Common.Basic

/-! `protocol/logic.proto` and `protocol/gate.proto`: the messages between the gate, the
logic server and the job server, with the fields that the program sets or reads. A
field that is not set has its default. -/

namespace Cppim.Protocol

open Cppim.Common

/-! ## `logic.proto` -/

structure ConnectReq where
  server : Bytes
  token : Bytes
  deriving Repr, DecidableEq

structure ConnectReply where
  mid : BitVec 64 := 0
  key : Bytes := []
  roomID : Bytes := []
  accepts : List (BitVec 32) := []
  deriving Repr, DecidableEq

structure HeartbeatReq where
  mid : BitVec 64
  key : Bytes
  server : Bytes
  deriving Repr, DecidableEq

structure DisconnectReq where
  mid : BitVec 64
  key : Bytes
  server : Bytes
  deriving Repr, DecidableEq

/-! ## `gate.proto` -/

structure Proto where
  ver : BitVec 32 := 0
  op : BitVec 32 := 0
  seq : BitVec 32 := 0
  body : Bytes := []
  deriving Repr, DecidableEq

structure PushMsgReq where
  keys : List Bytes
  protoOp : Int
  proto : Proto
  deriving Repr, DecidableEq

structure BroadcastReq where
  protoOp : Int
  proto : Proto
  speed : Int
  deriving Repr, DecidableEq

structure BroadcastRoomReq where
  roomID : Bytes
  proto : Proto
  deriving Repr, DecidableEq

end Cppim.Protocol
