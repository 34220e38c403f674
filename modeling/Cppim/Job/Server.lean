import Cppim.Gate.Server
import Cppim.Logic.Push

/-! `jobserver/JobServer.cc`: a message from Kafka becomes a request to the gate. There is
one gate, whatever server the message names. -/

namespace Cppim.Job

open Cppim.Common Cppim.Protocol Cppim.Logic

/-- What every request carries to the clients. -/
def proto (msg : Bytes) : Proto := { ver := 1, op := 9, body := msg }

def pushKeys (operation : Int) (_server : Bytes) (keys : List Bytes) (msg : Bytes) :
    Gate.Request :=
  .pushMsg { keys := keys, protoOp := operation, proto := proto msg }

def broadcastRoom (room msg : Bytes) : Gate.Request :=
  .broadcastRoom { roomID := room, proto := proto msg }

def broadcast (operation : Int) (msg : Bytes) (speed : Int) : Gate.Request :=
  .broadcast { speed := speed, protoOp := operation, proto := proto msg }

def push (msg : PushMsg) : Gate.Request :=
  match msg.type with
  | .PUSH => pushKeys msg.operation msg.server msg.keys msg.msg
  | .ROOM => broadcastRoom msg.room msg.msg
  | .BROADCAST => broadcast msg.operation msg.msg msg.speed

end Cppim.Job
