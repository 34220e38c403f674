import Cppim.Common.HashMap
import Cppim.Common.Protocol
import Cppim.Gate.ClientCodec
import Mathlib.Logic.Function.Basic

/-! `gateserver/GateServer.cc` and `GateServiceImpl.cc`: the sessions that the gate has
registered, and what it sends to them. A session is named by its number. Each handler
has a lemma for what it does to `channels_`, to `rooms_` and to what was sent. -/

namespace Cppim.Gate

open Cppim.Common Cppim.Protocol

/-- `std::unordered_set<SessionPtr>` -/
abbrev SessionSet := Std.ExtTreeSet Nat

/-- An order in which the members of a set are visited. -/
structure SetOrder where
  visit : List Nat → List Nat
  perm : ∀ ss, (visit ss).Perm ss

/-- `mid_` has no initial value. -/
structure UserSession where
  key_ : Bytes := []
  mid_ : BitVec 32
  room_ : Bytes := []
  deriving Repr, DecidableEq

/-- How far a call of `rpcclient_.Connect` has come. -/
inductive Progress where
  | called
  | replied (response : ConnectReply)
  | handled (response : ConnectReply)
  deriving Repr, DecidableEq

/-- A call of `rpcclient_.Connect`, with the session that its closure holds. -/
structure Call where
  session : Nat
  request : ConnectReq
  progress : Progress := .called
  deriving Repr, DecidableEq

/-- `HandleConnect` ran for the call. -/
def Call.Handled (call : Call) : Prop := ∃ response, call.progress = .handled response

/-- The reply, once it was sent. -/
def Call.reply (call : Call) : Option ConnectReply :=
  match call.progress with
  | .called => none
  | .replied response => some response
  | .handled response => some response

/-- The other calls of `rpcclient_`. What comes back changes nothing: `HandleHeartbeat`
only logs, and `Disconnect` is called without a closure. -/
inductive Notice where
  | heartbeat (request : HeartbeatReq)
  | disconnect (request : DisconnectReq)
  deriving Repr, DecidableEq

structure GateServer where
  serverid_ : Bytes
  channels_ : HashMap Nat := ∅
  rooms_ : HashMap SessionSet := ∅
  /-- the fields of the sessions -/
  users : Nat → UserSession := fun _ => { mid_ := 0 }
  calls : List Call := []
  notices : List Notice := []
  /-- what `clientcodec_.send` was called with -/
  sent : List (Nat × ClientCodec.Message) := []

namespace GateServer

/-! ## Handlers -/

/-- `clientcodec_.send` -/
def send (g : GateServer) (session : Nat) (op id : BitVec 32) (body : Bytes) : GateServer :=
  { g with sent := g.sent ++ [(session, ⟨op, id, body⟩)] }

def onClientMessageCallback (g : GateServer) (session : Nat) (m : ClientCodec.Message) :
    GateServer :=
  let user := g.users session
  if m.op = 7 then
    { g with calls := g.calls ++
        [{ session := session, request := { server := g.serverid_, token := m.body } }] }
  else if m.op = 2 then
    { g with notices := g.notices ++
        [.heartbeat { server := g.serverid_, mid := user.mid_.signExtend 64, key := user.key_ }] }
  else g.send session 1 1 (bytes "test")

/-- `setMid` takes the low 32 bits; `insert` keeps an entry that is there. -/
def handleConnect (g : GateServer) (response : ConnectReply) (session : Nat) : GateServer :=
  let user : UserSession :=
    { key_ := response.key, mid_ := response.mid.setWidth 32, room_ := response.roomID }
  let members := g.rooms_[response.roomID]?.getD ∅
  { g with
    users := Function.update g.users session user
    channels_ := g.channels_.insertIfNew response.key session
    rooms_ := g.rooms_.insert response.roomID (members.insert session)
  }.send session 8 0 (bytes "success")

/-- The entry of `channels_` is removed by the key, the one of `rooms_` by the session. -/
def handleDisconnect (g : GateServer) (session : Nat) : GateServer :=
  let user := g.users session
  { g with
    notices := g.notices ++
      [.disconnect { server := g.serverid_, mid := user.mid_.signExtend 64, key := user.key_ }]
    channels_ := g.channels_.erase user.key_
    rooms_ := g.rooms_.modify user.room_ fun members => members.erase session }

def sendToClient (g : GateServer) (key : Bytes) (msg : Proto) : GateServer :=
  match g.channels_[key]? with
  | some session => g.send session msg.op msg.seq msg.body
  | none => g

def sendToRoom (order : SetOrder) (g : GateServer) (roomid : Bytes) (msg : Proto) : GateServer :=
  match g.rooms_[roomid]? with
  | some members =>
    (order.visit members.toList).foldl (fun g session => g.send session msg.op msg.seq msg.body) g
  | none => g

def broadCast (order : HashOrder) (g : GateServer) (msg : Proto) : GateServer :=
  (order.elements g.channels_).foldl (fun g elem => g.send elem.2 msg.op msg.seq msg.body) g

end GateServer

/-! ## `GateServiceImpl` -/

/-- The requests that the gate serves. -/
inductive Request where
  | pushMsg (request : PushMsgReq)
  | broadcast (request : BroadcastReq)
  | broadcastRoom (request : BroadcastRoomReq)
  deriving Repr, DecidableEq

/-- The orders of the two containers that the gate loops over. -/
structure Orders where
  channels : HashOrder
  rooms : SetOrder

namespace GateServer

def pushMsg (g : GateServer) (request : PushMsgReq) : GateServer :=
  request.keys.foldl (fun g key => g.sendToClient key request.proto) g

def serve (orders : Orders) (g : GateServer) : Request → GateServer
  | .pushMsg request => g.pushMsg request
  | .broadcast request => g.broadCast orders.channels request.proto
  | .broadcastRoom request => g.sendToRoom orders.rooms request.roomID request.proto

/-! ## What is registered -/

/-- `channels_[key] == session` -/
def Under (g : GateServer) (key : Bytes) (session : Nat) : Prop :=
  g.channels_[key]? = some session

/-- The session is in the set `rooms_[room]`. -/
def InRoom (g : GateServer) (room : Bytes) (session : Nat) : Prop :=
  ∃ members, g.rooms_[room]? = some members ∧ session ∈ members

def getKey (g : GateServer) (session : Nat) : Bytes := (g.users session).key_

def getRoom (g : GateServer) (session : Nat) : Bytes := (g.users session).room_

variable {g : GateServer} {response : ConnectReply} {session s : Nat} {key room : Bytes}

theorem under_handleConnect : (g.handleConnect response session).Under key s ↔
    g.Under key s ∨ (key = response.key ∧ s = session ∧ g.channels_[key]? = none) := by
  simp only [Under, handleConnect, send, Std.ExtTreeMap.getElem?_insertIfNew,
    Std.LawfulEqCmp.compare_eq_iff_eq]
  by_cases hk : response.key = key
  · subst hk
    cases hget : g.channels_[response.key]? with
    | none =>
      have hnot : response.key ∉ g.channels_ := by
        simp [Std.ExtTreeMap.mem_iff_isSome_getElem?, hget]
      simp [hnot, eq_comm]
    | some t =>
      have hmem : response.key ∈ g.channels_ :=
        Std.ExtTreeMap.mem_iff_isSome_getElem?.mpr (by rw [hget]; rfl)
      simp [hmem]
  · simp [hk, Ne.symm hk]

theorem inRoom_handleConnect : (g.handleConnect response session).InRoom room s ↔
    g.InRoom room s ∨ (room = response.roomID ∧ s = session) := by
  simp only [InRoom, handleConnect, send, Std.ExtTreeMap.getElem?_insert,
    Std.LawfulEqCmp.compare_eq_iff_eq]
  by_cases hr : response.roomID = room
  · subst hr
    cases hget : g.rooms_[response.roomID]? with
    | none => simp [@eq_comm _ session s]
    | some members => simp [@eq_comm _ session s, or_comm]
  · simp [hr, Ne.symm hr]

theorem getKey_handleConnect :
    (g.handleConnect response session).getKey = Function.update g.getKey session response.key := by
  funext s
  by_cases hs : s = session
  · subst hs
    simp [getKey, handleConnect, send]
  · simp [getKey, handleConnect, send, hs]

theorem getRoom_handleConnect : (g.handleConnect response session).getRoom =
    Function.update g.getRoom session response.roomID := by
  funext s
  by_cases hs : s = session
  · subst hs
    simp [getRoom, handleConnect, send]
  · simp [getRoom, handleConnect, send, hs]

theorem under_handleDisconnect : (g.handleDisconnect session).Under key s ↔
    g.Under key s ∧ key ≠ g.getKey session := by
  simp only [Under, handleDisconnect, Std.ExtTreeMap.getElem?_erase,
    Std.LawfulEqCmp.compare_eq_iff_eq, getKey]
  by_cases hk : (g.users session).key_ = key
  · simp [hk]
  · simp [hk, Ne.symm hk]

theorem inRoom_handleDisconnect : (g.handleDisconnect session).InRoom room s ↔
    g.InRoom room s ∧ ¬ (room = g.getRoom session ∧ s = session) := by
  simp only [InRoom, handleDisconnect, Std.ExtTreeMap.getElem?_modify,
    Std.LawfulEqCmp.compare_eq_iff_eq, getRoom]
  by_cases hr : (g.users session).room_ = room
  · subst hr
    cases hget : g.rooms_[(g.users session).room_]? with
    | none => simp
    | some members => simp [@eq_comm _ session s, and_comm]
  · simp [hr, Ne.symm hr]

/-! ## What is sent -/

/-- The frame with which `HandleConnect` acknowledges a token. -/
def success : ClientCodec.Message := ⟨8, 0, bytes "success"⟩

/-- The arguments of `clientcodec_.send` after the session. -/
def frame (msg : Proto) : ClientCodec.Message := ⟨msg.op, msg.seq, msg.body⟩

/-- Only `sent` changes, by the frames `out`. -/
def Sends (g g' : GateServer) (out : List (Nat × ClientCodec.Message)) : Prop :=
  g' = { g with sent := g.sent ++ out }

theorem sends_nil_iff {g g' : GateServer} : g.Sends g' [] ↔ g' = g := by
  simp [Sends]

theorem sends_foldl {α : Type} (f : GateServer → α → GateServer)
    (out : GateServer → α → List (Nat × ClientCodec.Message))
    (hf : ∀ g a, Sends g (f g a) (out g a))
    (hout : ∀ g sent a, out { g with sent := sent } a = out g a) (as : List α) (g : GateServer) :
    Sends g (as.foldl f g) (as.flatMap (out g)) := by
  induction as generalizing g with
  | nil => simp [Sends]
  | cons a as ih =>
    have hrest := ih (f g a)
    have hsame : out (f g a) = out g := by
      funext b
      rw [hf g a, hout]
    rw [hsame] at hrest
    simp only [Sends] at hrest
    simp only [List.foldl_cons, hrest, List.flatMap_cons, Sends]
    rw [hf g a]
    simp [List.append_assoc]

theorem sends_send (g : GateServer) (session : Nat) (msg : Proto) :
    Sends g (g.send session msg.op msg.seq msg.body) [(session, frame msg)] := rfl

theorem sends_sendToClient (g : GateServer) (key : Bytes) (msg : Proto) :
    Sends g (g.sendToClient key msg) (g.channels_[key]?.toList.map (·, frame msg)) := by
  unfold sendToClient
  split <;> rename_i h
  · rw [h]
    exact sends_send g _ msg
  · simp [h, Sends]

theorem sends_pushMsg (g : GateServer) (request : PushMsgReq) :
    Sends g (g.pushMsg request) (request.keys.flatMap fun key =>
      g.channels_[key]?.toList.map (·, frame request.proto)) :=
  sends_foldl _ (fun g key => g.channels_[key]?.toList.map (·, frame request.proto))
    (fun g key => sends_sendToClient g key request.proto) (fun _ _ _ => rfl) _ _

theorem sends_broadCast (order : HashOrder) (g : GateServer) (msg : Proto) :
    Sends g (g.broadCast order msg)
      ((order.elements g.channels_).map fun elem => (elem.2, frame msg)) := by
  rw [List.map_eq_flatMap]
  exact sends_foldl _ (fun _ (elem : Bytes × Nat) => [(elem.2, frame msg)])
    (fun g elem => sends_send g elem.2 msg) (fun _ _ _ => rfl) _ _

theorem sends_sendToRoom (order : SetOrder) (g : GateServer) (roomid : Bytes) (msg : Proto) :
    Sends g (g.sendToRoom order roomid msg) (g.rooms_[roomid]?.toList.flatMap fun members =>
      (order.visit members.toList).map (·, frame msg)) := by
  unfold sendToRoom
  split <;> rename_i h
  · rw [h]
    simp only [Option.toList_some, List.flatMap_singleton, List.map_eq_flatMap]
    exact sends_foldl _ (fun _ session => [(session, frame msg)])
      (fun g session => sends_send g session msg) (fun _ _ _ => rfl) _ _
  · simp [h, Sends]

end GateServer

end Cppim.Gate
