import Cppim.Lib.Reference
import Cppim.Protocol.Messages

/-! The messages of the program, written and read. The results are for every message class:
`schema` is its table, and the library's rules for tables say what the code does. -/

namespace Cppim.Protocol.Pb

open Cppim.Common Cppim.Lib.Message Cppim.Lib.Wire
open Cppim.Lib.Reference (runtime)

/-! ## Every class -/

/-- The message classes of `gate.proto` and `logic.proto`, those without fields as one. -/
inductive MessageType
  | Proto
  | PushMsgReq
  | BroadcastReq
  | BroadcastRoomReq
  | Empty
  | PushMsg
  | ConnectReq
  | ConnectReply
  | DisconnectReq
  | DisconnectReply
  | HeartbeatReq
  | OnlineReq
  | OnlineReply
  | RoomsReply
  | ReceiveReq
  deriving Repr, DecidableEq

abbrev Message : MessageType → Type
  | .Proto => Protocol.Proto
  | .PushMsgReq => Pb.PushMsgReq
  | .BroadcastReq => Pb.BroadcastReq
  | .BroadcastRoomReq => Pb.BroadcastRoomReq
  | .Empty => Pb.Empty
  | .PushMsg => Pb.PushMsg
  | .ConnectReq => Pb.ConnectReq
  | .ConnectReply => Pb.ConnectReply
  | .DisconnectReq => Protocol.DisconnectReq
  | .DisconnectReply => Pb.DisconnectReply
  | .HeartbeatReq => Protocol.HeartbeatReq
  | .OnlineReq => Pb.OnlineReq
  | .OnlineReply => Pb.OnlineReply
  | .RoomsReply => Pb.RoomsReply
  | .ReceiveReq => Pb.ReceiveReq

def schema (P : Runtime) : (T : MessageType) → Schema (Message T)
  | .Proto => proto P
  | .PushMsgReq => pushMsgReq P
  | .BroadcastReq => broadcastReq P
  | .BroadcastRoomReq => broadcastRoomReq P
  | .Empty => noFields
  | .PushMsg => pushMsg P
  | .ConnectReq => connectReq P
  | .ConnectReply => connectReply P
  | .DisconnectReq => disconnectReq P
  | .DisconnectReply => disconnectReply P
  | .HeartbeatReq => heartbeatReq P
  | .OnlineReq => onlineReq P
  | .OnlineReply => onlineReply P
  | .RoomsReply => roomsReply P
  | .ReceiveReq => receiveReq P

/-- What the constructor of the class, or `Clear`, leaves. -/
def fresh : (T : MessageType) → Message T
  | .Proto => ({} : Protocol.Proto)
  | .PushMsgReq => ({} : Pb.PushMsgReq)
  | .BroadcastReq => ({} : Pb.BroadcastReq)
  | .BroadcastRoomReq => ({} : Pb.BroadcastRoomReq)
  | .Empty => ({} : Pb.Empty)
  | .PushMsg => ({} : Pb.PushMsg)
  | .ConnectReq => ({} : Pb.ConnectReq)
  | .ConnectReply => ({} : Pb.ConnectReply)
  | .DisconnectReq => (⟨0, [], []⟩ : Protocol.DisconnectReq)
  | .DisconnectReply => ({} : Pb.DisconnectReply)
  | .HeartbeatReq => (⟨0, [], []⟩ : Protocol.HeartbeatReq)
  | .OnlineReq => ({} : Pb.OnlineReq)
  | .OnlineReply => ({} : Pb.OnlineReply)
  | .RoomsReply => ({} : Pb.RoomsReply)
  | .ReceiveReq => ({} : Pb.ReceiveReq)

/-- The members of type `string`, which have to be UTF-8. Those of type `bytes` do not. -/
def texts : (T : MessageType) → Message T → List Bytes
  | .Proto, _ => []
  | .PushMsgReq, m => Pb.PushMsgReq.keys m
  | .BroadcastReq, _ => []
  | .BroadcastRoomReq, m => [Pb.BroadcastRoomReq.roomID m]
  | .Empty, _ => []
  | .PushMsg, m => Pb.PushMsg.server m :: Pb.PushMsg.room m :: Pb.PushMsg.keys m
  | .ConnectReq, m => [Pb.ConnectReq.server m, Pb.ConnectReq.cookie m]
  | .ConnectReply, m => [Pb.ConnectReply.key m, Pb.ConnectReply.roomID m]
  | .DisconnectReq, m => [Protocol.DisconnectReq.key m, Protocol.DisconnectReq.server m]
  | .DisconnectReply, _ => []
  | .HeartbeatReq, m => [Protocol.HeartbeatReq.key m, Protocol.HeartbeatReq.server m]
  | .OnlineReq, m => Pb.OnlineReq.server m :: (Pb.OnlineReq.roomCount m).keys
  | .OnlineReply, m => (Pb.OnlineReply.allRoomCount m).keys
  | .RoomsReply, m => (Pb.RoomsReply.rooms m).keys
  | .ReceiveReq, _ => []

/-- The same message, but that the entries of its maps may be in another order. -/
def Same : (T : MessageType) → Message T → Message T → Prop
  | .OnlineReq, m, m' =>
    Pb.OnlineReq.server m = Pb.OnlineReq.server m' ∧
      (Pb.OnlineReq.roomCount m).Same (Pb.OnlineReq.roomCount m')
  | .OnlineReply, m, m' => (Pb.OnlineReply.allRoomCount m).Same (Pb.OnlineReply.allRoomCount m')
  | .RoomsReply, m, m' => (Pb.RoomsReply.rooms m).Same (Pb.RoomsReply.rooms m')
  | .Proto, m, m' | .PushMsgReq, m, m' | .BroadcastReq, m, m' | .BroadcastRoomReq, m, m'
  | .Empty, m, m' | .PushMsg, m, m' | .ConnectReq, m, m' | .ConnectReply, m, m'
  | .DisconnectReq, m, m' | .DisconnectReply, m, m' | .HeartbeatReq, m, m'
  | .ReceiveReq, m, m' => m = m'

/-- `SerializeAsString`. Nothing is checked but logged when a text is not UTF-8. -/
def serializeAsString (P : Runtime) (T : MessageType) (m : Message T) : Bytes :=
  (schema P T).serialize m

/-- `ByteSize`. -/
def byteSize (P : Runtime) (T : MessageType) (m : Message T) : Nat := (schema P T).byteSize m

/-- `MergeFrom`. -/
def mergeFrom (P : Runtime) (T : MessageType) (into m : Message T) : Message T :=
  (schema P T).mergeFrom into m

/-- `ParseFromArray`, `ParseFromString`: the message is cleared, and no field is required. -/
def parseFromArray (P : Runtime) (T : MessageType) (bs : Bytes) : Option (Message T) :=
  (schema P T).mergeFromArray P recursionLimit (fresh T) bs

/-! ## What is read is what was written -/

theorem proto_valid (P : Runtime) : (proto P).valid = fun _ => true := by
  funext p
  simp [proto, Schema.valid]

theorem protoField_valid {M : Type} {P : Runtime} {tag : UInt8} {expects : List UInt8}
    {l : Lens M (Option Proto)} {htag : tag.toNat < 128 ∧ tag.toNat ≠ 0} (m : M) :
    (protoField P tag expects l htag).valid m = true := by
  rw [protoField, Field.message_valid, proto_valid]
  cases l.get m <;> rfl

/-- The parser refuses nothing but texts that are not UTF-8. -/
theorem valid_eq (P : Runtime) (T : MessageType) (m : Message T) :
    (schema P T).valid m = (texts T m).all P.isUtf8 := by
  cases T
  case Proto => simp [schema, texts, proto_valid]
  all_goals
    simp [schema, texts, Schema.valid, pushMsgReq, broadcastReq, broadcastRoomReq, noFields,
      pushMsg, connectReq, connectReply, disconnectReq, disconnectReply, heartbeatReq, onlineReq,
      onlineReply, roomsReply, receiveReq, protoField_valid, Map.keys, Function.comp_def]

open Schema Field in
theorem proto_mergeFrom (P : Runtime) (p : Proto) : (proto P).mergeFrom {} p = p := by
  refine foldl_mergeFrom_cons (optional_mergeFrom rfl) ?_
  refine foldl_mergeFrom_cons (optional_mergeFrom rfl) ?_
  refine foldl_mergeFrom_cons (optional_mergeFrom rfl) ?_
  exact foldl_mergeFrom_cons (optional_mergeFrom rfl) rfl

open Schema Field in
/-- What a message is after it was merged into a fresh one. -/
theorem same_mergeFrom (P : Runtime) (T : MessageType) (m : Message T) :
    Same T m (mergeFrom P T (fresh T) m) := by
  cases T
  case OnlineReq =>
    have hmerge : mergeFrom P .OnlineReq (fresh .OnlineReq) m =
        ⟨m.server, m.roomCount.entries.foldl (fun m e => P.insert m e.1 e.2) .empty⟩ :=
      foldl_mergeFrom_cons (optional_mergeFrom rfl) rfl
    rw [hmerge]
    exact ⟨rfl, P.foldl_insert_same _⟩
  case OnlineReply => exact P.foldl_insert_same _
  case RoomsReply => exact P.foldl_insert_same _
  case Proto => exact (proto_mergeFrom P m).symm
  all_goals
    refine Eq.symm ?_
    repeat first
      | rfl
      | refine foldl_mergeFrom_cons (optional_mergeFrom rfl) ?_
      | refine foldl_mergeFrom_cons (repeated_mergeFrom rfl) ?_
      | refine foldl_mergeFrom_cons (message_mergeFrom rfl (proto_mergeFrom P)) ?_
      | refine foldl_mergeFrom_cons rfl ?_

theorem parseFromArray_written (P : Runtime) (T : MessageType) (m : Message T)
    (h : (serializeAsString P T m).length < 2 ^ 26) :
    parseFromArray P T (serializeAsString P T m) =
      if (texts T m).all P.isUtf8 then some (mergeFrom P T (fresh T) m) else none := by
  rw [parseFromArray, serializeAsString,
    (schema P T).mergeFromArray_serialize P recursionLimit (fresh T) m h, valid_eq]
  rfl

/-- **Round trip.** What is written for a message is read as that message, if its texts are
UTF-8, and is not accepted otherwise, although it was written. -/
theorem parseFromArray_serializeAsString (P : Runtime) (T : MessageType) (m : Message T)
    (h : (serializeAsString P T m).length < 2 ^ 26) :
    ∃ m', Same T m m' ∧ parseFromArray P T (serializeAsString P T m) =
      if (texts T m).all P.isUtf8 then some m' else none :=
  ⟨_, same_mergeFrom P T m, parseFromArray_written P T m h⟩

theorem parseFromArray_serializeAsString_room :
    parseFromArray runtime .BroadcastRoomReq
        (serializeAsString runtime .BroadcastRoomReq ⟨[99, 104], some ⟨1, 9, -1, [255]⟩⟩) =
      some ⟨[99, 104], some ⟨1, 9, -1, [255]⟩⟩ ∧
    parseFromArray runtime .BroadcastRoomReq
        (serializeAsString runtime .BroadcastRoomReq ⟨[0xff], some ⟨1, 9, 0, []⟩⟩) = none := by
  obtain ⟨m, hm, hread⟩ := parseFromArray_serializeAsString runtime .BroadcastRoomReq
    ⟨[99, 104], some ⟨1, 9, -1, [255]⟩⟩ (by decide +kernel)
  obtain ⟨_, -, hrefused⟩ := parseFromArray_serializeAsString runtime .BroadcastRoomReq
    ⟨[0xff], some ⟨1, 9, 0, []⟩⟩ (by decide +kernel)
  cases hm
  exact ⟨hread, hrefused⟩

/-- **Concatenation is `MergeFrom`.** Messages that are written one behind the other are read
as one message: they are merged in their order. -/
theorem parseFromArray_flatMap (P : Runtime) (T : MessageType) (ms : List (Message T))
    (h : (ms.flatMap (serializeAsString P T)).length < 2 ^ 26) :
    parseFromArray P T (ms.flatMap (serializeAsString P T)) =
      if ms.all fun m => (texts T m).all P.isUtf8 then some (ms.foldl (mergeFrom P T) (fresh T))
      else none := by
  rw [parseFromArray, Schema.mergeFromArray_eq]
  generalize fresh T = into
  induction ms generalizing into with
  | nil => exact Schema.parse_nil ..
  | cons m ms ih =>
    rw [List.flatMap_cons, List.length_append] at h
    have hm : (serializeAsString P T m).length < 2 ^ 26 :=
      Nat.lt_of_le_of_lt (Nat.le_add_right ..) h
    rw [List.flatMap_cons, serializeAsString,
      (schema P T).parse_serialize P recursionLimit into m hm, valid_eq, ih (by omega),
      List.all_cons, List.foldl_cons]
    cases (texts T m).all P.isUtf8 <;> rfl

theorem parseFromArray_flatMap_broadcast :
    parseFromArray runtime .BroadcastReq
        ([⟨8, some ⟨1, 9, 0, [1]⟩, 0⟩, ⟨0, some ⟨0, 4, 0, []⟩, 3⟩].flatMap
          (serializeAsString runtime .BroadcastReq)) =
      some ⟨8, some ⟨1, 4, 0, [1]⟩, 3⟩ :=
  parseFromArray_flatMap runtime .BroadcastReq _ (by decide +kernel)

/-- **The jumps are a shortcut.** The generated parser goes from a field to the label of the
one that is expected next; on any input that gives what the loop over the tags gives. -/
theorem parseFromArray_eq_loop (P : Runtime) (T : MessageType) (bs : Bytes) :
    parseFromArray P T bs =
      untilEnd ((schema P T).next P recursionLimit) (bs.length + 1) (fresh T) bs :=
  (schema P T).mergeFromArray_eq P recursionLimit (fresh T) bs

/-- Behind a single element of `accepts`, the tag of the packed ones is taken for one more
single element. -/
example : parseFromArray runtime .ConnectReply [0x20, 5, 0x22, 1, 0x28, 9] =
    some { accepts := [5, 1], heartbeat := 9 } := by decide +kernel

/-! ## What is accepted -/

/-- A value that is read leaves the texts of the message UTF-8. -/
theorem read_texts (P : Runtime) (T : MessageType) : ∀ f ∈ (schema P T).fields, ∀ m bs m' rest,
    (texts T m).all P.isUtf8 = true → f.read m bs = some (m', rest) →
      (texts T m').all P.isUtf8 = true := by
  cases T
  all_goals
    repeat' first
      | exact List.forall_mem_nil _
      | refine List.forall_mem_cons.mpr ⟨?_, ?_⟩
  all_goals
    intro m bs m' rest hm h
    first
      | obtain ⟨a, ha, rfl⟩ := Field.optional_read h
      | obtain ⟨a, ha, rfl⟩ := Field.repeated_read h
      | obtain ⟨e, he, rfl⟩ := Field.map_read h
      | obtain ⟨as, rfl⟩ := Field.packed_read h
      | obtain ⟨as, rfl⟩ := Field.unpacked_read h
      | obtain ⟨x, rfl⟩ := Field.message_read h
    simp_all [texts]

theorem texts_fresh (P : Runtime) (T : MessageType) : (texts T (fresh T)).all P.isUtf8 = true := by
  cases T <;> simp [texts, fresh]

/-- The size that is reserved before a message is written. -/
theorem byteSize_eq (P : Runtime) (T : MessageType) (m : Message T)
    (h : (serializeAsString P T m).length < 2 ^ 26) :
    byteSize P T m = (serializeAsString P T m).length :=
  ((schema P T).length_serialize m h).symm

end Cppim.Protocol.Pb
