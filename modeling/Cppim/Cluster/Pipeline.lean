import Cppim.Cluster.System
import Cppim.Job.Consumer

/-! The way of a push from `KafkaProducer::Produce` to `GateServiceImpl`, in bytes: the topic,
the job server that takes payloads out of it and calls the gate, the RPC connection that
cuts the frames anywhere, and the loop in which the gate decodes them. In between, the gate
does everything else that `Cluster.step` has.

`run_refines` says that the cluster takes the steps of `Cluster.step`, with a push for each
message that was produced. -/

namespace Cppim.Cluster.Pipeline

open Cppim.Common Cppim.Lib Cppim.Lib.Transition Cppim.Lib.Framing Cppim.Lib.Wire
open Cppim.Logic (Config PushMsg)
open Cppim.Gate (Orders)
open Cppim.Protocol.Pb (serializeAsString fresh texts)
open Cppim.Rpc.Codec (Delivery Event Frame Packet encode)
open Cppim.Rpc.Channel (RpcChannel doneCallback)
open Cppim.Rpc.Methods Cppim.Job.Consumer
open Cppim.Lib.Reference (runtime)

/-! ## The system -/

/-- `Gate::CallMethod` and `GateServiceImpl`. A method that is not implemented calls
`SetFailed` of a controller that is `NULL`. -/
def callMethod : Request → Option Gate.Request
  | ⟨.gate .PushMsg, r⟩ =>
    let r : Protocol.Pb.PushMsgReq := r
    some (.pushMsg { keys := r.keys, protoOp := r.protoOp.toInt, proto := r.proto.getD {} })
  | ⟨.gate .Broadcast, r⟩ =>
    let r : Protocol.Pb.BroadcastReq := r
    some (.broadcast
      { protoOp := r.protoOp.toInt, proto := r.proto.getD {}, speed := r.speed.toInt })
  | ⟨.gate .BroadcastRoom, r⟩ =>
    let r : Protocol.Pb.BroadcastRoomReq := r
    some (.broadcastRoom { roomID := r.roomID, proto := r.proto.getD {} })
  | ⟨_, _⟩ => none

structure State where
  cluster : Cluster.State
  /-- the payloads that the job server has not taken -/
  topic : List Bytes := []
  /-- `id_` of the channel to the gate -/
  id_ : BitVec 64 := 0
  /-- the bytes that have not arrived at the gate -/
  wire : Bytes := []
  server : RpcChannel := .new
  /-- what `doneCallback` has sent back -/
  replies : List Frame := []

def init (serverid : Bytes) : State := { cluster := Cluster.init serverid }

inductive Label where
  /-- a step of the cluster that is not a push -/
  | cluster (l : Cluster.Label)
  | produce (m : PushMsg)
  /-- `consume` returns one of the payloads; they need not be in one partition -/
  | consume (i : Nat)
  /-- `consume` returns no message -/
  | poll (err : ErrorCode)
  | arrive (n : Nat)
  /-- one turn of the loop in `RpcCodec::onMessage` -/
  | turn (orders : Orders)

/-- `RpcChannel::CallMethod`, if the message calls for it. -/
def call (P : Runtime) (st : State) : Option Request → State
  | some r => { st with
      id_ := st.id_ + 1
      wire := st.wire ++ encode (r.1.packet P st.id_ r.2).frame }
  | none => st

/-- `onRpcMessage` of the gate. The method runs its closure before it returns. -/
def onRpcMessage (P : Runtime) (orders : Orders) (st : State) (d : Delivery) : Option State :=
  let (server, effect) := Rpc.Channel.onRpcMessage (some (ServiceType.Gate.services P)) st.server d
  match effect, received P .Gate d with
  | .call _ name, some r => do
    let request ← callMethod r
    let cluster ← move st.cluster (.serve orders request)
    let reply := doneCallback (serializeAsString P r.1.response (fresh r.1.response)) name
    return { st with
      cluster := cluster, server := server, replies := st.replies ++ reply.toList }
  | _, _ => some { st with server := server }

def onEvent (P : Runtime) (orders : Orders) (st : State) : Event → Option State
  | .message d => onRpcMessage P orders st d
  | .error _ => some st

def step (P : Runtime) (cfg : Config) (st : State) : Label → Option State
  | .cluster (.push _ _) => none
  | .cluster l => (Cluster.step cfg st.cluster l).map fun cluster => { st with cluster := cluster }
  | .produce m => some { st with topic := st.topic ++ [payload P m] }
  | .consume i => (st.topic[i]?).map fun payload =>
      call P { st with topic := st.topic.eraseIdx i }
        (handleKafkaMessage P ⟨.ERR_NO_ERROR, payload⟩)
  | .poll err =>
    if err = .ERR_NO_ERROR then none else some (call P st (handleKafkaMessage P ⟨err, []⟩))
  | .arrive n => (st.server.read st.wire n).map fun server =>
      { st with server := server, wire := st.wire.drop n }
  | .turn orders =>
    if st.server.reading then
      match Rpc.Codec.turn st.server.read_buf_ with
      | .again out buf => out.foldlM (onEvent P orders) { st with server.read_buf_ := buf }
      | .leave _ buf => some { st with server.read_buf_ := buf, server.reading := false }
      | .fault _ => none
    else none

/-- The messages that are produced along a run. -/
def produced (ls : List Label) : List PushMsg :=
  ls.filterMap fun
    | .produce m => some m
    | _ => none

/-- The pushes of a run of the cluster. -/
def pushed (cls : List Cluster.Label) : List PushMsg :=
  cls.filterMap fun
    | .push _ m => some m
    | _ => none

/-- What a message has to be to fit into the fields and frames of the protocol. -/
structure Sendable (P : Runtime) (m : PushMsg) : Prop where
  operation : -2 ^ 31 ≤ m.operation ∧ m.operation < 2 ^ 31
  speed : -2 ^ 31 ≤ m.speed ∧ m.speed < 2 ^ 31
  payload : (payload P m).length < 2 ^ 26
  request : (serializeAsString P (request m).1.request (request m).2).length ≤ 2 ^ 25

/-! ## Frames -/

/-- The frame of the call with number `n`. -/
def packetOf (P : Runtime) (n : Nat) (m : PushMsg) : Packet :=
  (request m).1.packet P (BitVec.ofNat 64 n) (request m).2

/-- The frames of consecutive calls. -/
def packets (P : Runtime) (n : Nat) (ms : List PushMsg) : List Packet :=
  (ms.zipIdx n).map fun p => packetOf P p.2 p.1

@[simp] theorem packets_cons (P : Runtime) (n : Nat) (m : PushMsg) (ms : List PushMsg) :
    packets P n (m :: ms) = packetOf P n m :: packets P (n + 1) ms := rfl

theorem packets_append (P : Runtime) (n : Nat) (ms : List PushMsg) (m : PushMsg) :
    packets P n (ms ++ [m]) = packets P n ms ++ [packetOf P (n + ms.length) m] := by
  simp [packets, List.zipIdx_append]

theorem Sendable.packet {P : Runtime} {m : PushMsg} (h : Sendable P m) (n : Nat) :
    (packetOf P n m).Sendable :=
  packet_sendable _ _ _ _ h.request

/-- What is called at the gate is what the job server of `Cluster.step` asks for. -/
theorem callMethod_request {P : Runtime} {m : PushMsg} (h : Sendable P m) :
    callMethod (request m) = some (Job.push m) := by
  have hop : (BitVec.ofInt 32 m.operation).toInt = m.operation :=
    BitVec.toInt_ofInt_eq_self (by decide) h.operation.1 h.operation.2
  have hspeed : (BitVec.ofInt 32 m.speed).toInt = m.speed :=
    BitVec.toInt_ofInt_eq_self (by decide) h.speed.1 h.speed.2
  cases htype : m.type <;>
    simp [callMethod, request, Job.push, pushKeys, broadcastRoom, broadcast, Job.pushKeys,
      Job.broadcastRoom, Job.broadcast, htype, hop, hspeed]

/-- The messages that the job server sends have no maps. -/
theorem eq_of_same {m : PushMsg} {request' : Protocol.Pb.Message (request m).1.request}
    (h : Protocol.Pb.Same (request m).1.request (request m).2 request') :
    (⟨(request m).1, request'⟩ : Request) = request m := by
  revert request'
  unfold request
  split <;>
  · intro request' h
    cases h
    rfl

theorem service_request (m : PushMsg) : (request m).1.service = .Gate := by
  unfold request
  split <;> rfl

theorem ofNat_lt {n : Nat} (h : n < 2 ^ 63) : (BitVec.ofNat 64 n).toNat < 2 ^ 63 := by
  rw [BitVec.toNat_ofNat]
  omega

/-- The reply to the call with number `n`. -/
def replyTo (P : Runtime) (n : Nat) (m : PushMsg) : Frame :=
  ((request m).1.replyPacket P (BitVec.ofNat 64 n) (fresh (request m).1.response)).frame

/-- The gate has served the message of the call with number `n`, and answered. -/
def served (P : Runtime) (orders : Orders) (st : State) (n : Nat) (m : PushMsg) : State := { st with
  cluster := { st.cluster with net :=
    { st.cluster.net with gate := st.cluster.net.gate.serve orders (Job.push m) } }
  replies := st.replies ++ [replyTo P n m] }

theorem onRpcMessage_packetOf {P : Runtime} (orders : Orders) (st : State) {n : Nat}
    (hn : n < 2 ^ 63) {m : PushMsg} (hm : Sendable P m) (hutf8 : Utf8 P m = true) :
    onRpcMessage P orders st (packetOf P n m).delivery = some (served P orders st n m) := by
  have hresponse : (packetOf P n m).delivery.isresponse = false :=
    (Rpc.Codec.id_bits (ofNat_lt hn)).1
  have hreceived : received P .Gate (packetOf P n m).delivery = some (request m) := by
    rw [← service_request m]
    obtain ⟨request', hsame, hreceived⟩ := received_packet P (request m).1 (BitVec.ofNat 64 n)
      (request m).2 (by have := hm.request; omega)
    rw [packetOf, hreceived, texts_request P m hutf8, if_pos rfl, eq_of_same hsame]
  have hreply := doneCallback_delivery P (request m).1 (BitVec.ofNat 64 n) (request m).2
    (fresh (request m).1.response) (ofNat_lt hn)
  rw [onRpcMessage, onRpcMessage_request _ _ _ _ hresponse, hreceived]
  simp only [Option.isSome_some, if_true, callMethod_request hm, move, Gate.System.step,
    Option.map_some]
  rw [packetOf, hreply]
  rfl

/-! ## What a run has done -/

/-- The messages that were produced are in the topic, on their way or pushed; those on
their way are the bytes that the gate has not decoded. -/
structure Holds (P : Runtime) (cfg : Config) (serverid : Bytes) (ls : List Label) (st : State)
    (cls : List Cluster.Label) (consumed waiting sending : List PushMsg) : Prop where
  run : run (Cluster.step cfg) (Cluster.init serverid) cls = some st.cluster
  topic : st.topic = waiting.map (payload P)
  taken : (consumed ++ waiting).Perm (produced ls)
  order : pushed cls ++ sending = consumed.filter (Utf8 P)
  id_ : st.id_ = BitVec.ofNat 64 (consumed.filter (Utf8 P)).length
  content : st.server.read_buf_.readable ++ st.wire =
    stream Packet.bytes (packets P (pushed cls).length sending)
  idle : st.server.reading = false → ∀ m rest, sending = m :: rest →
    StrictPrefix st.server.read_buf_.readable (packetOf P (pushed cls).length m).bytes
  replies : st.replies = (pushed cls).zipIdx.map fun p => replyTo P p.2 p.1

theorem produced_append (ls : List Label) (l : Label) :
    produced (ls ++ [l]) = produced ls ++ produced [l] := by
  simp [produced, List.filterMap_append]

theorem pushed_append (cls : List Cluster.Label) (l : Cluster.Label) :
    pushed (cls ++ [l]) = pushed cls ++ pushed [l] := by
  simp [pushed, List.filterMap_append]

theorem holds_init (P : Runtime) (cfg : Config) (serverid : Bytes) :
    Holds P cfg serverid [] (init serverid) [] [] [] [] where
  run := rfl
  topic := rfl
  taken := List.Perm.refl _
  order := rfl
  id_ := rfl
  content := by
    rw [show (init serverid).server.read_buf_.readable = [] from Buffer.readable_ofSize _]
    rfl
  idle := by simp
  replies := rfl

namespace Holds

variable {P : Runtime} {cfg : Config} {serverid : Bytes} {ls : List Label} {st : State}
variable {cls : List Cluster.Label} {consumed waiting sending : List PushMsg}

theorem produce (h : Holds P cfg serverid ls st cls consumed waiting sending) (m : PushMsg) :
    Holds P cfg serverid (ls ++ [.produce m]) { st with topic := st.topic ++ [payload P m] } cls
      consumed (waiting ++ [m]) sending :=
  { h with
    topic := by simp [h.topic]
    taken := by
      rw [produced_append, ← List.append_assoc]
      exact h.taken.append_right [m] }

theorem cluster (h : Holds P cfg serverid ls st cls consumed waiting sending) {l : Cluster.Label}
    (hl : pushed [l] = []) {c : Cluster.State} (hc : Cluster.step cfg st.cluster l = some c) :
    Holds P cfg serverid (ls ++ [.cluster l]) { st with cluster := c } (cls ++ [l])
      consumed waiting sending := by
  have hpushed : pushed (cls ++ [l]) = pushed cls := by
    rw [pushed_append, hl, List.append_nil]
  refine ⟨?_, h.topic, ?_, ?_, h.id_, ?_, ?_, ?_⟩
  · rw [run_append_of _ _ _ _ h.run]
    exact (run_cons_eq_some ..).mpr ⟨c, hc, rfl⟩
  · rw [produced_append]
    simpa [produced] using h.taken
  · rw [hpushed]
    exact h.order
  · rw [hpushed]
    exact h.content
  · rw [hpushed]
    exact h.idle
  · rw [hpushed]
    exact h.replies

/-- Nothing but the record of the labels changes. -/
theorem poll (h : Holds P cfg serverid ls st cls consumed waiting sending) {l : Label}
    (hl : produced [l] = []) : Holds P cfg serverid (ls ++ [l]) st cls consumed waiting sending :=
  { h with taken := by rw [produced_append, hl, List.append_nil]; exact h.taken }

/-- A message is taken out of the topic. It is sent on if its texts are UTF-8. -/
theorem consume (h : Holds P cfg serverid ls st cls consumed waiting sending) {i : Nat}
    {m : PushMsg} (hi : waiting[i]? = some m) (hm : Sendable P m) :
    Holds P cfg serverid (ls ++ [.consume i])
      (call P { st with topic := st.topic.eraseIdx i }
        (handleKafkaMessage P ⟨.ERR_NO_ERROR, payload P m⟩)) cls
      (consumed ++ [m]) (waiting.eraseIdx i) (if Utf8 P m then sending ++ [m] else sending) := by
  have htopic : st.topic.eraseIdx i = (waiting.eraseIdx i).map (payload P) := by
    rw [h.topic, List.eraseIdx_map]
  have htaken : (consumed ++ [m] ++ waiting.eraseIdx i).Perm (produced (ls ++ [.consume i])) := by
    obtain ⟨hlt, rfl⟩ := List.getElem?_eq_some_iff.mp hi
    rw [produced_append, List.append_assoc]
    refine List.Perm.trans ?_ (by simpa [produced] using h.taken)
    exact (List.getElem_cons_eraseIdx_perm hlt).append_left consumed
  rw [handleKafkaMessage_payload P m hm.payload]
  cases hutf8 : Utf8 P m with
  | false =>
    refine ⟨h.run, htopic, htaken, ?_, ?_, h.content, h.idle, h.replies⟩
    · simpa [List.filter_append, hutf8] using h.order
    · simpa [call, List.filter_append, hutf8] using h.id_
  | true =>
    have hfilter : (consumed ++ [m]).filter (Utf8 P) = consumed.filter (Utf8 P) ++ [m] := by
      simp [List.filter_append, hutf8]
    have hlen : (consumed.filter (Utf8 P)).length = (pushed cls).length + sending.length := by
      rw [← h.order, List.length_append]
    refine ⟨h.run, htopic, htaken, ?_, ?_, ?_, ?_, h.replies⟩
    · rw [hfilter, ← h.order, if_pos rfl, List.append_assoc]
    · simp only [if_true, call, h.id_, hfilter, List.length_append, List.length_singleton]
      exact (BitVec.ofNat_add ..).symm
    · have hencode : encode (packetOf P (consumed.filter (Utf8 P)).length m).frame =
          (packetOf P (consumed.filter (Utf8 P)).length m).bytes :=
        Rpc.Codec.encode_eq_layout _ (hm.packet _).name_lt
      simp only [if_true, call, packets_append, stream_append, ← List.append_assoc, h.content,
        h.id_, ← hlen]
      rw [← packetOf, hencode]
      simp
    · intro hidle m' rest heq
      cases hs : sending with
      | nil =>
        -- the frame is the only one, and nothing of it has arrived
        have hempty := h.content
        rw [hs] at hempty
        have hnil : st.server.read_buf_.readable = [] := (List.append_eq_nil_iff.mp hempty).1
        simp only [hs, if_true, List.nil_append, List.cons.injEq] at heq
        rw [← heq.1]
        refine ⟨?_, fun he => ?_⟩
        · exact hnil ▸ List.nil_prefix
        · exact Rpc.Codec.decodes_sendable.nonempty _ (hm.packet (pushed cls).length)
            (he.symm.trans hnil)
      | cons m₁ rest₁ =>
        simp only [hs, if_true, List.cons_append, List.cons.injEq] at heq
        rw [← heq.1]
        exact h.idle hidle m₁ rest₁ hs

theorem arrive (h : Holds P cfg serverid ls st cls consumed waiting sending) {n : Nat}
    {server : RpcChannel} (hread : st.server.read st.wire n = some server) :
    server.reading = true ∧ Holds P cfg serverid (ls ++ [.arrive n])
      { st with server := server, wire := st.wire.drop n } cls consumed waiting sending := by
  obtain ⟨-, -, hbuf⟩ := Rpc.Channel.read_some hread
  have hreading : server.reading = true := by
    simp only [RpcChannel.read] at hread
    split at hread
    · obtain ⟨buf, -, heq⟩ := Option.bind_eq_some_iff.mp hread
      cases heq
      rfl
    · cases hread
  have hpoll := h.poll (l := .arrive n) rfl
  refine ⟨hreading, { hpoll with content := ?_, idle := ?_ }⟩
  · rw [hbuf, List.append_assoc, List.take_append_drop]
    exact h.content
  · intro hidle
    rw [hreading] at hidle
    cases hidle

theorem length_pushed_le (h : Holds P cfg serverid ls st cls consumed waiting sending) :
    (pushed cls).length ≤ consumed.length :=
  calc (pushed cls).length ≤ (pushed cls ++ sending).length := by simp
    _ = (consumed.filter (Utf8 P)).length := by rw [h.order]
    _ ≤ consumed.length := List.length_filter_le ..

theorem length_consumed_le (h : Holds P cfg serverid ls st cls consumed waiting sending) :
    consumed.length ≤ (produced ls).length := by
  have hlen := h.taken.length_eq
  rw [List.length_append] at hlen
  omega

theorem mem_of_sending (h : Holds P cfg serverid ls st cls consumed waiting sending) {m : PushMsg}
    (hm : m ∈ sending) : m ∈ consumed ∧ Utf8 P m = true := by
  have hmem : m ∈ consumed.filter (Utf8 P) := h.order ▸ List.mem_append_right _ hm
  exact List.mem_filter.mp hmem

theorem sending_eq_nil (h : Holds P cfg serverid ls st cls consumed waiting sending)
    (hsend : ∀ m ∈ consumed, Sendable P m)
    (hempty : st.server.read_buf_.readable ++ st.wire = []) : sending = [] := by
  have hcontent := h.content
  rw [hempty] at hcontent
  cases hs : sending with
  | nil => rfl
  | cons m rest =>
    rw [hs, packets_cons, stream_cons] at hcontent
    have hm := (hsend m (h.mem_of_sending (by simp [hs])).1).packet (pushed cls).length
    exact absurd (List.append_eq_nil_iff.mp hcontent.symm).1
      (Rpc.Codec.decodes_sendable.nonempty _ hm)

theorem replies_id (h : Holds P cfg serverid ls st cls consumed waiting sending) :
    st.replies.map Frame.id = (List.range (pushed cls).length).map fun n =>
      BitVec.ofNat 64 n ||| 0x8000000000000000 := by
  rw [h.replies, List.range_eq_range', ← List.zipIdx_map_snd, List.map_map, List.map_map]
  rfl

/-- The gate's buffer ends inside the next frame, or it has all of it. -/
theorem buffer_cases (h : Holds P cfg serverid ls st cls consumed waiting sending)
    (hsend : ∀ m ∈ consumed, Sendable P m) :
    (Rpc.Codec.turn st.server.read_buf_ = .leave [] st.server.read_buf_ ∧
      ∀ m rest, sending = m :: rest →
        StrictPrefix st.server.read_buf_.readable (packetOf P (pushed cls).length m).bytes) ∨
    ∃ m rest buf, sending = m :: rest ∧
      Rpc.Codec.turn st.server.read_buf_ =
        .again [.message (packetOf P (pushed cls).length m).delivery] buf ∧
      buf.readable ++ st.wire = stream Packet.bytes (packets P ((pushed cls).length + 1) rest) := by
  cases hs : sending with
  | nil =>
    have hempty := h.content
    rw [hs] at hempty
    have hnil : st.server.read_buf_.readableBytes = 0 :=
      st.server.read_buf_.readable_eq_nil_iff.mp (List.append_eq_nil_iff.mp hempty).1
    exact Or.inl ⟨Rpc.Codec.turn_short _ (by omega), by simp⟩
  | cons m rest =>
    have hm := (hsend m (h.mem_of_sending (by simp [hs])).1).packet (pushed cls).length
    have hcontent := h.content
    rw [hs, packets_cons, stream_cons] at hcontent
    rcases prefix_append_cases (hcontent ▸ List.prefix_append ..) with hpart | ⟨x, hwhole, -⟩
    · refine Or.inl ⟨Rpc.Codec.decodes_sendable.part _ _ hm hpart, fun m' rest' heq => ?_⟩
      rw [← (List.cons.inj heq).1]
      exact hpart
    · obtain ⟨buf, hturn, hbuf⟩ := Rpc.Codec.decodes_sendable.whole _ _ x hm hwhole
      refine Or.inr ⟨m, rest, buf, rfl, hturn, ?_⟩
      rw [hwhole, List.append_assoc] at hcontent
      rw [hbuf]
      exact List.append_cancel_left hcontent

/-- One turn of the gate's loop: it waits for more, or it serves the message whose frame is
complete. -/
theorem turn (h : Holds P cfg serverid ls st cls consumed waiting sending)
    (hsend : ∀ m ∈ consumed, Sendable P m) (hfew : consumed.length < 2 ^ 63) (orders : Orders)
    (hreading : st.server.reading = true) :
    ∃ st', step P cfg st (.turn orders) = some st' ∧ st'.wire = st.wire ∧
      ((st'.server.reading = false ∧
        Holds P cfg serverid (ls ++ [.turn orders]) st' cls consumed waiting sending) ∨
      ∃ m rest, sending = m :: rest ∧ st'.server.reading = true ∧
        Holds P cfg serverid (ls ++ [.turn orders]) st' (cls ++ [.push orders m]) consumed waiting
          rest) := by
  have hpoll := h.poll (l := .turn orders) rfl
  rcases h.buffer_cases hsend with ⟨hturn, hpart⟩ | ⟨m, rest, buf, rfl, hturn, hbuf⟩
  · refine ⟨{ st with server.reading := false }, ?_, rfl, Or.inl ⟨rfl, ?_⟩⟩
    · simp only [step, hreading, if_true, hturn]
    exact { hpoll with content := h.content, idle := fun _ => hpart }
  · obtain ⟨hmem, hutf8⟩ := h.mem_of_sending (List.mem_cons_self ..)
    have hserve := onRpcMessage_packetOf orders { st with server.read_buf_ := buf }
      (Nat.lt_of_le_of_lt h.length_pushed_le hfew) (hsend m hmem) hutf8
    have hpushed : pushed (cls ++ [.push orders m]) = pushed cls ++ [m] := pushed_append ..
    refine ⟨served P orders { st with server.read_buf_ := buf } (pushed cls).length m, ?_, rfl,
      Or.inr ⟨m, rest, rfl, hreading, ?_⟩⟩
    · simp only [step, if_pos hreading, hturn, List.foldlM_cons, List.foldlM_nil, onEvent]
      rw [hserve]
      rfl
    · refine ⟨?_, h.topic, hpoll.taken, ?_, h.id_, ?_, ?_, ?_⟩
      · rw [run_append_of _ _ _ _ h.run]
        rfl
      · rw [hpushed, List.append_assoc]
        exact h.order
      · rw [hpushed, List.length_append]
        exact hbuf
      · intro hidle
        have hstill : st.server.reading = false := hidle
        rw [hreading] at hstill
        cases hstill
      · rw [hpushed, List.zipIdx_append, List.map_append, ← h.replies, served, Nat.zero_add]
        rfl

end Holds

/-! ## Runs -/

namespace Holds

variable {P : Runtime} {cfg : Config} {serverid : Bytes} {ls : List Label} {st : State}
variable {cls : List Cluster.Label} {consumed waiting sending : List PushMsg}

theorem sendable (h : Holds P cfg serverid ls st cls consumed waiting sending)
    (hsend : ∀ m ∈ produced ls, Sendable P m) {m : PushMsg} (hm : m ∈ consumed ∨ m ∈ waiting) :
    Sendable P m :=
  hsend m (h.taken.mem_iff.mp (List.mem_append.mpr hm))

theorem next (h : Holds P cfg serverid ls st cls consumed waiting sending)
    (hsend : ∀ m ∈ produced ls, Sendable P m) (hshort : (produced ls).length < 2 ^ 63) {l : Label}
    {st' : State} (hstep : step P cfg st l = some st') :
    ∃ cls consumed waiting sending,
      Holds P cfg serverid (ls ++ [l]) st' cls consumed waiting sending := by
  cases l with
  | cluster l =>
    have hl : pushed [l] = [] ∧ ∃ c, Cluster.step cfg st.cluster l = some c ∧
        { st with cluster := c } = st' := by
      cases l with
      | push orders m => cases hstep
      | _ => exact ⟨rfl, Option.map_eq_some_iff.mp hstep⟩
    obtain ⟨hnone, c, hc, rfl⟩ := hl
    exact ⟨_, _, _, _, h.cluster hnone hc⟩
  | produce m =>
    cases hstep
    exact ⟨_, _, _, _, h.produce m⟩
  | consume i =>
    obtain ⟨p, hp, rfl⟩ := Option.map_eq_some_iff.mp hstep
    rw [h.topic, List.getElem?_map] at hp
    obtain ⟨m, hi, rfl⟩ := Option.map_eq_some_iff.mp hp
    exact ⟨_, _, _, _, h.consume hi (h.sendable hsend (Or.inr (List.mem_of_getElem? hi)))⟩
  | poll err =>
    have hsame : st' = st := by
      simp only [step] at hstep
      split at hstep
      · cases hstep
      · cases hstep
        cases err <;> first | rfl | contradiction
    rw [hsame]
    exact ⟨_, _, _, _, h.poll rfl⟩
  | arrive n =>
    obtain ⟨server, hread, rfl⟩ := Option.map_eq_some_iff.mp hstep
    exact ⟨_, _, _, _, (h.arrive hread).2⟩
  | turn orders =>
    have hreading : st.server.reading = true := by
      by_contra hnot
      simp [step, hnot] at hstep
    have hfew : consumed.length < 2 ^ 63 := Nat.lt_of_le_of_lt h.length_consumed_le hshort
    obtain ⟨st₁, hstep₁, -, hcases⟩ := h.turn (fun m hm => h.sendable hsend (Or.inl hm)) hfew
      orders hreading
    rw [hstep₁] at hstep
    cases hstep
    rcases hcases with ⟨-, h'⟩ | ⟨m, rest, -, -, h'⟩
    · exact ⟨_, _, _, _, h'⟩
    · exact ⟨_, _, _, _, h'⟩

end Holds

theorem run_holds {P : Runtime} {cfg : Config} {serverid : Bytes} {ls : List Label} {st : State}
    (hsend : ∀ m ∈ produced ls, Sendable P m) (hfew : (produced ls).length < 2 ^ 63)
    (h : run (step P cfg) (init serverid) ls = some st) :
    ∃ cls consumed waiting sending, Holds P cfg serverid ls st cls consumed waiting sending := by
  refine run_traced (I := fun ls st => ∃ cls consumed waiting sending,
    Holds P cfg serverid ls st cls consumed waiting sending) ls ?_ st
    ⟨_, _, _, _, holds_init P cfg serverid⟩ h
  rintro as l bs s s' rfl ⟨cls, consumed, waiting, sending, hs⟩ hstep
  have hsub : produced (as ++ l :: bs) = produced as ++ produced (l :: bs) := by
    simp [produced, List.filterMap_append]
  rw [hsub] at hsend hfew
  rw [List.length_append] at hfew
  exact hs.next (fun m hm => hsend m (List.mem_append_left _ hm)) (by omega) hstep

/-- A push to a room. -/
def roomPush : PushMsg :=
  { type := .ROOM, operation := 1, room := bytes "chat://r", msg := [0xff] }

theorem sendable_roomPush : Sendable runtime roomPush :=
  ⟨by decide, by decide, by decide +kernel, by decide +kernel⟩

/-- The push is produced and taken, and its frame arrives in two parts. -/
def delivered : List Label :=
  let orders : Orders := ⟨.sorted, ⟨id, List.Perm.refl⟩⟩
  [.produce roomPush, .consume 0, .arrive 20, .turn orders, .arrive 39, .turn orders]

/-- A run that nothing is produced along. -/
def Quietly (P : Runtime) (cfg : Config) (st : State) (ls : List Label) (st' : State) : Prop :=
  run (step P cfg) st ls = some st' ∧ produced ls = []

theorem Quietly.trans {P : Runtime} {cfg : Config} {st st' st'' : State} {ls ls' : List Label}
    (h : Quietly P cfg st ls st') (h' : Quietly P cfg st' ls' st'') :
    Quietly P cfg st (ls ++ ls') st'' := by
  refine ⟨(run_append_of _ _ _ _ h.1).trans h'.1, ?_⟩
  have hproduced : produced (ls ++ ls') = produced ls ++ produced ls' := by
    simp [produced, List.filterMap_append]
  rw [hproduced, h.2, h'.2, List.append_nil]

theorem quietly_of_step {P : Runtime} {cfg : Config} {st st' : State} {l : Label}
    (h : step P cfg st l = some st') (hl : produced [l] = []) : Quietly P cfg st [l] st' :=
  ⟨(run_cons_eq_some ..).mpr ⟨st', h, rfl⟩, hl⟩

namespace Holds

variable {P : Runtime} {cfg : Config} {serverid : Bytes} {ls : List Label} {st : State}
variable {cls : List Cluster.Label} {consumed waiting sending : List PushMsg}

/-- All payloads can be taken. -/
theorem drain_topic (h : Holds P cfg serverid ls st cls consumed waiting sending)
    (hsend : ∀ m ∈ waiting, Sendable P m) :
    ∃ ls' st' sending', Quietly P cfg st ls' st' ∧
      Holds P cfg serverid (ls ++ ls') st' cls (consumed ++ waiting) [] sending' := by
  induction waiting generalizing ls st consumed sending with
  | nil => exact ⟨[], st, sending, ⟨rfl, rfl⟩, by simpa using h⟩
  | cons m waiting ih =>
    have hnext := h.consume (i := 0) rfl (hsend m (by simp))
    obtain ⟨ls', st', sending', hquiet, hholds⟩ := ih hnext fun m' hm' => hsend m' (by simp [hm'])
    refine ⟨.consume 0 :: ls', st', sending', (quietly_of_step ?_ rfl).trans hquiet, ?_⟩
    · simp only [step, h.topic, List.map_cons, List.getElem?_cons_zero, Option.map_some]
    · simpa using hholds

/-- A loop that has started ends. -/
theorem drain_buffer (h : Holds P cfg serverid ls st cls consumed waiting sending)
    (hsend : ∀ m ∈ consumed, Sendable P m) (hfew : consumed.length < 2 ^ 63) (orders : Orders)
    (hreading : st.server.reading = true) :
    ∃ ls' st' cls' sending', Quietly P cfg st ls' st' ∧ st'.wire = st.wire ∧
      st'.server.reading = false ∧
      Holds P cfg serverid (ls ++ ls') st' cls' consumed waiting sending' := by
  -- every turn but the last takes one message
  induction sending generalizing ls st cls with
  | nil =>
    obtain ⟨st', hstep, hwire, ⟨hidle, hholds⟩ | ⟨m, rest, heq, -⟩⟩ :=
      h.turn hsend hfew orders hreading
    · exact ⟨_, st', cls, [], quietly_of_step hstep rfl, hwire, hidle, hholds⟩
    · cases heq
  | cons m sending ih =>
    obtain ⟨st', hstep, hwire, ⟨hidle, hholds⟩ | ⟨m', rest, heq, hstill, hholds⟩⟩ :=
      h.turn hsend hfew orders hreading
    · exact ⟨_, st', cls, _, quietly_of_step hstep rfl, hwire, hidle, hholds⟩
    · cases heq
      obtain ⟨ls', st'', cls', sending', hquiet, hwire', hidle, hholds'⟩ := ih hholds hstill
      refine ⟨_, st'', cls', sending', (quietly_of_step hstep rfl).trans hquiet,
        hwire'.trans hwire, hidle, ?_⟩
      rw [← List.append_assoc]
      exact hholds'

/-- With all bytes arrived and the loop at its end, nothing is on the way. -/
theorem sending_eq_nil_of_idle (h : Holds P cfg serverid ls st cls consumed waiting sending)
    (hidle : st.server.reading = false) (hwire : st.wire = []) : sending = [] := by
  cases hs : sending with
  | nil => rfl
  | cons m rest =>
    have hpart := h.idle hidle m rest hs
    have hcontent := h.content
    rw [hs, hwire, List.append_nil, packets_cons, stream_cons] at hcontent
    have hlt := hpart.length_lt
    rw [hcontent, List.length_append] at hlt
    omega

theorem drain_wire (h : Holds P cfg serverid ls st cls consumed waiting sending)
    (hsend : ∀ m ∈ consumed, Sendable P m) (hfew : consumed.length < 2 ^ 63) (orders : Orders)
    (hidle : st.server.reading = false) :
    ∃ ls' st' cls', Quietly P cfg st ls' st' ∧ st'.wire = [] ∧
      Holds P cfg serverid (ls ++ ls') st' cls' consumed waiting [] := by
  cases hwire : st.wire with
  | nil =>
    have hnil := h.sending_eq_nil_of_idle hidle hwire
    exact ⟨[], st, cls, ⟨rfl, rfl⟩, hwire, by simpa [hnil] using h⟩
  | cons b bs =>
    obtain ⟨server, hserver⟩ : ∃ server, st.server.read st.wire st.wire.length = some server := by
      obtain ⟨buf, hbuf, -⟩ := st.server.read_buf_.append_readable (st.wire.take st.wire.length)
      refine ⟨{ st.server with read_buf_ := buf, reading := true }, ?_⟩
      rw [RpcChannel.read, if_pos ⟨hidle, by simp [hwire], Nat.le_refl _⟩, hbuf]
      rfl
    obtain ⟨hreading, harrive⟩ := h.arrive hserver
    have hstep : step P cfg st (.arrive st.wire.length) =
        some { st with server := server, wire := st.wire.drop st.wire.length } := by
      simp only [step, hserver, Option.map_some]
    obtain ⟨ls', st', cls', sending', hquiet, hwire', hidle', hholds⟩ :=
      harrive.drain_buffer hsend hfew orders hreading
    have hnone : st'.wire = [] := hwire'.trans List.drop_length
    have hnil := hholds.sending_eq_nil_of_idle hidle' hnone
    rw [hnil, List.append_assoc] at hholds
    exact ⟨_, st', cls', (quietly_of_step hstep rfl).trans hquiet, hnone, hholds⟩

end Holds

end Cppim.Cluster.Pipeline
