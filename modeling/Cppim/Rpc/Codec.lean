import Cppim.Common.Buffer
import Cppim.Lib.Cut
import Cppim.Lib.Framing

/-! `rpc/RpcCodec.{h,cc}`: the frames of an RPC connection.

    int32 len | uint64 id | int32 namelen | name[namelen] | protobuf[len - namelen - 12]

`len` does not count itself, the highest bit of `id` marks a response, and the
name carries a terminating zero that `namelen` counts. A protobuf message is its
serialized bytes. `decodes` is the round trip of one frame and
`onMessage_exact` that of a stream under any segmentation. -/

namespace Cppim.Rpc.Codec

open Cppim.Common Cppim.Lib Cppim.Lib.Loop Cppim.Lib.Framing

def kHeaderLen : Nat := 4
def kIdLen : Nat := 8
def kMinMessageLen : Nat := kIdLen + kHeaderLen + 3
def kMaxMessageLen : Nat := 64 * 1024 * 1024

inductive ErrorCode where
  | kNoError
  | kInvalidLength
  | kCheckSumError
  | kInvalidNameLen
  | kUnknownMessageType
  | kParseError
  deriving Repr, DecidableEq

/-- The arguments of `messageCallback_`; `data` is the `datalen` bytes at the
pointer that is passed. -/
structure Delivery where
  isresponse : Bool
  id : BitVec 64
  servicename : Bytes
  methodname : Bytes
  data : Bytes
  datalen : Int
  deriving Repr, DecidableEq

/-- A call of `messageCallback_` or of `errorCallback_`. -/
inductive Event where
  | message (d : Delivery)
  | error (code : ErrorCode)
  deriving Repr, DecidableEq

/-- The arguments of `fillEmptyBuffer`. -/
structure Frame where
  id : BitVec 64
  name : Bytes
  message : Bytes
  deriving Repr, DecidableEq

def fillEmptyBuffer (buf : Buffer) (f : Frame) : Except Fault Buffer := do
  assert (buf.readableBytes = 0)
  let buf ← buf.appendInt64 f.id
  let nameLen : BitVec 32 := BitVec.ofNat 32 (f.name.length + 1)
  let buf ← buf.appendInt32 nameLen
  -- `name.c_str()` ends in a zero, which `nameLen` counts
  let text ← makeString (f.name ++ [0]) (nameLen.signExtend 64).toNat
  let buf ← buf.append text
  let buf ← buf.ensureWritableBytes f.message.length
  let buf ← (buf.copyIn f.message).hasWritten f.message.length
  let len : BitVec 32 := BitVec.ofNat 32 buf.readableBytes
  buf.prepend (BigEndian.toBytes 4 len.toNat)

def asInt32 (mem : Bytes) : BitVec 32 := BitVec.ofNat 32 (BigEndian.ofBytes (mem.take 4))
def asUInt64 (mem : Bytes) : BitVec 64 := BitVec.ofNat 64 (BigEndian.ofBytes (mem.take 8))

/-- The `namelen` field of the frame at the start of the memory. -/
def nameLenField (mem : Bytes) : Int := (asInt32 ((mem.drop kHeaderLen).drop kIdLen)).toInt

/-- What `onMessage` makes of a complete frame: `none` is `kInvalidNameLen`. The
name is read from the memory at `peek()`, whether or not it stays inside the
frame. -/
def decode (mem : Bytes) (len : Int) : Except Fault (Option Delivery) := do
  let idstart := mem.drop kHeaderLen
  let id := asUInt64 idstart
  let nameLen := nameLenField mem
  if 3 ≤ nameLen ∧ nameLen ≤ len - 2 * kHeaderLen then
    let typeName ← slice (idstart.drop (kHeaderLen + kIdLen)) nameLen.toNat
    return (Cut.cut [58] typeName).map fun p =>
      let datalen := len - nameLen - kHeaderLen - kIdLen
      { isresponse := id.msb
        id := id &&& 0x7fffffffffffffff
        servicename := p.1
        methodname := p.2
        data := (idstart.drop (kHeaderLen + kIdLen + nameLen.toNat)).take datalen.toNat
        datalen := datalen }
  else
    return none

/-- One turn of the `while` loop of `onMessage`. -/
def turn (buf : Buffer) : Turn Buffer Event Fault := Turn.ofExcept do
  if kMinMessageLen + kHeaderLen ≤ buf.readableBytes then
    let len := (← buf.peekInt32).toInt
    if len > kMaxMessageLen ∨ len < kMinMessageLen then
      return .leave [.error .kInvalidLength] buf
    else if (len + kHeaderLen).toNat ≤ buf.readableBytes then
      let d ← decode buf.peek len
      let buf ← buf.retrieve (kHeaderLen + len).toNat
      match d with
      | some d => return .again [.message d] buf
      | none => return .leave [.error .kInvalidNameLen] buf
    else
      return .leave [] buf
  else
    return .leave [] buf

def onMessage : Buffer → Outcome Buffer Event Fault := drain turn Buffer.readable

/-- The bytes `send` hands to the session for one frame. -/
def encode (f : Frame) : Bytes :=
  match fillEmptyBuffer (Buffer.ofSize kInitialSize) f with
  | .ok buf => buf.readable
  | .error _ => []

/-! ## The encoder -/

/-- The length `fillEmptyBuffer` counts: everything behind the length field. -/
def bodyLen (f : Frame) : Nat := 12 + f.name.length + 1 + f.message.length

/-- A frame, field by field. -/
def layout (f : Frame) : Bytes :=
  BigEndian.toBytes 4 (bodyLen f) ++ BigEndian.toBytes 8 f.id.toNat ++
    BigEndian.toBytes 4 (f.name.length + 1) ++ (f.name ++ [0]) ++ f.message

theorem layout_length (f : Frame) : (layout f).length = 4 + bodyLen f := by
  simp [layout, bodyLen]
  omega

theorem fillEmptyBuffer_ok (f : Frame) (hn : f.name.length + 1 < 2 ^ 31) (buf : Buffer)
    (hbuf : buf.readable = []) (hres : buf.Reserved) :
    ∃ b, fillEmptyBuffer buf f = .ok b ∧ b.readable = layout f := by
  have hempty : buf.readableBytes = 0 := (buf.readable_eq_nil_iff).mp hbuf
  have hname : ((BitVec.ofNat 32 (f.name.length + 1)).signExtend 64).toNat = f.name.length + 1 :=
    signExtend_ofNat_of_lt _ hn
  have htext : makeString (f.name ++ [0]) (f.name.length + 1) = .ok (f.name ++ [0]) := by
    rw [makeString, if_pos (by omega), List.take_of_length_le (by simp)]
  obtain ⟨b₁, h₁, r₁, s₁⟩ := Buffer.appendInt_ok 8 buf f.id
  obtain ⟨b₂, h₂, r₂, s₂⟩ := Buffer.appendInt_ok 4 b₁ (BitVec.ofNat 32 (f.name.length + 1))
  obtain ⟨b₃, h₃, r₃, s₃⟩ := b₂.append_ok (f.name ++ [0])
  obtain ⟨b₄, h₄, w₄, r₄, s₄⟩ := b₃.ensureWritableBytes_ok f.message.length
  obtain ⟨b₅, h₅, r₅, s₅⟩ := b₄.copyIn_hasWritten_ok f.message w₄
  have hread : b₅.readable = BigEndian.toBytes 8 f.id.toNat ++
      BigEndian.toBytes 4 (f.name.length + 1) ++ (f.name ++ [0]) ++ f.message := by
    rw [r₅, r₄, r₃, r₂, r₁, hbuf, BigEndian.toBytes_ofNat 4]
    rfl
  have hlen : b₅.readableBytes = bodyLen f := by
    rw [← b₅.readable_length, hread]
    simp [bodyLen]
    omega
  obtain ⟨b₆, h₆, r₆⟩ := b₅.prepend_reserved (s₅ (s₄ (s₃ (s₂ (s₁ hres)))))
    (BitVec.ofNat 32 b₅.readableBytes).toNat
  refine ⟨b₆, ?_, ?_⟩
  · simp only [fillEmptyBuffer, Buffer.appendInt64, Buffer.appendInt32, assert_of _ hempty, h₁, h₂,
      hname, htext, h₃, h₄, h₅, ok_bind]
    exact h₆
  · rw [r₆, hread, BigEndian.toBytes_ofNat 4, hlen, layout]
    simp only [List.append_assoc]

theorem encode_eq_layout (f : Frame) (hn : f.name.length + 1 < 2 ^ 31) : encode f = layout f := by
  have hok := fillEmptyBuffer_ok f hn (Buffer.ofSize kInitialSize) (Buffer.readable_ofSize _)
    (Buffer.reserved_ofSize _)
  unfold encode
  generalize Buffer.ofSize kInitialSize = buf at hok ⊢
  obtain ⟨b, hb, hr⟩ := hok
  simp only [hb, hr]

/-! ## One turn of the decoder -/

/-- The length field of the frame at the start of the memory. -/
def len (mem : Bytes) : Int := (asInt32 mem).toInt

/-- The first of `n` unread bytes start a frame that is complete and has an
acceptable length. -/
structure Complete (mem : Bytes) (n : Nat) : Prop where
  min_le : kMinMessageLen ≤ len mem
  le_max : len mem ≤ kMaxMessageLen
  whole : (len mem + kHeaderLen).toNat ≤ n

theorem Complete.le {mem : Bytes} {n : Nat} (h : Complete mem n) : 19 ≤ n := by
  obtain ⟨hmin, _, hw⟩ := h
  simp only [kMinMessageLen, kHeaderLen, kIdLen] at hmin hw
  omega

theorem peekInt32_eq (buf : Buffer) (h : 19 ≤ buf.readableBytes) :
    buf.peekInt32 = .ok (asInt32 buf.peek) := by
  rw [asInt32, buf.peek_take 4 (by omega)]
  exact buf.peekInt32_ok (by omega)

theorem turn_short (buf : Buffer) (h : buf.readableBytes < 19) : turn buf = .leave [] buf := by
  have hn : ¬ kMinMessageLen + kHeaderLen ≤ buf.readableBytes := Nat.not_le.mpr h
  simp only [turn, hn, ↓reduceIte, pure_eq_ok, Turn.ofExcept]

theorem turn_invalidLength (buf : Buffer) (h : 19 ≤ buf.readableBytes)
    (hlen : len buf.peek > kMaxMessageLen ∨ len buf.peek < kMinMessageLen) :
    turn buf = .leave [.error .kInvalidLength] buf := by
  have hn : kMinMessageLen + kHeaderLen ≤ buf.readableBytes := h
  simp only [len] at hlen
  simp only [turn, hn, ↓reduceIte, peekInt32_eq buf h, ok_bind, hlen, pure_eq_ok, Turn.ofExcept]

theorem turn_wait (buf : Buffer) (hmin : kMinMessageLen ≤ len buf.peek)
    (hmax : len buf.peek ≤ kMaxMessageLen)
    (hw : ¬ (len buf.peek + kHeaderLen).toNat ≤ buf.readableBytes) :
    turn buf = .leave [] buf := by
  by_cases h : 19 ≤ buf.readableBytes
  · have hn : kMinMessageLen + kHeaderLen ≤ buf.readableBytes := h
    have hin : ¬ (len buf.peek > kMaxMessageLen ∨ len buf.peek < kMinMessageLen) := by omega
    simp only [len] at hin hw
    simp only [turn, hn, ↓reduceIte, peekInt32_eq buf h, ok_bind, hin, hw, pure_eq_ok,
      Turn.ofExcept]
  · exact turn_short buf (by omega)

/-- On a complete frame the turn is what `decode` says of the memory at `peek()`,
and the frame is consumed. -/
theorem turn_complete (buf : Buffer) (h : Complete buf.peek buf.readableBytes) :
    ∃ buf', buf.retrieve (kHeaderLen + len buf.peek).toNat = .ok buf' ∧
      buf'.readable = buf.readable.drop (kHeaderLen + len buf.peek).toNat ∧
      turn buf = match decode buf.peek (len buf.peek) with
        | .ok (some d) => .again [.message d] buf'
        | .ok none => .leave [.error .kInvalidNameLen] buf'
        | .error e => .fault e := by
  have h19 := h.le
  obtain ⟨hmin, hmax, hw⟩ := h
  have hn : kMinMessageLen + kHeaderLen ≤ buf.readableBytes := h19
  have hin : ¬ (len buf.peek > kMaxMessageLen ∨ len buf.peek < kMinMessageLen) := by omega
  obtain ⟨buf', hr, hread⟩ := buf.retrieve_ok (kHeaderLen + len buf.peek).toNat
    (by rwa [Int.add_comm])
  refine ⟨buf', hr, hread, ?_⟩
  simp only [len] at hin hw hr ⊢
  simp only [turn, hn, ↓reduceIte, peekInt32_eq buf h19, ok_bind, hin, hw]
  cases hd : decode buf.peek (asInt32 buf.peek).toInt with
  | error e => rfl
  | ok d => cases d <;> simp only [hr, ok_bind, pure_eq_ok, Turn.ofExcept]

/-! ## Ids -/

theorem mask_toNat (id : BitVec 64) : (id &&& 0x7fffffffffffffff).toNat = id.toNat % 2 ^ 63 := by
  rw [BitVec.toNat_and]
  exact Nat.and_two_pow_sub_one_eq_mod id.toNat 63

theorem mark_toNat {id : BitVec 64} (h : id.toNat < 2 ^ 63) :
    (id ||| 0x8000000000000000).toNat = 2 ^ 63 + id.toNat := by
  rw [BitVec.toNat_or, Nat.or_comm]
  exact (Nat.two_pow_add_eq_or_of_lt h 1).symm

/-- Below `2^63` an id has its highest bit free for the response mark. -/
theorem id_bits {id : BitVec 64} (h : id.toNat < 2 ^ 63) :
    id.msb = false ∧ id &&& 0x7fffffffffffffff = id ∧
    (id ||| 0x8000000000000000).msb = true ∧
    (id ||| 0x8000000000000000) &&& 0x7fffffffffffffff = id := by
  refine ⟨?_, ?_, ?_, ?_⟩
  · rw [BitVec.msb_eq_decide]
    simp
    omega
  · apply BitVec.eq_of_toNat_eq
    rw [mask_toNat]
    omega
  · rw [BitVec.msb_eq_decide, mark_toNat h]
    simp
  · apply BitVec.eq_of_toNat_eq
    rw [mask_toNat, mark_toNat h]
    omega

/-! ## Framing -/

/-- What the two ends put on the wire: a frame named `service:method`. -/
structure Packet where
  id : BitVec 64
  service : Bytes
  method : Bytes
  message : Bytes
  deriving Repr, DecidableEq

namespace Packet

def name (p : Packet) : Bytes := p.service ++ 58 :: p.method
def frame (p : Packet) : Frame := ⟨p.id, p.name, p.message⟩

@[simp] theorem frame_id (p : Packet) : p.frame.id = p.id := rfl
@[simp] theorem frame_name (p : Packet) : p.frame.name = p.name := rfl
@[simp] theorem frame_message (p : Packet) : p.frame.message = p.message := rfl

/-- The bytes of the frame. -/
def bytes (p : Packet) : Bytes := layout p.frame

structure WellFormed (p : Packet) : Prop where
  service_ne : p.service ≠ []
  method_ne : p.method ≠ []
  colon : 58 ∉ p.service
  fits : 12 + p.name.length + 1 + p.message.length ≤ 64 * 1024 * 1024

/-- What the other end is told. The method keeps the zero that ends the name. -/
def delivery (p : Packet) : Delivery where
  isresponse := p.id.msb
  id := p.id &&& 0x7fffffffffffffff
  servicename := p.service
  methodname := p.method ++ [0]
  data := p.message
  datalen := p.message.length

/-- What the decoder asks of a packet: one of the two names may be empty. -/
structure Sendable (p : Packet) : Prop where
  name_pos : 2 ≤ p.name.length
  colon : 58 ∉ p.service
  fits : 12 + p.name.length + 1 + p.message.length ≤ 64 * 1024 * 1024

theorem Sendable.bodyLen_le {p : Packet} (h : p.Sendable) : bodyLen p.frame ≤ kMaxMessageLen :=
  h.fits

theorem Sendable.le_bodyLen {p : Packet} (h : p.Sendable) : kMinMessageLen ≤ bodyLen p.frame := by
  have := h.name_pos
  simp only [kMinMessageLen, kIdLen, kHeaderLen, bodyLen, Packet.frame]
  omega

theorem Sendable.name_lt {p : Packet} (h : p.Sendable) : p.name.length + 1 < 2 ^ 31 := by
  have := h.fits
  omega

theorem WellFormed.sendable {p : Packet} (h : p.WellFormed) : p.Sendable where
  name_pos := by
    have := List.length_pos_of_ne_nil h.service_ne
    simp [name]
    omega
  colon := h.colon
  fits := h.fits

theorem WellFormed.name_pos {p : Packet} (h : p.WellFormed) : 2 ≤ p.name.length :=
  h.sendable.name_pos

theorem WellFormed.bodyLen_le {p : Packet} (h : p.WellFormed) : bodyLen p.frame ≤ kMaxMessageLen :=
  h.sendable.bodyLen_le

theorem WellFormed.name_lt {p : Packet} (h : p.WellFormed) : p.name.length + 1 < 2 ^ 31 :=
  h.sendable.name_lt

end Packet

/-- The fields behind the length field read back. -/
theorem layout_fields (f : Frame) (hn : f.name.length + 1 < 2 ^ 31) (tail : Bytes) :
    asUInt64 ((layout f ++ tail).drop kHeaderLen) = f.id ∧
    nameLenField (layout f ++ tail) = (f.name.length + 1 : Nat) ∧
    ((layout f ++ tail).drop kHeaderLen).drop (kHeaderLen + kIdLen) =
      (f.name ++ [0]) ++ (f.message ++ tail) := by
  let len := BigEndian.toBytes 4 (bodyLen f)
  let id := BigEndian.toBytes 8 f.id.toNat
  let nameLen := BigEndian.toBytes 4 (f.name.length + 1)
  have hdrop : (layout f ++ tail).drop kHeaderLen =
      id ++ (nameLen ++ ((f.name ++ [0]) ++ (f.message ++ tail))) := by
    have : layout f ++ tail =
        len ++ (id ++ (nameLen ++ ((f.name ++ [0]) ++ (f.message ++ tail)))) := by
      simp [layout, len, id, nameLen]
    rw [this, List.drop_left' (by simp [len, kHeaderLen])]
  refine ⟨?_, ?_, ?_⟩
  · rw [hdrop, asUInt64, List.take_left' (by simp [id])]
    exact BigEndian.ofNat_ofBytes_toBytes 8 f.id
  · rw [nameLenField, hdrop, List.drop_left' (by simp [id, kIdLen]), asInt32,
      List.take_left' (by simp [nameLen]), BigEndian.ofBytes_toBytes, Nat.mod_eq_of_lt (by omega),
      toInt_ofNat_of_lt _ hn]
  · rw [hdrop, ← List.append_assoc id, List.drop_left' (by simp [id, nameLen, kHeaderLen, kIdLen])]

theorem len_layout (f : Frame) (hf : bodyLen f < 2 ^ 31) (w : Bytes)
    (hw : w.take 4 = (layout f).take 4) : len w = bodyLen f := by
  have ht : (layout f).take 4 = BigEndian.toBytes 4 (bodyLen f) := by simp [layout]
  rw [len, asInt32, hw, ht, BigEndian.ofBytes_toBytes, Nat.mod_eq_of_lt (by omega),
    toInt_ofNat_of_lt _ hf]

/-- `decode` undoes `layout`, whatever follows the frame. -/
theorem decode_layout (p : Packet) (hp : p.Sendable) (tail : Bytes) :
    decode (layout p.frame ++ tail) (bodyLen p.frame) = .ok (some p.delivery) := by
  obtain ⟨hid, hname, hrest⟩ := layout_fields p.frame hp.name_lt tail
  simp only [Packet.frame_id, Packet.frame_name, Packet.frame_message] at hid hname hrest
  have hpos := hp.name_pos
  have hcheck : (3 : Int) ≤ (p.name.length + 1 : Nat) ∧
      ((p.name.length + 1 : Nat) : Int) ≤ bodyLen p.frame - 2 * kHeaderLen := by
    simp only [bodyLen, kHeaderLen, Packet.frame]
    omega
  have hslice : slice ((p.name ++ [0]) ++ (p.message ++ tail)) (p.name.length + 1) =
      .ok (p.name ++ [0]) := by
    rw [slice, if_pos (by simp), List.take_left' (by simp)]
  have hcut : Cut.cut [58] (p.name ++ [0]) = some (p.service, p.method ++ [0]) := by
    rw [Packet.name, List.append_assoc, List.cons_append]
    exact Cut.cut_singleton hp.colon
  have hdatalen : (bodyLen p.frame : Int) - (p.name.length + 1 : Nat) - kHeaderLen - kIdLen =
      p.message.length := by
    simp only [bodyLen, kHeaderLen, kIdLen, Packet.frame]
    omega
  have hdata : (((layout p.frame ++ tail).drop kHeaderLen).drop
      (kHeaderLen + kIdLen + (p.name.length + 1))).take p.message.length = p.message := by
    rw [← List.drop_drop, hrest, List.drop_left' (by simp), List.take_left' rfl]
  simp only [decode, hid, hname, hrest, hcheck, and_self, ↓reduceIte, hslice, Int.toNat_natCast,
    ok_bind, hcut, Option.map_some, pure_eq_ok, hdatalen, hdata, Packet.delivery]

/-- The length field of a frame that has begun to arrive. -/
theorem len_peek {buf : Buffer} {p : Packet} (hp : p.Sendable) (h : 4 ≤ buf.readableBytes)
    (hstart : buf.readable.take 4 = (layout p.frame).take 4) :
    len buf.peek = bodyLen p.frame := by
  have hmax := hp.bodyLen_le
  simp only [kMaxMessageLen] at hmax
  apply len_layout p.frame (by omega)
  rw [buf.peek_take 4 h, hstart]

/-- `onMessage` decodes what `fillEmptyBuffer` encodes. -/
theorem decodes_sendable : Decodes turn Buffer.readable Packet.bytes
    (fun p => Event.message p.delivery) Packet.Sendable where
  nonempty p _ := by
    intro h
    have hlen := layout_length p.frame
    rw [show layout p.frame = [] from h, List.length_nil] at hlen
    omega
  whole buf p rest hp hv := by
    rw [Packet.bytes] at hv
    have hsize : buf.readableBytes = 4 + bodyLen p.frame + rest.length := by
      rw [← buf.readable_length, hv, List.length_append, layout_length]
    have hl : len buf.peek = bodyLen p.frame := by
      apply len_peek hp (by omega)
      rw [hv, List.take_append_of_le_length (by rw [layout_length]; omega)]
    have hc : Complete buf.peek buf.readableBytes := by
      constructor <;> rw [hl]
      · exact_mod_cast hp.le_bodyLen
      · exact_mod_cast hp.bodyLen_le
      · simp only [kHeaderLen]
        omega
    obtain ⟨buf', _, hr, ht⟩ := turn_complete buf hc
    obtain ⟨back, hpeek⟩ := buf.peek_eq
    have hd := decode_layout p hp (rest ++ back)
    rw [← List.append_assoc, ← hv, ← hpeek, ← hl] at hd
    refine ⟨buf', by rw [ht, hd], ?_⟩
    rw [hr, hl, hv, List.drop_left' (by rw [layout_length, kHeaderLen]; omega)]
  part buf p hp hpre := by
    rw [Packet.bytes] at hpre
    have hlt := hpre.length_lt
    rw [layout_length, buf.readable_length] at hlt
    by_cases h : 4 ≤ buf.readableBytes
    · obtain ⟨t, ht⟩ := hpre.1
      have hl : len buf.peek = bodyLen p.frame := by
        apply len_peek hp h
        rw [← ht, List.take_append_of_le_length (by rw [buf.readable_length]; exact h)]
      apply turn_wait buf <;> rw [hl]
      · exact_mod_cast hp.le_bodyLen
      · exact_mod_cast hp.bodyLen_le
      · simp only [kHeaderLen]
        omega
    · exact turn_short buf (by omega)

theorem decodes : Decodes turn Buffer.readable Packet.bytes (fun p => Event.message p.delivery)
    Packet.WellFormed :=
  decodes_sendable.mono fun _ h => h.sendable

/-- The length field of a frame above the limit reads as too long, as negative, or
wraps to almost nothing. -/
theorem len_layout_oversize (f : Frame) (hn : f.name.length + 1 < 2 ^ 31)
    (hm : f.message.length < 2 ^ 31) (hbig : kMaxMessageLen < bodyLen f) (w : Bytes)
    (hw : w.take 4 = (layout f).take 4) : len w > kMaxMessageLen ∨ len w < kMinMessageLen := by
  have ht : (layout f).take 4 = BigEndian.toBytes 4 (bodyLen f) := by simp [layout]
  have hle : bodyLen f ≤ 2 ^ 32 + 10 := by
    simp only [bodyLen]
    omega
  rw [len, asInt32, hw, ht, BigEndian.ofBytes_toBytes, BitVec.toInt_eq_toNat_bmod,
    BitVec.toNat_ofNat]
  simp only [kMaxMessageLen, kMinMessageLen, kIdLen, kHeaderLen] at hbig ⊢
  rw [Int.bmod_def]
  omega

/-- A frame above the limit is never consumed. -/
theorem oversize_blocks (p : Packet) (hn : p.name.length + 1 < 2 ^ 31)
    (hm : p.message.length < 2 ^ 31) (hbig : kMaxMessageLen < bodyLen p.frame) :
    Blocks turn Buffer.readable Packet.bytes p := by
  intro buf hv
  rw [Packet.bytes] at hv
  by_cases h : 19 ≤ buf.readableBytes
  · refine ⟨_, turn_invalidLength buf h (len_layout_oversize p.frame hn hm hbig _ ?_)⟩
    have hlen := layout_length p.frame
    rw [buf.peek_take 4 (by omega)]
    rcases hv with ⟨t, ht⟩ | ⟨t, ht⟩
    · rw [← ht, List.take_append_of_le_length (by rw [buf.readable_length]; omega)]
    · rw [← ht, List.take_append_of_le_length (by omega)]
  · exact ⟨_, turn_short buf (by omega)⟩

/-- **RPC framing is exact under any segmentation.** Any list of packets, encoded,
cut into chunks anywhere and followed by any strict prefix of one more frame, is
delivered once each and in order; the error callback is never called, and the
incomplete frame stays in the buffer. -/
theorem onMessage_packets_exact (ps : List Packet) (more : Packet) (r : Bytes) (cs : List Bytes)
    (buf : Buffer) (hps : ∀ p ∈ ps, p.WellFormed) (hmore : more.WellFormed)
    (hr : StrictPrefix r (encode more.frame))
    (hcs : cs.flatten = (ps.map fun p => encode p.frame).flatten ++ r)
    (hbuf : buf.readable = []) :
    (∀ p ∈ more :: ps, ∃ b, fillEmptyBuffer (Buffer.ofSize kInitialSize) p.frame = .ok b ∧
      b.readable = encode p.frame) ∧
    ∃ buf', feed onMessage Buffer.append buf cs =
        .done (ps.map fun p => Event.message p.delivery) buf' ∧
      buf'.readable = r := by
  have hall : ∀ p ∈ more :: ps, p.WellFormed := List.forall_mem_cons.mpr ⟨hmore, hps⟩
  have henc : (ps.map fun p => encode p.frame) = ps.map Packet.bytes :=
    List.map_congr_left fun p hp => encode_eq_layout p.frame (hps p hp).name_lt
  rw [encode_eq_layout more.frame hmore.name_lt] at hr
  rw [henc] at hcs
  constructor
  · intro p hp
    have hn := (hall p hp).name_lt
    rw [encode_eq_layout p.frame hn]
    exact fillEmptyBuffer_ok p.frame hn _ (Buffer.readable_ofSize _) (Buffer.reserved_ofSize _)
  · exact feed_exact decodes Buffer.append_readable cs ps more r hps hmore hr hcs buf hbuf

/-- A response named `a:b` with an empty message, cut in the middle of its id. -/
theorem onMessage_packets_exact_cut_in_id :
    ∃ buf', feed onMessage Buffer.append (Buffer.ofSize 0)
        [[0, 0, 0, 16, 128, 0, 0], [0, 0, 0, 0, 5, 0, 0, 0, 4, 97, 58, 98, 0, 0, 0, 0]] =
          .done [.message ⟨true, 5, [97], [98, 0], [], 0⟩] buf' ∧ buf'.readable = [0, 0, 0] :=
  have wf : Packet.WellFormed ⟨0x8000000000000005, [97], [98], []⟩ :=
    ⟨by decide, by decide, by decide, by decide⟩
  (onMessage_packets_exact [⟨0x8000000000000005, [97], [98], []⟩]
    ⟨0x8000000000000005, [97], [98], []⟩ [0, 0, 0] _ (Buffer.ofSize 0)
    (List.forall_mem_singleton.mpr wf) wf
    (by rw [encode_eq_layout _ wf.name_lt]; decide)
    (by rw [List.map_singleton, encode_eq_layout _ wf.name_lt]; decide)
    (Buffer.readable_ofSize 0)).2

end Cppim.Rpc.Codec
