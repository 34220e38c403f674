import Cppim.Common.Buffer
import Cppim.Lib.Framing

/-! `gateserver/ClientCodec.h`: the frames between a client and the gate.

    package length int32 | header length int16 | version int16 | op int32 | id int32 | body

The package length counts itself. `onMessage_exact` is the round trip of
`fillEmptyBuffer` and `onMessage` under any segmentation; `onMessage_safe_iff`
says on which buffers the decoder keeps to its preconditions. -/

namespace Cppim.Gate.ClientCodec

open Cppim.Common Cppim.Lib Cppim.Lib.Loop Cppim.Lib.Framing

def kHeaderLen : Nat := 4

/-- The arguments of `messageCallback_`. -/
structure Message where
  op : BitVec 32
  id : BitVec 32
  body : Bytes
  deriving Repr, DecidableEq

/-- What `onMessage` does to the outside: `messageCallback_` or `conn->close()`. -/
inductive Event where
  | message (m : Message)
  | close
  deriving Repr, DecidableEq

def fillEmptyBuffer (buf : Buffer) (m : Message) : Except Fault Buffer := do
  let buf ← buf.appendInt16 16
  let buf ← buf.appendInt16 1
  let buf ← buf.appendInt32 m.op
  let buf ← buf.appendInt32 m.id
  let buf ← buf.append m.body
  let len : BitVec 32 := BitVec.ofNat 32 buf.readableBytes + 4
  buf.prepend (BigEndian.toBytes 4 len.toNat)

/-- `const size_t len = buf->peekInt32()`: the sign is extended. -/
def lengthField (x : BitVec 32) : BitVec 64 := x.signExtend 64

/-- One turn of the `while` loop of `onMessage`. -/
def turn (buf : Buffer) : Turn Buffer Event Fault := Turn.ofExcept do
  if kHeaderLen ≤ buf.readableBytes then
    let len := lengthField (← buf.peekInt32)
    if 65536 < len.toNat then
      return .leave [.close] buf
    else if len.toNat ≤ buf.readableBytes then
      let buf ← buf.retrieve (kHeaderLen + 4)
      let op ← buf.peekInt32
      let buf ← buf.retrieve 4
      let id ← buf.peekInt32
      let buf ← buf.retrieve 4
      let body ← makeString buf.peek (len - 16).toNat
      let buf ← buf.retrieve (len - 16).toNat
      return .again [.message ⟨op, id, body⟩] buf
    else
      return .leave [] buf
  else
    return .leave [] buf

def onMessage : Buffer → Outcome Buffer Event Fault := drain turn Buffer.readable

/-- The bytes `send` hands to the session for one message. -/
def encode (m : Message) : Bytes :=
  match fillEmptyBuffer (Buffer.ofSize kInitialSize) m with
  | .ok buf => buf.readable
  | .error _ => []

/-! ## The encoder -/

/-- The frame of a message, field by field. -/
def frame (m : Message) : Bytes :=
  BigEndian.toBytes 4 (16 + m.body.length) ++ BigEndian.toBytes 2 16 ++ BigEndian.toBytes 2 1 ++
    BigEndian.toBytes 4 m.op.toNat ++ BigEndian.toBytes 4 m.id.toNat ++ m.body

theorem frame_length (m : Message) : (frame m).length = 16 + m.body.length := by
  simp [frame]
  omega

theorem fillEmptyBuffer_ok (m : Message) (hm : m.body.length ≤ 65520) (buf : Buffer)
    (hbuf : buf.readable = []) (hres : buf.Reserved) :
    ∃ b, fillEmptyBuffer buf m = .ok b ∧ b.readable = frame m := by
  obtain ⟨b₁, h₁, r₁, s₁⟩ := Buffer.appendInt_ok 2 buf 16
  obtain ⟨b₂, h₂, r₂, s₂⟩ := Buffer.appendInt_ok 2 b₁ 1
  obtain ⟨b₃, h₃, r₃, s₃⟩ := Buffer.appendInt_ok 4 b₂ m.op
  obtain ⟨b₄, h₄, r₄, s₄⟩ := Buffer.appendInt_ok 4 b₃ m.id
  obtain ⟨b₅, h₅, r₅, s₅⟩ := b₄.append_ok m.body
  have hread : b₅.readable = BigEndian.toBytes 2 16 ++ BigEndian.toBytes 2 1 ++
      BigEndian.toBytes 4 m.op.toNat ++ BigEndian.toBytes 4 m.id.toNat ++ m.body := by
    rw [r₅, r₄, r₃, r₂, r₁, hbuf]
    rfl
  have hlen : b₅.readableBytes = 12 + m.body.length := by
    rw [← b₅.readable_length, hread]
    simp
    omega
  have hval : (BitVec.ofNat 32 b₅.readableBytes + 4).toNat = 16 + m.body.length := by
    simp [hlen]
    omega
  obtain ⟨b₆, h₆, r₆⟩ := b₅.prepend_reserved (s₅ (s₄ (s₃ (s₂ (s₁ hres)))))
    (BitVec.ofNat 32 b₅.readableBytes + 4).toNat
  refine ⟨b₆, ?_, ?_⟩
  · simp only [fillEmptyBuffer, Buffer.appendInt16, Buffer.appendInt32, h₁, h₂, h₃, h₄, h₅,
      ok_bind]
    exact h₆
  · rw [r₆, hread, hval, frame]
    simp only [List.append_assoc]

theorem encode_eq_frame (m : Message) (hm : m.body.length ≤ 65520) : encode m = frame m := by
  have hok := fillEmptyBuffer_ok m hm (Buffer.ofSize kInitialSize) (Buffer.readable_ofSize _)
    (Buffer.reserved_ofSize _)
  unfold encode
  generalize Buffer.ofSize kInitialSize = buf at hok ⊢
  obtain ⟨b, hb, hr⟩ := hok
  simp only [hb, hr]

/-! ## One turn of the decoder -/

/-- The length field at the front of the unread bytes, as the `size_t` it becomes. -/
def len (w : Bytes) : BitVec 64 := lengthField (BitVec.ofNat 32 (BigEndian.ofBytes (w.take 4)))

theorem turn_short (buf : Buffer) (h : buf.readableBytes < 4) : turn buf = .leave [] buf := by
  simp [turn, kHeaderLen, Nat.not_le.mpr h, Turn.ofExcept]

theorem turn_close (buf : Buffer) (h : 4 ≤ buf.readableBytes)
    (hlen : 65536 < (len buf.readable).toNat) : turn buf = .leave [.close] buf := by
  simp only [len] at hlen
  simp [turn, kHeaderLen, h, buf.peekInt32_ok h, hlen, Turn.ofExcept]

theorem turn_wait (buf : Buffer) (h : 4 ≤ buf.readableBytes)
    (hlen : (len buf.readable).toNat ≤ 65536) (hw : buf.readableBytes < (len buf.readable).toNat) :
    turn buf = .leave [] buf := by
  simp only [len] at hlen hw
  simp [turn, kHeaderLen, h, buf.peekInt32_ok h, Nat.not_lt.mpr hlen, Nat.not_le.mpr hw,
    Turn.ofExcept]

/-- A whole frame is handed over and exactly its bytes are consumed. -/
theorem turn_whole (buf : Buffer) (h16 : 16 ≤ (len buf.readable).toNat)
    (hlen : (len buf.readable).toNat ≤ 65536)
    (hw : (len buf.readable).toNat ≤ buf.readableBytes) :
    ∃ buf', turn buf = .again [.message
        ⟨BitVec.ofNat 32 (BigEndian.ofBytes ((buf.readable.drop 8).take 4)),
          BitVec.ofNat 32 (BigEndian.ofBytes ((buf.readable.drop 12).take 4)),
          (buf.readable.drop 16).take ((len buf.readable).toNat - 16)⟩] buf' ∧
      buf'.readable = buf.readable.drop (len buf.readable).toNat := by
  have hsub : (len buf.readable - 16).toNat = (len buf.readable).toNat - 16 :=
    BitVec.toNat_sub_of_le (by simpa [BitVec.le_def] using h16)
  obtain ⟨b₁, h₁, r₁⟩ := buf.retrieve_ok 8 (by omega)
  have l₁ := Buffer.retrieve_readableBytes (by omega) r₁
  obtain ⟨b₂, h₂, r₂⟩ := b₁.retrieve_ok 4 (by omega)
  have l₂ := Buffer.retrieve_readableBytes (by omega) r₂
  obtain ⟨b₃, h₃, r₃⟩ := b₂.retrieve_ok 4 (by omega)
  have l₃ := Buffer.retrieve_readableBytes (by omega) r₃
  have hbody : (len buf.readable - 16).toNat ≤ b₃.readableBytes := by omega
  have hread : b₃.readable = buf.readable.drop 16 := by simp [r₃, r₂, r₁]
  obtain ⟨b₄, h₄, r₄⟩ := b₃.retrieve_ok _ hbody
  have hstr : makeString b₃.peek (len buf.readable - 16).toNat =
      .ok ((buf.readable.drop 16).take ((len buf.readable).toNat - 16)) := by
    rw [makeString, if_pos (by omega), b₃.peek_take _ hbody, hread, hsub]
  refine ⟨b₄, ?_, ?_⟩
  · have hpos : 4 ≤ buf.readableBytes := by omega
    have hop := b₁.peekInt32_ok (by omega)
    have hid := b₂.peekInt32_ok (by omega)
    rw [r₁] at hop
    rw [r₂, r₁, List.drop_drop] at hid
    simp only [len] at hlen hw h₄ hstr
    simp only [turn, kHeaderLen, hpos, ↓reduceIte, buf.peekInt32_ok hpos, ok_bind,
      Nat.not_lt.mpr hlen, hw, h₁, hop, h₂, hid, h₃, hstr, h₄, pure_eq_ok, Turn.ofExcept, len]
  · rw [r₄, hread, List.drop_drop, hsub]
    congr 1
    omega

/-- A complete frame whose length field is below the header size breaks a
precondition: an `assert` on the header fields, or the wrapped body length. -/
theorem turn_fault (buf : Buffer) (h : 4 ≤ buf.readableBytes) (h16 : (len buf.readable).toNat < 16)
    (hw : (len buf.readable).toNat ≤ buf.readableBytes) : ∃ e, turn buf = .fault e := by
  have hlen : ¬ 65536 < (len buf.readable).toNat := by omega
  have hwrap : ¬ (len buf.readable - 16).toNat < 2 ^ 63 := by
    have h0 : (16 : BitVec 64).toNat = 16 := rfl
    rw [BitVec.toNat_sub, h0]
    omega
  simp only [len] at hlen hw hwrap
  simp only [turn, kHeaderLen, h, ↓reduceIte, buf.peekInt32_ok h, ok_bind, hlen, hw]
  by_cases h8 : 8 ≤ buf.readableBytes
  · obtain ⟨b₁, h₁, r₁⟩ := buf.retrieve_ok 8 h8
    have l₁ := Buffer.retrieve_readableBytes h8 r₁
    simp only [h₁, ok_bind]
    by_cases hop : 4 ≤ b₁.readableBytes
    · obtain ⟨b₂, h₂, r₂⟩ := b₁.retrieve_ok 4 hop
      have l₂ := Buffer.retrieve_readableBytes hop r₂
      simp only [b₁.peekInt32_ok hop, h₂, ok_bind]
      by_cases hid : 4 ≤ b₂.readableBytes
      · obtain ⟨b₃, h₃, _⟩ := b₂.retrieve_ok 4 hid
        exact ⟨.lengthError, by
          simp only [b₂.peekInt32_ok hid, h₃, ok_bind, makeString, hwrap, ↓reduceIte,
            error_bind, Turn.ofExcept]⟩
      · exact ⟨.assertion, by
          simp only [Buffer.peekInt32, Buffer.peekInt_error 4 b₂ hid, error_bind, Turn.ofExcept]⟩
    · exact ⟨.assertion, by
        simp only [Buffer.peekInt32, Buffer.peekInt_error 4 b₁ hop, error_bind, Turn.ofExcept]⟩
  · exact ⟨.assertion, by
      simp only [buf.retrieve_error 8 h8, error_bind, Turn.ofExcept]⟩

/-! ## Framing -/

theorem len_frame (m : Message) (hm : m.body.length ≤ 65520) (w : Bytes)
    (hw : w.take 4 = (frame m).take 4) : (len w).toNat = 16 + m.body.length := by
  have ht : (frame m).take 4 = BigEndian.toBytes 4 (16 + m.body.length) := by
    simp [frame]
  rw [len, hw, ht, BigEndian.ofBytes_toBytes, Nat.mod_eq_of_lt (by omega),
    lengthField, signExtend_ofNat_of_lt _ (by omega)]

/-- The four fields of a frame read back. -/
theorem frame_fields (m : Message) (rest : Bytes) :
    BitVec.ofNat 32 (BigEndian.ofBytes (((frame m ++ rest).drop 8).take 4)) = m.op ∧
    BitVec.ofNat 32 (BigEndian.ofBytes (((frame m ++ rest).drop 12).take 4)) = m.id ∧
    ((frame m ++ rest).drop 16).take m.body.length = m.body ∧
    (frame m ++ rest).drop (16 + m.body.length) = rest := by
  let header := BigEndian.toBytes 4 (16 + m.body.length) ++ BigEndian.toBytes 2 16 ++
    BigEndian.toBytes 2 1
  let op := BigEndian.toBytes 4 m.op.toNat
  let id := BigEndian.toBytes 4 m.id.toNat
  have hop : frame m ++ rest = header ++ (op ++ (id ++ (m.body ++ rest))) := by
    simp [frame, header, op, id]
  have hid : frame m ++ rest = (header ++ op) ++ (id ++ (m.body ++ rest)) := by
    simp [frame, header, op, id]
  have hbody : frame m ++ rest = (header ++ op ++ id) ++ (m.body ++ rest) := by
    simp [frame, header, op, id]
  refine ⟨?_, ?_, ?_, List.drop_left' (frame_length m)⟩
  · rw [hop, List.drop_left' (by simp [header]), List.take_left' (by simp [op])]
    exact BigEndian.ofNat_ofBytes_toBytes 4 m.op
  · rw [hid, List.drop_left' (by simp [header, op]), List.take_left' (by simp [id])]
    exact BigEndian.ofNat_ofBytes_toBytes 4 m.id
  · rw [hbody, List.drop_left' (by simp [header, op, id]), List.take_left' rfl]

/-- `onMessage` decodes what `fillEmptyBuffer` encodes. -/
theorem decodes : Decodes turn Buffer.readable frame Event.message
    (fun m => m.body.length ≤ 65520) where
  nonempty m _ := by
    intro h
    have hlen := frame_length m
    rw [h, List.length_nil] at hlen
    omega
  whole buf m rest hm hv := by
    have hl : (len buf.readable).toNat = 16 + m.body.length := by
      refine len_frame m hm _ ?_
      rw [hv, List.take_append_of_le_length (by rw [frame_length]; omega)]
    have hsize : buf.readableBytes = 16 + m.body.length + rest.length := by
      rw [← buf.readable_length, hv, List.length_append, frame_length]
    obtain ⟨hop, hid, hbody, hrest⟩ := frame_fields m rest
    obtain ⟨buf', ht, hr⟩ := turn_whole buf (by omega) (by omega) (by omega)
    refine ⟨buf', ?_, ?_⟩
    · rw [ht, hl, hv, hop, hid, Nat.add_sub_cancel_left, hbody]
    · rw [hr, hl, hv, hrest]
  part buf m hm hp := by
    have hlt := hp.length_lt
    rw [frame_length, buf.readable_length] at hlt
    by_cases h : 4 ≤ buf.readableBytes
    · obtain ⟨t, ht⟩ := hp.1
      have hl : (len buf.readable).toNat = 16 + m.body.length := by
        refine len_frame m hm _ ?_
        rw [← ht, List.take_append_of_le_length (by rw [buf.readable_length]; exact h)]
      exact turn_wait buf h (by omega) (by omega)
    · exact turn_short buf (by omega)

/-- **Gate framing is exact under any segmentation.** Any list of messages the
encoder accepts, cut into chunks anywhere and followed by any strict prefix of
one more frame, comes out once each and in order; nothing else happens, and the
incomplete frame stays in the buffer. -/
theorem onMessage_exact (ms : List Message) (more : Message) (p : Bytes) (cs : List Bytes)
    (buf : Buffer) (hms : ∀ m ∈ ms, m.body.length ≤ 65520) (hmore : more.body.length ≤ 65520)
    (hp : StrictPrefix p (encode more)) (hcs : cs.flatten = (ms.map encode).flatten ++ p)
    (hbuf : buf.readable = []) :
    (∀ m ∈ more :: ms, ∃ b, fillEmptyBuffer (Buffer.ofSize kInitialSize) m = .ok b ∧
      b.readable = encode m) ∧
    ∃ buf', feed onMessage Buffer.append buf cs = .done (ms.map Event.message) buf' ∧
      buf'.readable = p := by
  have hall : ∀ m ∈ more :: ms, m.body.length ≤ 65520 := List.forall_mem_cons.mpr ⟨hmore, hms⟩
  have henc : ms.map encode = ms.map frame :=
    List.map_congr_left fun m hm => encode_eq_frame m (hms m hm)
  rw [encode_eq_frame more hmore] at hp
  rw [henc] at hcs
  constructor
  · intro m hm
    rw [encode_eq_frame m (hall m hm)]
    exact fillEmptyBuffer_ok m (hall m hm) _ (Buffer.readable_ofSize _) (Buffer.reserved_ofSize _)
  · exact feed_exact decodes Buffer.append_readable cs ms more p hms hmore hp hcs buf hbuf

/-- A cut inside the length field of an auth message, and two bytes of the next
frame. -/
theorem onMessage_exact_cut_in_header :
    ∃ buf', feed onMessage Buffer.append (Buffer.ofSize 0)
        [[0, 0, 0], [18, 0, 16, 0, 1, 0, 0, 0, 7, 0, 0, 0, 1, 104], [105, 0, 0]] =
          .done [.message ⟨7, 1, [104, 105]⟩] buf' ∧ buf'.readable = [0, 0] :=
  (onMessage_exact [⟨7, 1, [104, 105]⟩] ⟨2, 0, []⟩ [0, 0] _ (Buffer.ofSize 0) (by decide)
    (by decide) (by rw [encode_eq_frame _ (by decide)]; decide)
    (by
      rw [List.map_singleton, encode_eq_frame _ (by decide)]
      decide)
    (Buffer.readable_ofSize 0)).2

/-! ## Arbitrary bytes -/

/-- The decoder reaches a frame that is complete in the buffer and whose length
field is below the size of a header. -/
inductive ReachesShort : Bytes → Prop
  | here {w : Bytes} : 4 ≤ w.length → (len w).toNat < 16 → (len w).toNat ≤ w.length →
      ReachesShort w
  | skip {w : Bytes} : 16 ≤ (len w).toNat → (len w).toNat ≤ 65536 → (len w).toNat ≤ w.length →
      ReachesShort (w.drop (len w).toNat) → ReachesShort w

/-- What the decoder owes to arbitrary bytes: it returns, so that no `assert`
failed and no length wrapped, and every frame it consumed was exactly as long
as its length field, which covers the header. -/
structure Safe (buf : Buffer) : Prop where
  returns : ∃ out buf', onMessage buf = .done out buf'
  exact : ∀ b, Reached turn buf b → ∀ out b', turn b = .again out b' →
    16 ≤ (len b.readable).toNat ∧ (len b.readable).toNat ≤ b.readableBytes ∧
      b'.readable = b.readable.drop (len b.readable).toNat

/-- Everything one turn can do. -/
theorem turn_cases (buf : Buffer) :
    (∃ out, turn buf = .leave out buf) ∨
    (16 ≤ (len buf.readable).toNat ∧ (len buf.readable).toNat ≤ 65536 ∧
      (len buf.readable).toNat ≤ buf.readableBytes ∧ ∃ m b', turn buf = .again [.message m] b' ∧
        b'.readable = buf.readable.drop (len buf.readable).toNat) ∨
    (4 ≤ buf.readableBytes ∧ (len buf.readable).toNat < 16 ∧
      (len buf.readable).toNat ≤ buf.readableBytes ∧ ∃ e, turn buf = .fault e) := by
  by_cases h4 : 4 ≤ buf.readableBytes
  · by_cases hmax : (len buf.readable).toNat ≤ 65536
    · by_cases hw : (len buf.readable).toNat ≤ buf.readableBytes
      · by_cases h16 : 16 ≤ (len buf.readable).toNat
        · obtain ⟨b', ht, hr⟩ := turn_whole buf h16 hmax hw
          exact Or.inr (Or.inl ⟨h16, hmax, hw, _, b', ht, hr⟩)
        · exact Or.inr (Or.inr ⟨h4, by omega, hw, turn_fault buf h4 (by omega) hw⟩)
      · exact Or.inl ⟨[], turn_wait buf h4 hmax (by omega)⟩
    · exact Or.inl ⟨[.close], turn_close buf h4 (by omega)⟩
  · exact Or.inl ⟨[], turn_short buf (by omega)⟩

theorem turn_again {buf b' : Buffer} {out : List Event} (h : turn buf = .again out b') :
    16 ≤ (len buf.readable).toNat ∧ (len buf.readable).toNat ≤ 65536 ∧
      (len buf.readable).toNat ≤ buf.readableBytes ∧
      b'.readable = buf.readable.drop (len buf.readable).toNat := by
  rcases turn_cases buf with ⟨o, ht⟩ | ⟨h16, hmax, hw, m, b, ht, hr⟩ | ⟨_, _, _, e, ht⟩
  · simp [ht] at h
  · rw [ht] at h
    cases h
    exact ⟨h16, hmax, hw, hr⟩
  · simp [ht] at h

theorem turn_measure (s : Buffer) (o : List Event) (s' : Buffer) (h : turn s = .again o s') :
    s'.readable.length < s.readable.length := by
  obtain ⟨h16, _, hw, hr⟩ := turn_again h
  rw [hr, List.length_drop, s.readable_length]
  omega

/-- A short frame is reached exactly when some turn of the loop faults. -/
theorem reachesShort_iff (buf : Buffer) :
    ReachesShort buf.readable ↔ ∃ b, Reached turn buf b ∧ ∃ e, turn b = .fault e := by
  constructor
  · intro h
    generalize hw : buf.readable = w at h
    induction h generalizing buf with
    | @here w h4 h16 hle =>
      subst hw
      rw [buf.readable_length] at h4 hle
      exact ⟨buf, .start, turn_fault buf h4 h16 hle⟩
    | @skip w h16 hmax hle _ ih =>
      subst hw
      rw [buf.readable_length] at hle
      obtain ⟨b', ht, hr⟩ := turn_whole buf h16 hmax hle
      obtain ⟨b, hb, hf⟩ := ih b' hr
      exact ⟨b, hb.head ht, hf⟩
  · rintro ⟨b, hb, e, he⟩
    -- back from the faulting turn to the first one, one consumed frame at a time
    refine hb.backward (P := fun b => ReachesShort b.readable) (fun s o s' h hs => ?_) ?_
    · obtain ⟨h16, hmax, hle, hr⟩ := turn_again h
      rw [← s.readable_length] at hle
      exact .skip h16 hmax hle (hr ▸ hs)
    · rcases turn_cases b with ⟨o, ht⟩ | ⟨_, _, _, m, b', ht, _⟩ | ⟨h4, h16, hle, _⟩
      · simp [ht] at he
      · simp [ht] at he
      · rw [← b.readable_length] at h4 hle
        exact .here h4 h16 hle

theorem returns_iff (buf : Buffer) :
    (∃ out buf', onMessage buf = .done out buf') ↔ ¬ ReachesShort buf.readable := by
  have hdone := run_done_iff turn (fun b => b.readable.length) turn_measure
    (buf.readable.length + 1) buf (by omega)
  rw [reachesShort_iff]
  constructor
  · rintro hret ⟨b, hb, e, he⟩
    exact hdone.mp hret b hb e he
  · intro h
    exact hdone.mpr fun b hb e he => h ⟨b, hb, e, he⟩

/-- **The gate decoder on arbitrary bytes.** It keeps to its preconditions
exactly on the buffers in which it reaches no complete frame with a length field
below 16. -/
theorem onMessage_safe_iff (buf : Buffer) : Safe buf ↔ ¬ ReachesShort buf.readable := by
  constructor
  · exact fun h => (returns_iff buf).mp h.returns
  · intro h
    refine ⟨(returns_iff buf).mpr h, fun b _ out b' ht => ?_⟩
    obtain ⟨h16, _, hle, hr⟩ := turn_again ht
    exact ⟨h16, hle, hr⟩

/-- Four zero bytes in a session's read buffer are a complete frame of length 0. -/
theorem onMessage_unsafe_on_zero_length :
    ∃ buf, (Buffer.ofSize kInitialSize).append [0, 0, 0, 0] = .ok buf ∧ ¬ Safe buf := by
  obtain ⟨buf, hb, hr, _⟩ := (Buffer.ofSize kInitialSize).append_ok [0, 0, 0, 0]
  rw [Buffer.readable_ofSize, List.nil_append] at hr
  refine ⟨buf, hb, fun h => (returns_iff buf).mp h.returns ?_⟩
  rw [hr]
  exact .here (by decide) (by decide) (by decide)

end Cppim.Gate.ClientCodec
