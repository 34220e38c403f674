import Cppim.Lib.Delimited
import Cppim.Rpc.Bounds

/-! `RpcCodec::onMessage` on any byte stream in any chunks.

The length fields alone cut a stream into frames (`delimiter`). Two things besides the
stream decide what is delivered. A frame with a bad name is consumed and ends the call, so
the frames behind it wait for the next chunk. A name whose length field is in the band of
one to four bytes past its frame is read from whatever the memory holds there.
`deliveries_agree_iff` says that these are all. -/

namespace Cppim.Rpc.Codec

open Cppim.Common Cppim.Lib Cppim.Lib.Loop Cppim.Lib.Framing Cppim.Lib.Delimited

/-! ## The frames of a stream -/

theorem len_append {u : Bytes} (h : 4 ≤ u.length) (v : Bytes) : len (u ++ v) = len u := by
  rw [len, len, asInt32, asInt32, List.take_append_of_le_length h]

instance (mem : Bytes) (n : Nat) : Decidable (Complete mem n) :=
  decidable_of_iff
    (kMinMessageLen ≤ len mem ∧ len mem ≤ kMaxMessageLen ∧ (len mem + kHeaderLen).toNat ≤ n)
    ⟨fun ⟨h₁, h₂, h₃⟩ => ⟨h₁, h₂, h₃⟩, fun ⟨h₁, h₂, h₃⟩ => ⟨h₁, h₂, h₃⟩⟩

/-- The length of the frame at the start of the unread bytes, if all of it is there. -/
def frontLen (w : Bytes) : Option Nat :=
  if Complete w w.length then some (4 + len w).toNat else none

theorem frontLen_eq_some {w : Bytes} {n : Nat} (h : frontLen w = some n) :
    Complete w w.length ∧ n = (4 + len w).toNat ∧ 19 ≤ n ∧ n ≤ w.length := by
  unfold frontLen at h
  split at h
  · rename_i hc
    cases h
    have hmin := hc.min_le
    have hw := hc.whole
    simp only [kMinMessageLen, kIdLen, kHeaderLen] at hmin hw
    exact ⟨hc, rfl, by omega, by omega⟩
  · cases h

/-- The length fields cut a stream into frames. -/
def delimiter : Delimiter UInt8 where
  front := frontLen
  pos h := by
    obtain ⟨-, -, h19, -⟩ := frontLen_eq_some h
    omega
  le h := (frontLen_eq_some h).2.2.2
  stable {u n} h v := by
    obtain ⟨⟨hmin, hmax, hw⟩, rfl, h19, hle⟩ := frontLen_eq_some h
    have hlen : len (u ++ v) = len u := len_append (by omega) v
    have hc : Complete (u ++ v) (u ++ v).length := by
      refine ⟨hlen ▸ hmin, hlen ▸ hmax, ?_⟩
      rw [hlen, List.length_append]
      omega
    rw [frontLen, if_pos hc, hlen]
  prompt {u v n} h hn := by
    obtain ⟨⟨hmin, hmax, hw⟩, rfl, h19, -⟩ := frontLen_eq_some h
    have hlen : len (u ++ v) = len u := len_append (by omega) v
    rw [hlen] at hmin hmax hn ⊢
    have hc : Complete u u.length := ⟨hmin, hmax, by rw [Int.add_comm]; exact hn⟩
    rw [frontLen, if_pos hc]

/-! ## One frame -/

/-- What is delivered of the frame at the start of these bytes. -/
def delivers (mem : Bytes) : Option Delivery :=
  match decode mem (len mem) with
  | .ok d => d
  | .error _ => none

/-- The name field does not reach past the frame, or is refused. -/
def OutOfBand (frame : Bytes) : Prop :=
  nameLenField frame ≤ len frame - 12 ∨ len frame - 8 < nameLenField frame

instance (frame : Bytes) : Decidable (OutOfBand frame) :=
  inferInstanceAs (Decidable (_ ∨ _))

/-- The name of the frame in front ends among these bytes, or is refused. -/
def Named (u : Bytes) : Prop := 16 + nameLenField u ≤ u.length ∨ len u - 8 < nameLenField u

theorem named_of_outOfBand {f : Bytes} (hlen : f.length = (4 + len f).toNat)
    (h19 : 19 ≤ f.length) (hf : OutOfBand f) : Named f := by
  rcases hf with hf | hf
  · exact Or.inl (by omega)
  · exact Or.inr hf

/-- The band is four bytes wide. -/
theorem named_of_room {u : Bytes} (h : len u + 8 ≤ u.length) : Named u := by
  by_cases hname : nameLenField u ≤ len u - 8
  · exact Or.inl (by omega)
  · exact Or.inr (by omega)

theorem slice_append {a : Bytes} {n : Nat} (h : n ≤ a.length) (b : Bytes) :
    slice (a ++ b) n = slice a n := by
  have hle : n ≤ (a ++ b).length := by
    rw [List.length_append]
    omega
  rw [slice, slice, if_pos hle, if_pos h, List.take_append_of_le_length h]

theorem nameLenField_append {u : Bytes} (h : 16 ≤ u.length) (tail : Bytes) :
    nameLenField (u ++ tail) = nameLenField u := by
  rw [nameLenField, nameLenField, List.drop_drop, List.drop_drop,
    List.drop_append_of_le_length (by simp only [kHeaderLen, kIdLen]; omega), asInt32, asInt32,
    List.take_append_of_le_length (by simp [kHeaderLen, kIdLen]; omega)]

/-- The memory behind the name plays no part in a frame. -/
theorem decode_append {u : Bytes} (h19 : 19 ≤ u.length) (hlen : 4 + len u ≤ u.length)
    (hu : Named u) (tail : Bytes) : decode (u ++ tail) (len u) = decode u (len u) := by
  have hdrop (k : Nat) (hk : k ≤ u.length) : (u ++ tail).drop k = u.drop k ++ tail :=
    List.drop_append_of_le_length hk
  have hid : asUInt64 ((u ++ tail).drop kHeaderLen) = asUInt64 (u.drop kHeaderLen) := by
    rw [asUInt64, hdrop _ (by simp only [kHeaderLen]; omega),
      List.take_append_of_le_length (by simp [kHeaderLen]; omega)]
    rfl
  simp only [decode, hid, nameLenField_append (show 16 ≤ u.length by omega)]
  by_cases hc : 3 ≤ nameLenField u ∧ nameLenField u ≤ len u - 2 * kHeaderLen
  · have hfits : 16 + nameLenField u ≤ u.length := by
      rcases hu with hu | hu
      · exact hu
      · have := hc.2
        simp only [kHeaderLen] at this
        omega
    have hslice : slice (((u ++ tail).drop kHeaderLen).drop (kHeaderLen + kIdLen))
        (nameLenField u).toNat =
        slice ((u.drop kHeaderLen).drop (kHeaderLen + kIdLen)) (nameLenField u).toNat := by
      rw [List.drop_drop, List.drop_drop, hdrop _ (by simp only [kHeaderLen, kIdLen]; omega)]
      exact slice_append (by simp [kHeaderLen, kIdLen]; omega) tail
    have hdata : (((u ++ tail).drop kHeaderLen).drop
          (kHeaderLen + kIdLen + (nameLenField u).toNat)).take
          (len u - nameLenField u - kHeaderLen - kIdLen).toNat =
        ((u.drop kHeaderLen).drop (kHeaderLen + kIdLen + (nameLenField u).toNat)).take
          (len u - nameLenField u - kHeaderLen - kIdLen).toNat := by
      rw [List.drop_drop, List.drop_drop, hdrop _ (by simp only [kHeaderLen, kIdLen]; omega),
        List.take_append_of_le_length (by simp [kHeaderLen, kIdLen]; omega)]
    rw [if_pos hc, if_pos hc, hslice]
    simp only [hdata]
  · rw [if_neg hc, if_neg hc]

/-- A name that ends among the bytes is read without fault. -/
theorem decode_named {u : Bytes} (hu : Named u) : decode u (len u) = .ok (delivers u) := by
  unfold delivers
  cases hd : decode u (len u) with
  | ok d => rfl
  | error e =>
    rcases decode_cases u (len u) with ⟨h3, h8, hlt, -⟩ | ⟨-, -, -, d, hok, -⟩ | ⟨-, hok⟩
    · rcases hu with hu | hu <;> omega
    · simp [hok] at hd
    · simp [hok] at hd

/-- One turn on a frame in front of the memory, whose name ends among the bytes `u`. -/
theorem turn_named {buf : Buffer} {u tail : Bytes} (hpeek : buf.peek = u ++ tail)
    (hc : Complete u buf.readableBytes) (hlen : 4 + len u ≤ u.length) (hu : Named u) :
    ∃ buf', buf.retrieve (4 + len u).toNat = .ok buf' ∧
      buf'.readable = buf.readable.drop (4 + len u).toNat ∧
      turn buf = match delivers u with
        | some d => .again [.message d] buf'
        | none => .leave [.error .kInvalidNameLen] buf' := by
  have hmin := hc.min_le
  simp only [kMinMessageLen, kIdLen, kHeaderLen] at hmin
  have hsame : len buf.peek = len u := by
    rw [hpeek]
    exact len_append (by omega) tail
  have hdecode : decode buf.peek (len buf.peek) = .ok (delivers u) := by
    rw [hsame, hpeek, decode_append (by omega) hlen hu, decode_named hu]
  obtain ⟨buf', hr, hread, hturn⟩ := turn_complete buf ⟨hsame ▸ hc.min_le, hsame ▸ hc.le_max,
    hsame ▸ hc.whole⟩
  rw [hsame] at hr hread
  refine ⟨buf', hr, hread, ?_⟩
  rw [hturn, hdecode]
  cases delivers u <;> rfl

/-- The same, when the bytes that are unread hold the name. -/
theorem turn_readable {buf : Buffer} (hc : Complete buf.readable buf.readableBytes)
    (hu : Named buf.readable) :
    ∃ buf', buf.retrieve (4 + len buf.readable).toNat = .ok buf' ∧
      buf'.readable = buf.readable.drop (4 + len buf.readable).toNat ∧
      turn buf = match delivers buf.readable with
        | some d => .again [.message d] buf'
        | none => .leave [.error .kInvalidNameLen] buf' := by
  obtain ⟨back, hpeek⟩ := buf.peek_eq
  have hw := hc.whole
  have hmin := hc.min_le
  simp only [kHeaderLen, kMinMessageLen, kIdLen] at hw hmin
  exact turn_named hpeek hc (by rw [buf.readable_length]; omega) hu

/-- The same for a frame of which nothing is known but the length of its name. -/
theorem turn_frame {buf : Buffer} {n : Nat} (h : frontLen buf.readable = some n)
    (hf : OutOfBand (buf.readable.take n)) :
    ∃ buf', buf'.readable = buf.readable.drop n ∧
      turn buf = match delivers (buf.readable.take n) with
        | some d => .again [.message d] buf'
        | none => .leave [.error .kInvalidNameLen] buf' := by
  obtain ⟨⟨hmin, hmax, hw⟩, hn, h19, hle⟩ := frontLen_eq_some h
  obtain ⟨back, hpeek⟩ := buf.peek_eq
  have htake : (buf.readable.take n).length = n := by
    rw [List.length_take]
    omega
  have hsplit : buf.peek = buf.readable.take n ++ (buf.readable.drop n ++ back) := by
    rw [← List.append_assoc, List.take_append_drop, hpeek]
  have hlen : len (buf.readable.take n) = len buf.readable := by
    conv_rhs => rw [← List.take_append_drop n buf.readable]
    exact (len_append (by omega) _).symm
  have hc : Complete (buf.readable.take n) buf.readableBytes :=
    ⟨hlen ▸ hmin, hlen ▸ hmax, by rw [hlen, ← buf.readable_length]; exact hw⟩
  have hnamed := named_of_outOfBand (by rw [htake, hlen]; exact hn) (by omega) hf
  obtain ⟨buf', -, hread, hturn⟩ := turn_named hsplit hc (by omega) hnamed
  refine ⟨buf', ?_, hturn⟩
  rw [hread, hlen, ← hn]

/-! ## What is delivered -/

/-- A call of `messageCallback_`. -/
def Event.delivered : Event → Option Delivery
  | .message d => some d
  | .error _ => none

/-- **The decoder scans the frames** that the length fields cut. -/
theorem scans : Scans turn Buffer.readable delimiter delivers Event.delivered OutOfBand where
  accepted {buf n d} hfront hok hd := by
    obtain ⟨buf', hread, hturn⟩ := turn_frame hfront hok
    exact ⟨_, buf', by rw [hturn, hd], rfl, hread⟩
  refused {buf n} hfront hok hd := by
    obtain ⟨buf', hread, hturn⟩ := turn_frame hfront hok
    exact ⟨_, buf', by rw [hturn, hd], rfl, hread⟩
  waits {buf} hfront := by
    have hnot : ¬ Complete buf.peek buf.readableBytes := by
      intro hc
      obtain ⟨back, hpeek⟩ := buf.peek_eq
      have hle := hc.le
      obtain ⟨hmin, hmax, hw⟩ := hc
      have hlen : len buf.peek = len buf.readable := by
        rw [hpeek]
        exact len_append (by rw [buf.readable_length]; omega) back
      have hc : Complete buf.readable buf.readableBytes :=
        ⟨hlen ▸ hmin, hlen ▸ hmax, hlen ▸ hw⟩
      simp [delimiter, frontLen, hc] at hfront
    have hdoes := does_turn buf
    generalize hx : turn buf = x at hdoes
    cases hdoes with
    | short _ => exact ⟨_, rfl, rfl⟩
    | invalidLength _ _ => exact ⟨_, rfl, rfl⟩
    | wait _ _ => exact ⟨_, rfl, rfl⟩
    | delivered hc _ _ _ => exact absurd hc hnot
    | rejected hc _ _ _ => exact absurd hc hnot
    | fault hc _ => exact absurd hc hnot

theorem onMessage_done_iff (buf buf' : Buffer) (o : List Event) :
    onMessage buf = .done o buf' ↔ Ends turn buf o buf' := by
  constructor
  · exact ends_of_run
  · intro h
    refine run_of_ends (μ := Buffer.readableBytes) ?_ h _ ?_
    · intro b o b' hturn
      exact Or.inl (turn_shrinks hturn)
    · rw [buf.readable_length]
      exact Nat.lt_succ_self _

theorem onMessage_ne_spin (buf : Buffer) (o : List Event) (buf' : Buffer) :
    onMessage buf ≠ .spin o buf' := by
  apply run_ne_spin turn Buffer.readableBytes
  · intro b o b' hturn
    exact turn_shrinks hturn
  · rw [buf.readable_length]
    exact Nat.lt_succ_self _

/-- The calls of `messageCallback_` for bytes that arrive in these chunks. -/
def deliveries (buf : Buffer) (chunks : List Bytes) : List Delivery :=
  (feed onMessage Buffer.append buf chunks).out.filterMap Event.delivered

/-- The read buffer of a session that has consumed all it has received. -/
def Emptied (buf : Buffer) : Prop :=
  ∃ received o, feed onMessage Buffer.append (Buffer.ofSize kInitialSize) received = .done o buf ∧
    buf.readable = []

/-! ## Names that are read from the memory behind the frame -/

/-- `decode` takes the service and the method from the name. -/
theorem delivers_name {u : Bytes} (h3 : 3 ≤ nameLenField u) (h8 : nameLenField u ≤ len u - 8)
    (hin : 16 + nameLenField u ≤ u.length) :
    (delivers u).map (fun d => (d.servicename, d.methodname)) = Cut.cut [58] (nameBytes u) := by
  have hdrop : (u.drop kHeaderLen).drop (kHeaderLen + kIdLen) = u.drop 16 := List.drop_drop
  have hc : 3 ≤ nameLenField u ∧ nameLenField u ≤ len u - 2 * kHeaderLen := ⟨h3, h8⟩
  have hslice : slice (u.drop 16) (nameLenField u).toNat = .ok (nameBytes u) := by
    rw [slice, if_pos (by rw [List.length_drop]; omega), nameBytes]
  rw [delivers]
  simp only [decode, hdrop, if_pos hc, hslice, ok_bind]
  cases Cut.cut [58] (nameBytes u) <;> rfl

/-- The name of a frame in the band ends with what stands behind the frame. -/
theorem delivers_band {f : Bytes} (hf : frontLen f = some f.length) (hband : ¬ OutOfBand f)
    (c : UInt8) :
    (delivers (f ++ List.replicate 4 c)).map (fun d => (d.servicename, d.methodname)) =
      Cut.cut [58] (f.drop 16 ++ List.replicate (nameLenField f - (len f - 12)).toNat c) := by
  obtain ⟨-, hn, h19, -⟩ := frontLen_eq_some hf
  rw [OutOfBand, not_or] at hband
  have hlen := len_append (show 4 ≤ f.length by omega) (List.replicate 4 c)
  have hname := nameLenField_append (show 16 ≤ f.length by omega) (List.replicate 4 c)
  have hbytes : nameBytes (f ++ List.replicate 4 c) =
      f.drop 16 ++ List.replicate (nameLenField f - (len f - 12)).toNat c := by
    have hroom : (f.drop 16).length = (len f - 12).toNat := by
      rw [List.length_drop]
      omega
    rw [nameBytes, hname, List.drop_append_of_le_length (by omega), List.take_append,
      List.take_of_length_le (by omega), List.take_replicate, hroom]
    congr 2
    omega
  rw [← hbytes]
  apply delivers_name
  · omega
  · omega
  · rw [hname, List.length_append, List.length_replicate]
    omega

theorem delivers_band_ne {f : Bytes} (hf : frontLen f = some f.length) (hband : ¬ OutOfBand f) :
    delivers (f ++ List.replicate 4 0) ≠ delivers (f ++ List.replicate 4 58) := by
  intro heq
  have hzero := delivers_band hf hband 0
  rw [heq, delivers_band hf hband 58] at hzero
  obtain ⟨k, hk⟩ : ∃ k, (nameLenField f - (len f - 12)).toNat = k + 1 :=
    ⟨(nameLenField f - (len f - 12)).toNat - 1, by rw [OutOfBand, not_or] at hband; omega⟩
  rw [hk] at hzero
  cases hcut : Cut.cut [58] (f.drop 16 ++ List.replicate (k + 1) 58) with
  | none => exact Cut.cut_singleton_eq_none.mp hcut (by simp)
  | some p =>
    have hsame := (Cut.eq_of_cut hcut).trans (Cut.eq_of_cut (hzero.symm.trans hcut)).symm
    simp [List.replicate_succ] at hsame

/-! ### Where the memory comes from -/

/-- The decoder writes nothing, and a buffer that it empties starts over. -/
theorem ends_buffer {buf buf' : Buffer} {o : List Event} (h : Ends turn buf o buf') :
    buf'.buffer = buf.buffer ∧
      (buf'.readable = [] → buf'.readerIndex = kCheapPrepend ∨ buf' = buf) := by
  induction h with
  | leave hturn =>
    cases does_of_eq hturn with
    | short _ => exact ⟨rfl, fun _ => Or.inr rfl⟩
    | invalidLength _ _ => exact ⟨rfl, fun _ => Or.inr rfl⟩
    | wait _ _ => exact ⟨rfl, fun _ => Or.inr rfl⟩
    | rejected _ _ hr _ =>
      obtain ⟨hbuffer, hempty⟩ := Buffer.retrieve_buffer hr
      exact ⟨hbuffer, fun h => Or.inl (hempty h)⟩
  | again hturn _ ih =>
    cases does_of_eq hturn with
    | delivered _ _ hr _ =>
      obtain ⟨hbuffer, hempty⟩ := Buffer.retrieve_buffer hr
      refine ⟨ih.1.trans hbuffer, fun hnil => Or.inl ?_⟩
      rcases ih.2 hnil with hindex | heq
      · exact hindex
      · rw [heq] at hnil ⊢
        exact hempty hnil

/-- A packet with `k` bytes `c` in its name, from the 19th byte on. -/
def filler (k : Nat) (c : UInt8) : Packet := ⟨0, [97], 98 :: List.replicate k c, []⟩

theorem filler_wellFormed {k : Nat} (c : UInt8) (hk : k + 16 ≤ 64 * 1024 * 1024) :
    (filler k c).WellFormed where
  service_ne := by simp [filler]
  method_ne := by simp [filler]
  colon := by simp [filler]
  fits := by
    simp [filler, Packet.name]
    omega

theorem filler_bytes (k : Nat) (c : UInt8) :
    ∃ header, header.length = 19 ∧ (filler k c).bytes = header ++ List.replicate k c ++ [0] := by
  refine ⟨BigEndian.toBytes 4 (bodyLen (filler k c).frame) ++ BigEndian.toBytes 8 0 ++
    BigEndian.toBytes 4 ((filler k c).name.length + 1) ++ [97, 58, 98], by simp, ?_⟩
  simp [Packet.bytes, layout, filler, Packet.frame, Packet.name]

/-- Packets that have four bytes `c` in a given place. -/
theorem exists_filler (c : UInt8) (n : Nat) (hn : 19 ≤ n) :
    ∃ ps : List Packet, ps ≠ [] ∧ (∀ p ∈ ps, p.WellFormed) ∧
      n + 4 ≤ (stream Packet.bytes ps).length ∧
      ((stream Packet.bytes ps).drop n).take 4 = List.replicate 4 c := by
  induction n using Nat.strongRecOn with
  | ind n ih =>
    by_cases hfit : n + 1 ≤ 64 * 1024 * 1024
    · obtain ⟨header, hheader, hbytes⟩ := filler_bytes (n - 15) c
      refine ⟨[filler (n - 15) c], by simp, ?_, ?_, ?_⟩
      · intro p hp
        obtain rfl := List.mem_singleton.mp hp
        exact filler_wellFormed c (by omega)
      · simp [hbytes]
        omega
      · obtain ⟨j, rfl⟩ : ∃ j, n = header.length + j := ⟨n - 19, by omega⟩
        have hcount : header.length + j - 15 = j + 4 := by omega
        rw [stream_cons, stream_nil, List.append_nil, hbytes, hcount, List.append_assoc,
          List.drop_length_add_append, List.drop_append_of_le_length (by simp), List.drop_replicate,
          Nat.add_sub_cancel_left]
        exact List.take_left' (by simp)
    · -- the place is behind a small packet
      obtain ⟨header, hheader, hbytes⟩ := filler_bytes 0 c
      have hlen : (filler 0 c).bytes.length = 20 := by simp [hbytes, hheader]
      obtain ⟨ps, -, hps, hroom, hplace⟩ := ih (n - 20) (by omega) (by omega)
      refine ⟨filler 0 c :: ps, by simp, ?_, ?_, ?_⟩
      · intro p hp
        rcases List.mem_cons.mp hp with rfl | hp
        · exact filler_wellFormed c (by omega)
        · exact hps p hp
      · rw [stream_cons, List.length_append, hlen]
        omega
      · obtain ⟨j, rfl⟩ : ∃ j, n = (filler 0 c).bytes.length + j := ⟨n - 20, by omega⟩
        rw [stream_cons, List.drop_length_add_append, ← hplace]
        congr 2
        omega

/-- A session can leave any four bytes behind in its buffer. -/
theorem exists_emptied (c : UInt8) (n : Nat) (hn : 19 ≤ n) :
    ∃ buf, Emptied buf ∧ n + 4 ≤ buf.peek.length ∧
      (buf.peek.drop n).take 4 = List.replicate 4 c := by
  obtain ⟨ps, hne, hps, hroom, hplace⟩ := exists_filler c n hn
  obtain ⟨buf, hfeed, hempty⟩ := feed_exact decodes Buffer.append_readable
    [stream Packet.bytes ps] ps (filler 0 c) [] hps (filler_wellFormed c (by omega))
    ⟨List.nil_prefix, (decodes.nonempty _ (filler_wellFormed c (by omega))).symm⟩ (by simp)
    (Buffer.ofSize kInitialSize) (Buffer.readable_ofSize _)
  obtain ⟨b, hb, hread⟩ := (Buffer.ofSize kInitialSize).append_readable (stream Packet.bytes ps)
  rw [Buffer.readable_ofSize, List.nil_append] at hread
  have hindex : b.readerIndex = kCheapPrepend := (Buffer.append_readerIndex hb).elim id id
  have hends : ∃ o, Ends turn b o buf := by
    simp only [feed, hb] at hfeed
    cases hcall : drain turn Buffer.readable b with
    | done o b' =>
      simp only [hcall, Outcome.emit, List.append_nil, Outcome.done.injEq] at hfeed
      exact ⟨o, hfeed.2 ▸ ends_of_run hcall⟩
    | fault o e => simp [hcall] at hfeed
    | spin o b' => simp [hcall] at hfeed
  obtain ⟨o, hends⟩ := hends
  obtain ⟨hbuffer, hstart⟩ := ends_buffer hends
  have hstart' : buf.readerIndex = kCheapPrepend := by
    rcases hstart hempty with h | rfl
    · exact h
    · exact hindex
  have hpeek : buf.peek = b.peek := by rw [Buffer.peek, Buffer.peek, hbuffer, hstart', hindex]
  obtain ⟨back, hback⟩ := b.peek_eq
  rw [hread] at hback
  refine ⟨buf, ⟨_, _, hfeed, hempty⟩, ?_, ?_⟩
  · rw [hpeek, hback, List.length_append]
    omega
  · rw [hpeek, hback, List.drop_append_of_le_length (by omega),
      List.take_append_of_le_length (by rw [List.length_drop]; omega), hplace]

/-! ### Chunks that end behind a frame -/

/-- A call that has one frame before it. -/
theorem onMessage_one {buf : Buffer} {u tail : Bytes} (hpeek : buf.peek = u ++ tail)
    (hc : Complete u buf.readableBytes) (hlen : 4 + len u ≤ u.length) (hu : Named u)
    (hshort : buf.readableBytes < (4 + len u).toNat + 19) :
    ∃ o buf', onMessage buf = .done o buf' ∧
      o.filterMap Event.delivered = (delivers u).toList ∧
      buf.retrieve (4 + len u).toNat = .ok buf' ∧
      buf'.readable = buf.readable.drop (4 + len u).toNat := by
  obtain ⟨buf', hr, hread, hturn⟩ := turn_named hpeek hc hlen hu
  have hless : buf'.readableBytes < 19 := by
    rw [← buf'.readable_length, hread, List.length_drop, buf.readable_length]
    omega
  cases hd : delivers u with
  | none =>
    rw [hd] at hturn
    exact ⟨_, buf', (onMessage_done_iff _ _ _).mpr (.leave hturn), rfl, hr, hread⟩
  | some d =>
    rw [hd] at hturn
    have hends := Ends.again hturn (.leave (turn_short buf' hless))
    exact ⟨_, buf', (onMessage_done_iff _ _ _).mpr hends, rfl, hr, hread⟩

/-- A frame that is all there is. -/
theorem complete_of_frame {f : Bytes} (h : frontLen f = some f.length) :
    Complete f f.length ∧ f.length = (4 + len f).toNat ∧ 19 ≤ f.length := by
  obtain ⟨hc, hn, h19, -⟩ := frontLen_eq_some h
  exact ⟨hc, hn, h19⟩

/-- Every frame of `pre` can be read with the first four bytes of the next one behind it,
and `f` with nothing behind it: what `pre` delivers then does not depend on the memory. -/
theorem feed_shifted (pre : List Bytes) (f : Bytes)
    (hpre : ∀ g ∈ pre, frontLen g = some g.length) (hf : frontLen f = some f.length) :
    ∃ cs ds, (pre ++ [f]).flatten.take 4 ++ cs.flatten = (pre ++ [f]).flatten ∧
      ∀ buf back, buf.readable = (pre ++ [f]).flatten.take 4 → buf.peek = buf.readable ++ back →
        cs.flatten.length + 4 ≤ back.length →
        ∃ o buf', feed onMessage Buffer.append buf cs = .done o buf' ∧
          o.filterMap Event.delivered =
            ds ++ (delivers (f ++ (back.drop cs.flatten.length).take 4)).toList ∧
          buf'.readable = [] := by
  induction pre with
  | nil =>
    obtain ⟨hc, hn, h19⟩ := complete_of_frame hf
    refine ⟨[f.drop 4], [], by simp, fun buf back hread hpeek hroom => ?_⟩
    simp only [List.nil_append, List.flatten_cons, List.flatten_nil, List.append_nil]
      at hread hroom ⊢
    obtain ⟨b, hb, hread', hpeek'⟩ := Buffer.append_peek hpeek (f.drop 4) (by omega)
    rw [hread, List.take_append_drop] at hread' hpeek'
    have hsize : b.readableBytes = f.length := by rw [← b.readable_length, hread']
    have hbehind : ((back.drop (f.drop 4).length).take 4).length = 4 := by
      rw [List.length_take, List.length_drop]
      omega
    generalize hj : (back.drop (f.drop 4).length).take 4 = junk at hbehind ⊢
    have hlen : len (f ++ junk) = len f := len_append (by omega) junk
    have hsplit : b.peek = (f ++ junk) ++ (back.drop (f.drop 4).length).drop 4 := by
      rw [hpeek', ← hj, List.append_assoc, List.take_append_drop]
    obtain ⟨o, buf', hcall, ho, -, hrest⟩ := onMessage_one hsplit
      ⟨hlen ▸ hc.min_le, hlen ▸ hc.le_max, by rw [hlen, hsize]; exact hc.whole⟩
      (by rw [hlen, List.length_append]; omega)
      (named_of_room (by rw [hlen, List.length_append]; omega)) (by rw [hlen]; omega)
    refine ⟨o, buf', ?_, ho, ?_⟩
    · simp only [feed, hb, hcall, Outcome.emit, List.append_nil]
    · rw [hrest, hread', hlen, ← hn, List.drop_length]
  | cons g gs ih =>
    obtain ⟨hc, hn, h19⟩ := complete_of_frame (hpre g (by simp))
    obtain ⟨cs, ds, hcs, hfeed⟩ := ih fun g' hg' => hpre g' (by simp [hg'])
    have hlong : 4 ≤ (gs ++ [f]).flatten.length := by
      have hf19 := (complete_of_frame hf).2.2
      rw [List.flatten_append, List.length_append, List.flatten_singleton]
      omega
    rw [List.cons_append, List.flatten_cons]
    generalize (gs ++ [f]).flatten = x at hcs hfeed hlong ⊢
    have hfour : (x.take 4).length = 4 := by
      rw [List.length_take]
      omega
    refine ⟨(g.drop 4 ++ x.take 4) :: cs, (delivers (g ++ x.take 4)).toList ++ ds, ?_, ?_⟩
    · rw [List.flatten_cons, List.take_append_of_le_length (by omega), List.append_assoc, hcs,
        ← List.append_assoc, List.take_append_drop]
    · intro buf back hread hpeek hroom
      rw [List.flatten_cons] at hroom ⊢
      rw [List.take_append_of_le_length (by omega)] at hread
      obtain ⟨b, hb, hread', hpeek'⟩ := Buffer.append_peek hpeek (g.drop 4 ++ x.take 4)
        (by rw [List.length_append] at hroom; omega)
      rw [hread, ← List.append_assoc, List.take_append_drop] at hread' hpeek'
      have hsize : b.readableBytes = g.length + 4 := by
        rw [← b.readable_length, hread', List.length_append, hfour]
      have hlen : len (g ++ x.take 4) = len g := len_append (by omega) _
      obtain ⟨o, b', hcall, ho, hr, hrest⟩ := onMessage_one hpeek'
        ⟨hlen ▸ hc.min_le, hlen ▸ hc.le_max, by
          have hw := hc.whole
          rw [hlen, hsize]
          omega⟩
        (by rw [hlen, List.length_append]; omega)
        (named_of_room (by rw [hlen, List.length_append]; omega)) (by rw [hlen]; omega)
      rw [hlen, ← hn] at hr hrest
      rw [hread', List.drop_left] at hrest
      have hpeek'' : b'.peek = b'.readable ++ back.drop (g.drop 4 ++ x.take 4).length := by
        rw [Buffer.retrieve_peek hr (by omega), hpeek', List.append_assoc, List.drop_left, hrest]
      obtain ⟨o', buf', hcall', ho', hempty⟩ := hfeed b' _ hrest hpeek''
        (by rw [List.length_append] at hroom; rw [List.length_drop]; omega)
      refine ⟨o ++ o', buf', ?_, ?_, hempty⟩
      · simp only [feed, hb, hcall, hcall', Outcome.emit]
      · have htotal : (g.drop 4 ++ x.take 4 ++ cs.flatten).length =
            (g.drop 4 ++ x.take 4).length + cs.flatten.length := List.length_append
        rw [List.filterMap_append, ho, ho', List.drop_drop, htotal, List.append_assoc]

/-- Of the elements that are not fine the last one has only fine ones behind it. -/
theorem exists_last {α : Type} {P : α → Prop} {xs : List α} (h : ¬ ∀ x ∈ xs, P x) :
    ∃ pre x post, xs = pre ++ x :: post ∧ ¬ P x ∧ ∀ y ∈ post, P y := by
  induction xs with
  | nil => simp at h
  | cons x xs ih =>
    by_cases hxs : ∀ y ∈ xs, P y
    · exact ⟨[], x, xs, rfl, fun hx => h (List.forall_mem_cons.mpr ⟨hx, hxs⟩), hxs⟩
    · obtain ⟨pre, y, post, rfl, hy, hpost⟩ := ih hxs
      exact ⟨x :: pre, y, post, rfl, hy, hpost⟩

/-- What a stream delivers with a frame in the band that is read against four bytes `c`: the
frames in front of it and behind it deliver the same for every `c`. -/
theorem deliveries_band {w f : Bytes} {pre post : List Bytes}
    (hw : delimiter.frames w = pre ++ f :: post) (hpost : ∀ g ∈ post, OutOfBand g) :
    ∃ cs ds es, cs.flatten = w ∧ ∀ c, ∃ buf, Emptied buf ∧
      deliveries buf cs = ds ++ (delivers (f ++ List.replicate 4 c)).toList ++ es := by
  have hmem : ∀ g ∈ pre ++ f :: post, frontLen g = some g.length := fun g hg =>
    delimiter.front_of_mem_frames (u := w) (hw ▸ hg)
  have hf := hmem f (by simp)
  obtain ⟨r, hr, hrest, -⟩ := delimiter.frames_behind
    (show delimiter.frames w = (pre ++ [f]) ++ post by simp [hw])
  obtain ⟨cs, ds, hcs, hfeed⟩ := feed_shifted pre f (fun g hg => hmem g (by simp [hg])) hf
  have hlong : 19 ≤ (pre ++ [f]).flatten.length := by
    have hf19 := (complete_of_frame hf).2.2
    rw [List.flatten_append, List.length_append, List.flatten_singleton]
    omega
  generalize (pre ++ [f]).flatten = x at hr hcs hfeed hlong
  have hfour : (x.take 4).length = 4 := by
    rw [List.length_take]
    omega
  have htotal : 4 + cs.flatten.length = x.length := by
    rw [← hfour, ← List.length_append, hcs]
  refine ⟨x.take 4 :: (cs ++ [r]), ds, (taken delivers post).filterMap delivers, ?_, fun c => ?_⟩
  · rw [List.flatten_cons, List.flatten_append, ← List.append_assoc, hcs, hr]
    simp
  · obtain ⟨buf, hbuf, hroom, hplace⟩ := exists_emptied c x.length hlong
    refine ⟨buf, hbuf, ?_⟩
    have hempty : buf.readable = [] := hbuf.elim fun _ h => h.elim fun _ h => h.2
    -- the first four bytes are waited with
    have hpeek : buf.peek = buf.readable ++ buf.peek := by rw [hempty, List.nil_append]
    obtain ⟨b₁, hb₁, hread₁, hpeek₁⟩ := Buffer.append_peek hpeek (x.take 4) (by omega)
    rw [hempty, List.nil_append] at hread₁ hpeek₁
    have hshort : b₁.readableBytes < 19 := by rw [← b₁.readable_length, hread₁, hfour]; decide
    have hcall₁ := (onMessage_done_iff _ _ _).mpr (.leave (turn_short b₁ hshort))
    -- then come the frames up to `f`
    obtain ⟨o, b₂, hcall₂, ho, hempty₂⟩ := hfeed b₁ (buf.peek.drop 4) hread₁
      (by rw [hpeek₁, hread₁, hfour]) (by rw [List.length_drop]; omega)
    rw [List.drop_drop, htotal, hplace] at ho
    -- and what is behind it, in one chunk
    obtain ⟨b₃, hb₃, hread₃⟩ := b₂.append_readable r
    rw [hempty₂, List.nil_append] at hread₃
    obtain ⟨o', b₄, hcall₃, ho', -⟩ := scans.run_taken (b₃.readable.length + 1) b₃
      (Nat.lt_succ_self _) (by rw [hread₃, hrest]; exact hpost)
    rw [hread₃, hrest] at ho'
    have hlast : feed onMessage Buffer.append b₂ [r] = .done o' b₄ := by
      simp only [feed, hb₃, onMessage, drain, hcall₃, Outcome.emit, List.append_nil]
    have hall :
        feed onMessage Buffer.append buf (x.take 4 :: (cs ++ [r])) = .done (o ++ o') b₄ := by
      rw [feed, hb₁]
      simp only [hcall₁]
      rw [feed_append hcall₂, hlast]
      rfl
    rw [deliveries, hall]
    show (o ++ o').filterMap Event.delivered = _
    rw [List.filterMap_append, ho, ho']

/-- A buffer that was emptied may be used for another stream. -/
theorem deliveries_of_emptied {buf : Buffer} (hbuf : Emptied buf) (cs : List Bytes)
    (hok : ∀ f ∈ delimiter.frames cs.flatten, OutOfBand f)
    (hnone : NoneBehind delivers (delimiter.frames cs.flatten)) :
    deliveries buf cs = (delimiter.frames cs.flatten).filterMap delivers := by
  obtain ⟨-, -, -, hempty⟩ := hbuf
  exact scans.feed_noneBehind Buffer.append_readable buf hempty cs hok hnone

theorem emptied_ofSize : Emptied (Buffer.ofSize kInitialSize) :=
  ⟨[], [], rfl, Buffer.readable_ofSize _⟩

/-- **Delivery and chunks.** What a stream delivers is decided by the stream, whatever the
read buffer was used for before and however the stream is cut into chunks, if and only if
no name field lies in the band of one to four bytes past its frame and no frame with an
acceptable name stands behind one whose name is refused. In a fresh buffer, any two ways to
cut a stream without names in the band deliver the same if and only if the second holds. -/
theorem deliveries_agree_iff (w : Bytes) :
    ((∀ buf buf' cs ds, Emptied buf → Emptied buf' → cs.flatten = w → ds.flatten = w →
        deliveries buf cs = deliveries buf' ds) ↔
      (∀ f ∈ delimiter.frames w, OutOfBand f) ∧
        NoneBehind delivers (delimiter.frames w)) ∧
    ((∀ f ∈ delimiter.frames w, OutOfBand f) →
      ((∀ cs ds, cs.flatten = w → ds.flatten = w →
        deliveries (Buffer.ofSize kInitialSize) cs = deliveries (Buffer.ofSize kInitialSize) ds) ↔
        NoneBehind delivers (delimiter.frames w))) := by
  have hfresh : (∀ f ∈ delimiter.frames w, OutOfBand f) →
      ((∀ cs ds, cs.flatten = w → ds.flatten = w →
        deliveries (Buffer.ofSize kInitialSize) cs = deliveries (Buffer.ofSize kInitialSize) ds) ↔
        NoneBehind delivers (delimiter.frames w)) :=
    scans.agree_iff Buffer.append_readable _ (Buffer.readable_ofSize _) w
  refine ⟨⟨fun hagree => ?_, fun ⟨hok, hnone⟩ buf buf' cs ds hbuf hbuf' hcs hds => ?_⟩, hfresh⟩
  · have hok : ∀ f ∈ delimiter.frames w, OutOfBand f := by
      by_contra hband
      obtain ⟨pre, f, post, hw, hf, hpost⟩ := exists_last hband
      obtain ⟨cs, ds, es, hcs, hmem⟩ := deliveries_band hw hpost
      obtain ⟨buf, hbuf, hzero⟩ := hmem 0
      obtain ⟨buf', hbuf', hcolon⟩ := hmem 58
      have hsame := hagree buf buf' cs cs hbuf hbuf' hcs hcs
      rw [hzero, hcolon] at hsame
      have hsame := List.append_cancel_left (List.append_cancel_right hsame)
      have hframe := delimiter.front_of_mem_frames (show f ∈ delimiter.frames w by simp [hw])
      refine delivers_band_ne hframe hf ?_
      simpa using congrArg List.head? hsame
    exact ⟨hok, (hfresh hok).mp fun cs ds => hagree _ _ cs ds emptied_ofSize emptied_ofSize⟩
  · subst hcs
    rw [deliveries_of_emptied hbuf cs hok hnone]
    rw [← hds] at hok hnone ⊢
    exact (deliveries_of_emptied hbuf' ds hok hnone).symm

/-- A frame whose name `abc` has no `:`. -/
def unnamed : Bytes := [0, 0, 0, 15, 0, 0, 0, 0, 0, 0, 0, 5, 0, 0, 0, 3, 97, 98, 99]

/-- A frame named `a:b`. -/
def named : Bytes := [0, 0, 0, 16, 0, 0, 0, 0, 0, 0, 0, 7, 0, 0, 0, 4, 97, 58, 98, 0]

theorem deliveries_agree_iff_behind :
    ∀ buf buf' cs ds, Emptied buf → Emptied buf' → cs.flatten = named ++ unnamed →
      ds.flatten = named ++ unnamed → deliveries buf cs = deliveries buf' ds := by
  have hframes : delimiter.frames (named ++ unnamed) = [named, unnamed] := by decide +kernel
  refine (deliveries_agree_iff (named ++ unnamed)).1.mpr ⟨?_, ?_⟩
  · rw [hframes]
    decide
  · rw [hframes, noneBehind_iff]
    decide +kernel

/-- Two frames in one chunk, of which the second is not delivered, and in two. -/
theorem refused_name_hides_next :
    deliveries (Buffer.ofSize kInitialSize) [unnamed ++ named] = [] ∧
      deliveries (Buffer.ofSize kInitialSize) [unnamed, named] =
        [⟨false, 7, [97], [98, 0], [], 0⟩] := by
  refine ⟨?_, ?_⟩ <;> decide +kernel

end Cppim.Rpc.Codec
