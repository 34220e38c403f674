import Cppim.Net.Client
import Cppim.Rpc.Stream

/-! The session of an RPC client, of `gateserver/LogicRpcClient.h` and
`jobserver/GateRpcClient.h`: a client session whose `messagecallback_` is
`RpcChannel::onMessage`, that is `RpcCodec::onMessage`.

`canSend_iff` is about its sending side. On the reading side the bytes of a frame that was
cut off by the loss of a connection stay in `read_buf_`, in front of what the next
connection brings; `clean_stream_iff` says that this is harmless only if there are none. -/

namespace Cppim.Rpc.Client

open Cppim.Common Cppim.Lib Cppim.Lib.Loop Cppim.Lib.Framing Cppim.Lib.Transition
open Cppim.Net Cppim.Net.Client Cppim.Rpc.Codec

def clientStep : State Event → Label → Option (State Event) := step onMessage

/-! ## Sending -/

/-- **Sending after a failure.** In every state of a run no empty function was called, a
write is out for what is in `write_buf_` and the queue is going to be looked at, if and only
if no handler of a failed write runs. -/
theorem canSend_iff (ls : List Label) (t : State Event)
    (hr : Transition.run clientStep init ls = some t) :
    (∀ as bs u, ls = as ++ bs → Transition.run clientStep init as = some u → CanSend u) ↔
      ∀ i, .writeFailed i ∉ ls := by
  constructor
  · intro h i hi
    obtain ⟨as, bs, rfl⟩ := List.append_of_mem hi
    rw [run_append] at hr
    obtain ⟨u, hu, hrest⟩ := Option.bind_eq_some_iff.mp hr
    obtain ⟨u', hstep, -⟩ := (run_cons_eq_some _ _ _ _).mp hrest
    have hlast : Transition.run clientStep init (as ++ [.writeFailed i]) = some u' := by
      rw [run_append_of _ _ _ _ hu]
      exact (run_cons_eq_some _ _ _ _).mpr ⟨u', hstep, rfl⟩
    exact (h (as ++ [.writeFailed i]) bs u' (by simp) hlast).called (writeFailed_fails hstep)
  · intro h as bs u he hu
    refine run_canSend as u (fun i hi => h i ?_) hu
    rw [he]
    exact List.mem_append_left bs hi

/-- Up to the start of the first write. -/
def firstWrite : List Label :=
  [.connected, .sending (.send [1]), .sending .post, .sending .task, .sending .lock,
    .sending .append, .sending .start]

/-- The connection is lost after the write has ended. The socket is still open, so that the
first `connect` fails and closes it; the second one succeeds. -/
def lostAndBack : List Label :=
  firstWrite ++ [.sending (.transfer 0 1), .sending (.complete 0), .sending .check, .readFailed,
    .timer, .connectFailed, .timer, .connected, .sending (.send [2])]

theorem canSend_iff_back :
    ∃ t, Transition.run clientStep init lostAndBack = some t ∧ CanSend t := by
  have hsome : (Transition.run clientStep init lostAndBack).isSome = true := by decide +kernel
  obtain ⟨t, ht⟩ := Option.isSome_iff_exists.mp hsome
  refine ⟨t, ht, (canSend_iff lostAndBack t ht).mpr ?_ lostAndBack [] t (by simp) ht⟩
  simp [lostAndBack, firstWrite]

/-- A write fails while the session is connected: `close` calls the empty
`disconnectcallback_`, and `write_buf_` is left with no write out. -/
theorem bad_function_call_on_write_error :
    (Transition.run clientStep init (firstWrite ++ [.sending (.fail 0), .writeFailed 0])).map
      (fun s => (s.failure, s.link, s.session.ops, s.session.write_buf_.readable)) =
      some (some .badFunctionCall, .up, [], [1]) := by
  decide +kernel

/-! ## What a connection carries -/

/-- The messages delivered while a connection was up. -/
def messages (c : Connection Event) : List Delivery := c.events.filterMap Event.delivered

/-- The bytes of a connection are these packets, as they are encoded, and the part of one
more that arrived before the connection was lost. -/
structure Carries (c : Connection Event) (ps : List Packet) (rest : Bytes) : Prop where
  valid : ∀ p ∈ ps, p.Sendable
  bytes : c.received = (ps.map fun p => encode p.frame).flatten ++ rest
  cut : ∃ next : Packet, next.Sendable ∧ StrictPrefix rest (encode next.frame)

/-- A concatenation of valid frames, cut off somewhere. -/
def Valid (c : Connection Event) : Prop := ∃ ps rest, Carries c ps rest

/-- A concatenation of valid frames, cut off between two of them. -/
def Whole (c : Connection Event) : Prop := ∃ ps, Carries c ps []

/-- Exactly the packets that the connection carried were delivered. -/
def Exact (c : Connection Event) : Prop :=
  ∀ ps rest, Carries c ps rest → messages c = ps.map Packet.delivery

theorem encode_frame {p : Packet} (hp : p.Sendable) : encode p.frame = p.bytes :=
  encode_eq_layout p.frame hp.name_lt

theorem encode_frames {ps : List Packet} (hps : ∀ p ∈ ps, p.Sendable) :
    (ps.map fun p => encode p.frame).flatten = stream Packet.bytes ps := by
  rw [stream, List.map_congr_left fun p hp => encode_frame (hps p hp)]

theorem carries_iff {c : Connection Event} {ps : List Packet} {rest : Bytes} :
    Carries c ps rest ↔ (∀ p ∈ ps, p.Sendable) ∧ c.received = stream Packet.bytes ps ++ rest ∧
      ∃ next : Packet, next.Sendable ∧ StrictPrefix rest next.bytes := by
  constructor
  · rintro ⟨hps, hbytes, next, hnext, hcut⟩
    exact ⟨hps, by rw [hbytes, encode_frames hps], next, hnext, encode_frame hnext ▸ hcut⟩
  · rintro ⟨hps, hbytes, next, hnext, hcut⟩
    exact ⟨hps, by rw [hbytes, encode_frames hps], next, hnext, (encode_frame hnext).symm ▸ hcut⟩

/-- A valid stream without its last chunk. -/
theorem Carries.before {c : Connection Event} {chunk : Bytes} {o : List Event}
    {ps : List Packet} {rest : Bytes}
    (h : Carries ⟨c.received ++ chunk, o⟩ ps rest) :
    ∃ pre post r, ps = pre ++ post ∧ Carries c pre r ∧
      r ++ chunk = stream Packet.bytes post ++ rest := by
  obtain ⟨hps, hbytes, next, hnext, hcut⟩ := carries_iff.mp h
  obtain ⟨pre, post, r, rfl, hr, hstrict⟩ := cut_stream Packet.bytes ps next rest c.received hcut
    ⟨chunk, hbytes⟩
  have hhead : (post.headD next).Sendable := by
    cases post with
    | nil => exact hnext
    | cons p post => exact hps p (by simp)
  refine ⟨pre, post, r, rfl, carries_iff.mpr ⟨fun p hp => hps p (by simp [hp]), hr, _, hhead,
    hstrict⟩, ?_⟩
  simp only [hr, stream_append, List.append_assoc] at hbytes
  exact List.append_cancel_left hbytes

theorem carries_nil {o : List Event} {ps : List Packet} {rest : Bytes}
    (h : Carries ⟨[], o⟩ ps rest) : ps = [] ∧ rest = [] := by
  obtain ⟨hps, hbytes, -⟩ := carries_iff.mp h
  obtain ⟨hstream, hrest⟩ := List.append_eq_nil_iff.mp hbytes.symm
  cases ps with
  | nil => exact ⟨rfl, hrest⟩
  | cons p ps =>
    rw [stream_cons] at hstream
    exact absurd (List.append_eq_nil_iff.mp hstream).1
      (decodes_sendable.nonempty p (hps p (by simp)))

/-! ## Connections that are lost between two frames -/

/-- The latest connection carries valid frames, and all before it were lost between two. -/
structure Lossless (s : State Event) : Prop where
  latest : ∀ c ∈ s.connections.head?, Valid c
  earlier : ∀ c ∈ s.connections.tail, Whole c

/-- What was carried was delivered, and nothing but the rest of it is unread. -/
structure Synced (s : State Event) : Prop where
  exact : ∀ c ∈ s.connections, Exact c
  returned : ∀ e, s.failure ≠ some (.messageCallback e)
  unread : ∀ c ∈ s.connections.head?, ∀ ps rest, Carries c ps rest → s.read_buf_.readable = rest
  fresh : s.connections = [] → s.read_buf_.readable = []
  known : s.link = .up → s.connections ≠ []

/-- A chunk of valid frames is decoded. -/
theorem onRead_exact {buf : Buffer} {chunk rest : Bytes} {post : List Packet}
    (hroom : chunk.length ≤ buf.writableBytes) (hpost : ∀ p ∈ post, p.Sendable)
    (hcut : ∃ next : Packet, next.Sendable ∧ StrictPrefix rest next.bytes)
    (hbytes : buf.readable ++ chunk = stream Packet.bytes post ++ rest) :
    ∃ buf', onRead onMessage buf chunk =
        .done (post.map fun p => Event.message p.delivery) buf' ∧ buf'.readable = rest := by
  obtain ⟨next, hnext, hstrict⟩ := hcut
  obtain ⟨b, hb, hcase⟩ := onRead_cases onMessage hroom
  obtain ⟨b', hrun, hread⟩ := run_frames decodes_sendable post next rest hpost hnext hstrict b
    (hb.trans hbytes) (b.readable.length + 1) (Nat.lt_succ_self _)
  have hcall : onMessage b = .done (post.map fun p => Event.message p.delivery) b' := hrun
  rcases hcase with ⟨o, b₁, buf', hdone, hon, hread', -⟩ | ⟨o, e, hfault, -⟩ | ⟨o, b₁, hspin, -⟩
  · rw [hcall] at hdone
    cases hdone
    exact ⟨buf', hon, hread'.trans hread⟩
  · simp [hcall] at hfault
  · simp [hcall] at hspin

/-- A step only adds to what was carried. -/
theorem lossless_before {s s' : State Event} {l : Label} (h : Step onMessage s l s')
    (hl : Lossless s') : Lossless s := by
  have hheard {chunk : Bytes} {o : List Event}
      (hl : (∀ c ∈ (heard s chunk o).head?, Valid c) ∧ ∀ c ∈ (heard s chunk o).tail, Whole c) :
      Lossless s := by
    cases hconn : s.connections with
    | nil => exact ⟨by simp [hconn], by simp [hconn]⟩
    | cons c cs =>
      simp only [heard, hconn, List.modifyHead_cons, List.head?_cons, Option.mem_some_iff,
        forall_eq', List.tail_cons] at hl
      obtain ⟨⟨ps, rest, hcarries⟩, hrest⟩ := hl
      obtain ⟨pre, post, r, -, hpre, -⟩ := hcarries.before
      refine ⟨?_, by simpa [hconn] using hrest⟩
      simp only [hconn, List.head?_cons, Option.mem_some_iff, forall_eq']
      exact ⟨pre, r, hpre⟩
  cases h with
  | connected _ _ =>
    have hwhole : ∀ c ∈ s.connections, Whole c := hl.earlier
    refine ⟨fun c hc => ?_, fun c hc => hwhole c (List.mem_of_mem_tail hc)⟩
    obtain ⟨ps, hps⟩ := hwhole c (List.mem_of_mem_head? hc)
    exact ⟨ps, [], hps⟩
  | received _ _ _ _ _ => exact hheard ⟨hl.latest, hl.earlier⟩
  | receivedFault _ _ _ _ _ => exact hheard ⟨hl.latest, hl.earlier⟩
  | sending _ _ => exact ⟨hl.latest, hl.earlier⟩
  | writeFailed _ _ => exact ⟨hl.latest, hl.earlier⟩
  | connectFailed _ _ => exact ⟨hl.latest, hl.earlier⟩
  | readFailed _ _ => exact ⟨hl.latest, hl.earlier⟩
  | timer _ _ => exact ⟨hl.latest, hl.earlier⟩

/-- A chunk of the latest connection. -/
theorem Synced.receive {s : State Event} (hs : Synced s) {c : Connection Event}
    {cs : List (Connection Event)} (hconn : s.connections = c :: cs) {chunk : Bytes}
    (hroom : chunk.length ≤ s.read_buf_.writableBytes) {ps : List Packet} {rest : Bytes}
    {o : List Event} (hcarries : Carries ⟨c.received ++ chunk, o⟩ ps rest) :
    ∃ pre post buf, ps = pre ++ post ∧ messages c = pre.map Packet.delivery ∧
      onRead onMessage s.read_buf_ chunk =
        .done (post.map fun p => Event.message p.delivery) buf ∧ buf.readable = rest := by
  obtain ⟨pre, post, r, hps, hpre, hbytes⟩ := hcarries.before
  obtain ⟨hvalid, -, hcut⟩ := carries_iff.mp hcarries
  have hunread : s.read_buf_.readable = r := hs.unread c (by simp [hconn]) pre r hpre
  have hpost : ∀ p ∈ post, p.Sendable := fun p hp => hvalid p (by simp [hps, hp])
  obtain ⟨buf, hread, hrest⟩ := onRead_exact hroom hpost hcut (by rw [hunread]; exact hbytes)
  exact ⟨pre, post, buf, hps, hs.exact c (by simp [hconn]) pre r hpre, hread, hrest⟩

theorem messages_heard (c : Connection Event) (chunk : Bytes) (post : List Packet) :
    messages ⟨c.received ++ chunk, c.events ++ post.map fun p => Event.message p.delivery⟩ =
      messages c ++ post.map Packet.delivery := by
  have hpost : (post.map fun p => Event.message p.delivery).filterMap Event.delivered =
      post.map Packet.delivery := by
    rw [List.filterMap_map]
    exact List.filterMap_eq_map_iff_forall_eq_some.mpr fun p _ => rfl
  rw [messages, List.filterMap_append, hpost]
  rfl

/-- What the latest connection has delivered with a chunk that was read. -/
theorem Synced.delivered {s : State Event} (hs : Synced s) {c : Connection Event}
    {cs : List (Connection Event)} (hconn : s.connections = c :: cs) {chunk : Bytes}
    (hroom : chunk.length ≤ s.read_buf_.writableBytes) {o : List Event} {buf : Buffer}
    (hread : onRead onMessage s.read_buf_ chunk = .done o buf) {ps : List Packet} {rest : Bytes}
    (hcarries : Carries ⟨c.received ++ chunk, c.events ++ o⟩ ps rest) :
    messages ⟨c.received ++ chunk, c.events ++ o⟩ = ps.map Packet.delivery ∧
      buf.readable = rest := by
  obtain ⟨pre, post, buf', rfl, hpre, hread', hrest⟩ := hs.receive hconn hroom hcarries
  rw [hread] at hread'
  cases hread'
  exact ⟨by rw [messages_heard, hpre, List.map_append], hrest⟩

/-- Connections that were all lost between two frames leave nothing unread. -/
theorem Synced.nothing_unread {s : State Event} (hs : Synced s)
    (hwhole : ∀ c ∈ s.connections, Whole c) : s.read_buf_.readable = [] := by
  cases hconn : s.connections with
  | nil => exact hs.fresh hconn
  | cons c cs =>
    obtain ⟨ps, hps⟩ := hwhole c (by simp [hconn])
    exact hs.unread c (by simp [hconn]) ps [] hps

theorem Synced.step {s s' : State Event} {l : Label} (hs : Synced s)
    (h : Step onMessage s l s') (hl : Lossless s') : Synced s' := by
  cases h with
  | connected _ _ =>
    refine ⟨?_, hs.returned, ?_, by simp, by simp⟩
    · intro c hc
      rcases List.mem_cons.mp hc with rfl | hc
      · intro ps rest hcarries
        rw [(carries_nil hcarries).1]
        rfl
      · exact hs.exact c hc
    · intro c hc ps rest hcarries
      obtain rfl : {} = c := by simpa using hc
      rw [hs.nothing_unread hl.earlier, (carries_nil hcarries).2]
  | @received chunk o buf _ hlink _ hroom hread =>
    obtain ⟨c, cs, hconn⟩ := List.exists_cons_of_ne_nil (hs.known hlink)
    have hnew : heard s chunk o = ⟨c.received ++ chunk, c.events ++ o⟩ :: cs := by
      simp [heard, hconn]
    refine ⟨?_, hs.returned, ?_, by simp [hnew], fun _ => by simp [hnew]⟩
    · intro c' hc'
      rw [hnew] at hc'
      rcases List.mem_cons.mp hc' with rfl | hc'
      · exact fun ps rest hcarries => (hs.delivered hconn hroom hread hcarries).1
      · exact hs.exact c' (by simp [hconn, hc'])
    · intro c' hc' ps rest hcarries
      obtain rfl : _ = c' := by simpa [hnew] using hc'
      exact (hs.delivered hconn hroom hread hcarries).2
  | @receivedFault chunk o e _ hlink _ hroom hread =>
    obtain ⟨c, cs, hconn⟩ := List.exists_cons_of_ne_nil (hs.known hlink)
    obtain ⟨ps, rest, hcarries⟩ := hl.latest ⟨c.received ++ chunk, c.events ++ o⟩
      (by simp [heard, hconn])
    obtain ⟨pre, post, buf, -, -, hread', -⟩ := hs.receive hconn hroom hcarries
    simp [hread] at hread'
  | writeFailed _ _ => exact ⟨hs.exact, by simp, hs.unread, hs.fresh, hs.known⟩
  | sending _ _ => exact ⟨hs.exact, hs.returned, hs.unread, hs.fresh, hs.known⟩
  | connectFailed _ _ => exact ⟨hs.exact, hs.returned, hs.unread, hs.fresh, by simp⟩
  | readFailed _ _ => exact ⟨hs.exact, hs.returned, hs.unread, hs.fresh, by simp⟩
  | timer _ _ => exact ⟨hs.exact, hs.returned, hs.unread, hs.fresh, by simp⟩

theorem synced_init : Synced init := by
  refine ⟨by simp [init], by simp [init], by simp [init], fun _ => ?_, by simp [init]⟩
  exact Buffer.readable_ofSize _

/-- Lost connections that were lost between two frames leave the stream in step. -/
theorem run_synced (ls : List Label) (s : State Event)
    (hr : Transition.run clientStep init ls = some s) (hl : Lossless s) : Synced s := by
  refine run_kept (I := fun s => Lossless s → Synced s) ?_ ls init s (fun _ => synced_init) hr hl
  intro s l s' hs hstep hl'
  obtain ⟨-, h⟩ := step_inv hstep
  exact (hs (lossless_before h hl')).step h hl'

/-! ## A connection that is lost inside a frame -/

/-- The parts of a delivery fill its frame. -/
theorem delivery_len {mem : Bytes} {l : Int} {d : Delivery} (h : decode mem l = .ok (some d)) :
    (d.servicename.length + 1 + d.methodname.length : Int) + d.datalen = l - 12 := by
  unfold decode at h
  simp only at h
  split at h
  · rename_i hname
    unfold slice at h
    split at h
    · rename_i hle
      simp only [ok_bind, pure_eq_ok, Except.ok.injEq] at h
      obtain ⟨⟨service, method⟩, hcut, rfl⟩ := Option.map_eq_some_iff.mp h
      have hparts := congrArg List.length (Cut.eq_of_cut hcut)
      rw [List.length_take, Nat.min_eq_left hle] at hparts
      simp only [List.length_append, List.length_singleton] at hparts
      simp only [kHeaderLen, kIdLen]
      omega
    · cases h
  · cases h

/-- A frame of another length delivers something else. -/
theorem len_of_delivery {mem : Bytes} {l : Int} {p : Packet}
    (h : decode mem l = .ok (some p.delivery)) : l = bodyLen p.frame := by
  have hlen := delivery_len h
  simp only [Packet.delivery, List.length_append, List.length_singleton] at hlen
  simp only [bodyLen, Packet.frame, Packet.name, List.length_append, List.length_cons]
  omega

/-- A packet that is sent behind the first part of `next`. -/
def probe (next : Packet) : Packet :=
  if bodyLen next.frame = 16 then ⟨0, [97], [98], [0]⟩ else ⟨0, [97], [98], []⟩

theorem probe_sendable (next : Packet) : (probe next).Sendable := by
  unfold probe
  split <;> exact ⟨by decide, by decide, by decide⟩

theorem probe_bodyLen (next : Packet) :
    bodyLen (probe next).frame ≠ bodyLen next.frame ∧ bodyLen (probe next).frame ≤ 17 := by
  unfold probe
  split
  · rename_i h
    rw [h]
    decide
  · rename_i h
    exact ⟨fun he => h (he.symm.trans (by decide)), by decide⟩

theorem probe_zeros (next : Packet) : [0, 0, 0] <+: (probe next).bytes := by
  unfold probe
  split <;> decide

/-- A length whose last byte is zero is none of a short frame. -/
theorem len_zero_byte (a b c : UInt8) (rest : Bytes) :
    len (a :: b :: c :: 0 :: rest) < 15 ∨ 255 < len (a :: b :: c :: 0 :: rest) := by
  have hbytes : BigEndian.ofBytes [a, b, c, 0] =
      ((a.toNat * 256 + b.toNat) * 256 + c.toNat) * 256 := by
    simp [BigEndian.ofBytes]
  have htake : (a :: b :: c :: 0 :: rest).take 4 = [a, b, c, 0] := rfl
  rw [len, asInt32, htake, hbytes, BitVec.toInt_eq_toNat_bmod, BitVec.toNat_ofNat, Int.bmod_def]
  have ha := a.toNat_lt
  have hb := b.toNat_lt
  have hc := c.toNat_lt
  omega

section

variable {next : Packet} {r x : Bytes}

/-- What can become of the probe: `x` of it has arrived behind `r`, `u` is unread and `ms`
was delivered. -/
inductive Spoiled (next : Packet) (r x : Bytes) : Bytes → List Delivery → Prop
  /-- nothing was consumed -/
  | held : Spoiled next r x (r ++ x) []
  /-- a frame was refused that ends inside the probe -/
  | short {u : Bytes} : u.length < x.length → Spoiled next r x u []
  /-- something else was delivered -/
  | wrong {u : Bytes} {d : Delivery} {ms : List Delivery} :
      d ≠ (probe next).delivery → Spoiled next r x u (d :: ms)

theorem probe_length (next : Packet) :
    (probe next).bytes.length = 4 + bodyLen (probe next).frame :=
  layout_length _

/-- A frame that starts in `r` has the length that stands there. -/
theorem held_len (hnext : next.Sendable) (hr : StrictPrefix r next.bytes) (hne : r ≠ [])
    (hx : x <+: (probe next).bytes) {back : Bytes}
    (hc : Complete (r ++ x ++ back) (r ++ x).length) :
    len (r ++ x ++ back) = bodyLen next.frame := by
  have h19 := hc.le
  have hxlen : x.length ≤ 21 := by
    have := hx.length_le
    have := probe_length next
    have := (probe_bodyLen next).2
    omega
  rw [List.length_append] at h19
  by_cases h4 : 4 ≤ r.length
  · obtain ⟨t, ht⟩ := hr.1
    have hmax := hnext.bodyLen_le
    have hlen : len (r ++ t) = bodyLen next.frame := by
      apply len_layout next.frame
      · simp only [kMaxMessageLen] at hmax
        omega
      · rw [ht]
        rfl
    rw [List.append_assoc, len_append h4, ← hlen, len_append h4]
  · -- the length ends in a zero of the probe
    exfalso
    obtain ⟨y, rfl⟩ : ∃ y, x = [0, 0, 0] ++ y := by
      have h3 := List.prefix_of_prefix_length_le (probe_zeros next) hx (by simp; omega)
      exact ⟨_, h3.choose_spec.symm⟩
    obtain ⟨hmin, -, hw⟩ := hc
    simp only [kMinMessageLen, kIdLen, kHeaderLen, List.length_append] at hmin hw hxlen
    have hzero : ∃ a b c rest, r ++ ([0, 0, 0] ++ y) ++ back = a :: b :: c :: 0 :: rest := by
      rcases r with _ | ⟨a, _ | ⟨b, _ | ⟨c, _ | ⟨d, r⟩⟩⟩⟩
      · exact absurd rfl hne
      · exact ⟨a, 0, 0, y ++ back, by simp⟩
      · exact ⟨a, b, 0, 0 :: (y ++ back), by simp⟩
      · exact ⟨a, b, c, 0 :: 0 :: (y ++ back), by simp⟩
      · exact absurd (by simp) h4
    obtain ⟨a, b, c, rest, he⟩ := hzero
    rw [he] at hmin hw
    rcases len_zero_byte a b c rest with h | h <;> omega

/-- A frame at the front ends inside the probe and is not as long as the probe. -/
theorem Spoiled.frame (hnext : next.Sendable) (hr : StrictPrefix r next.bytes) (hne : r ≠ [])
    (hx : x <+: (probe next).bytes) {buf : Buffer} (hs : Spoiled next r x buf.readable [])
    (hc : Complete buf.peek buf.readableBytes) :
    buf.readableBytes - (4 + len buf.peek).toNat < x.length ∧
      len buf.peek ≠ bodyLen (probe next).frame := by
  have hprobe := probe_length next
  have hle := hx.length_le
  have hw := hc.whole
  simp only [kHeaderLen] at hw
  generalize hu : buf.readable = u at hs
  have hunread : buf.readableBytes = u.length := by rw [← hu, buf.readable_length]
  cases hs with
  | short hlt => exact ⟨by omega, by omega⟩
  | held =>
    obtain ⟨back, hpeek⟩ := buf.peek_eq
    have hlen : len buf.peek = bodyLen next.frame := by
      rw [hpeek, hu] at hc ⊢
      rw [hunread] at hc
      exact held_len hnext hr hne hx hc
    have hlt := hr.length_lt
    have hbytes : next.bytes.length = 4 + bodyLen next.frame := layout_length _
    have hother := (probe_bodyLen next).1
    rw [List.length_append] at hunread
    exact ⟨by omega, by omega⟩

/-- One turn of the decoder. -/
theorem Spoiled.turn (hnext : next.Sendable) (hr : StrictPrefix r next.bytes) (hne : r ≠ [])
    (hx : x <+: (probe next).bytes) {buf buf' : Buffer} {o : List Event} {ms : List Delivery}
    (hs : Spoiled next r x buf.readable ms)
    (ht : Codec.turn buf = .leave o buf' ∨ Codec.turn buf = .again o buf') :
    Spoiled next r x buf'.readable (ms ++ o.filterMap Event.delivered) := by
  cases ms with
  | cons d ms =>
    generalize buf.readable = u at hs
    cases hs with
    | wrong hd => exact .wrong hd
  | nil =>
    rcases ht with ht | ht
    · cases does_of_eq ht with
      | short _ => exact hs
      | invalidLength _ _ => exact hs
      | wait _ _ => exact hs
      | rejected hc _ _ hread =>
        refine .short ?_
        rw [hread, List.length_drop, buf.readable_length]
        exact (hs.frame hnext hr hne hx hc).1
    · cases does_of_eq ht with
      | delivered hc hd _ _ =>
        refine .wrong fun he => (hs.frame hnext hr hne hx hc).2 ?_
        exact len_of_delivery (he ▸ hd)

/-- One call of `onMessage`. -/
theorem Spoiled.ends (hnext : next.Sendable) (hr : StrictPrefix r next.bytes) (hne : r ≠ [])
    (hx : x <+: (probe next).bytes) {buf buf' : Buffer} {o : List Event} {ms : List Delivery}
    (hs : Spoiled next r x buf.readable ms) (h : Ends Codec.turn buf o buf') :
    Spoiled next r x buf'.readable (ms ++ o.filterMap Event.delivered) := by
  induction h generalizing ms with
  | leave ht => exact hs.turn hnext hr hne hx (Or.inl ht)
  | again ht _ ih =>
    rw [List.filterMap_append, ← List.append_assoc]
    exact ih (hs.turn hnext hr hne hx (Or.inr ht))

theorem Spoiled.push {u : Bytes} {ms : List Delivery} (hs : Spoiled next r x u ms) (b : UInt8) :
    Spoiled next r (x ++ [b]) (u ++ [b]) ms := by
  cases hs with
  | held => exact List.append_assoc r x [b] ▸ .held
  | short hlt => exact .short (by simpa using hlt)
  | wrong hd => exact .wrong hd

theorem Spoiled.not_delivered {u : Bytes} {ms : List Delivery} (hs : Spoiled next r x u ms) :
    ms ≠ [(probe next).delivery] := by
  cases hs with
  | held => simp
  | short _ => simp
  | wrong hd => simp [hd]

/-- The probe arrives byte by byte. The decoder leaves the vector on the way, or the probe is
not what is delivered. -/
theorem run_spoiled (hnext : next.Sendable) (hr : StrictPrefix r next.bytes) (hne : r ≠ [])
    (y x : Bytes) (hy : x ++ y = (probe next).bytes) (s : State Event) (ev : List Event)
    (cs : List (Connection Event)) (hfail : s.failure = none) (hpc : s.session.pc = .idle)
    (hlink : s.link = .up) (hroom : 1 ≤ s.read_buf_.writableBytes)
    (hconn : s.connections = ⟨x, ev⟩ :: cs)
    (hs : Spoiled next r x s.read_buf_.readable (ev.filterMap Event.delivered)) :
    ∃ ls t d, Transition.run clientStep s ls = some t ∧ t.connections = d :: cs ∧
      d.received <+: (probe next).bytes ∧
      ((∃ e, t.failure = some (.messageCallback e)) ∨
        d.received = (probe next).bytes ∧ messages d ≠ [(probe next).delivery]) := by
  induction y generalizing x s ev with
  | nil =>
    rw [List.append_nil] at hy
    exact ⟨[], s, ⟨x, ev⟩, rfl, hconn, hy ▸ List.prefix_refl x, Or.inr ⟨hy, hs.not_delivered⟩⟩
  | cons b y ih =>
    have hy' : (x ++ [b]) ++ y = (probe next).bytes := by simpa using hy
    have hx : x ++ [b] <+: (probe next).bytes := ⟨y, hy'⟩
    have hheard (o : List Event) : heard s [b] o = ⟨x ++ [b], ev ++ o⟩ :: cs := by
      simp [heard, hconn]
    obtain ⟨b₁, hread, hcase⟩ :=
      onRead_cases onMessage (show [b].length ≤ s.read_buf_.writableBytes from hroom)
    rcases hcase with ⟨o, b', buf, hdone, hon, hread', hwritable⟩ | ⟨o, e, -, hon⟩ |
      ⟨o, b', hspin, -⟩
    · have hstep : clientStep s (.received [b]) =
          some { s with read_buf_ := buf, connections := heard s [b] o } := by
        simp [clientStep, step, hfail, hpc, hlink, hroom, hon]
      have hnow : Spoiled next r (x ++ [b]) buf.readable
          ((ev ++ o).filterMap Event.delivered) := by
        have hpush := hs.push b
        rw [← hread] at hpush
        rw [hread', List.filterMap_append]
        exact hpush.ends hnext hr hne hx ((onMessage_done_iff _ _ _).mp hdone)
      obtain ⟨ls, t, d, hrun, hrest⟩ := ih (x ++ [b]) hy'
        { s with read_buf_ := buf, connections := heard s [b] o } (ev ++ o) hfail hpc hlink
        hwritable (hheard o) hnow
      exact ⟨.received [b] :: ls, t, d, (run_cons_eq_some _ _ _ _).mpr ⟨_, hstep, hrun⟩, hrest⟩
    · have hstep : clientStep s (.received [b]) = some { s with
          failure := some (.messageCallback e), connections := heard s [b] o } := by
        simp [clientStep, step, hfail, hpc, hlink, hroom, hon]
      exact ⟨[.received [b]], _, ⟨x ++ [b], ev ++ o⟩,
        (run_cons_eq_some _ _ _ _).mpr ⟨_, hstep, rfl⟩, hheard o, hx, Or.inl ⟨e, rfl⟩⟩
    · exact absurd hspin (onMessage_ne_spin _ _ _)

end

theorem valid_of_start {p : Packet} (hp : p.Sendable) {c : Connection Event}
    (h : c.received <+: p.bytes) : Valid c := by
  by_cases he : c.received = p.bytes
  · refine ⟨[p], [], carries_iff.mpr ⟨by simpa using hp, by simp [he], p, hp, ?_⟩⟩
    exact ⟨List.nil_prefix, (decodes_sendable.nonempty p hp).symm⟩
  · exact ⟨[], c.received, carries_iff.mpr ⟨by simp, by simp, p, hp, h, he⟩⟩

/-! ## Reconnecting -/

/-- Every connection had delivered exactly what it carried, and every call of the decoder
stayed inside the vector. -/
structure Faithful (s : State Event) : Prop where
  exact : ∀ c ∈ s.connections, Exact c
  returned : ∀ e, s.failure ≠ some (.messageCallback e)

/-- Behind a lost connection the session waits to connect again. -/
theorem lost_state {ls : List Label} {s : State Event}
    (hr : Transition.run clientStep init (ls ++ [.readFailed]) = some s) :
    s.failure = none ∧ s.session.pc = .idle ∧ s.link = .waiting := by
  rw [run_append] at hr
  obtain ⟨s₀, -, hlast⟩ := Option.bind_eq_some_iff.mp hr
  obtain ⟨s₁, hlost, hs₁⟩ := (run_cons_eq_some _ _ _ _).mp hlast
  cases hs₁
  obtain ⟨hfail, hstep⟩ := step_inv hlost
  cases hstep with
  | readFailed hpc _ => exact ⟨hfail, hpc, rfl⟩

/-- With the first part of a frame unread, the session connects again, at the second try, and
the probe arrives. -/
theorem reconnect_spoils {next : Packet} {r : Bytes} (hnext : next.Sendable)
    (hr : StrictPrefix r next.bytes) (hne : r ≠ []) (s : State Event)
    (hlost : s.failure = none ∧ s.session.pc = .idle ∧ s.link = .waiting)
    (hroom : 1 ≤ s.read_buf_.writableBytes) (hunread : s.read_buf_.readable = r) :
    ∃ ls t d, Transition.run clientStep s ls = some t ∧ t.connections = d :: s.connections ∧
      Valid d ∧ ¬ Faithful t := by
  obtain ⟨hfail, hpc, hlink⟩ := hlost
  let ops := if s.session.isOpen then s.session.ops else abort s.session.ops
  let up : State Event := { s with
    session := { s.session with isOpen := true, ops := abort (abort ops) }
    link := .up
    connections := {} :: s.connections }
  have hup : Transition.run clientStep s [.timer, .connectFailed, .timer, .connected] =
      some up := by
    simp [Transition.run, clientStep, step, hfail, hpc, hlink, up, ops]
  have hheld : Spoiled next r [] up.read_buf_.readable [] := by
    rw [show up.read_buf_.readable = r ++ [] by rw [List.append_nil]; exact hunread]
    exact .held
  obtain ⟨ls, t, d, hrun, ht, hpre, hbad⟩ := run_spoiled hnext hr hne _ [] rfl up []
    s.connections hfail hpc rfl hroom rfl hheld
  have hfull := (run_append_of _ _ _ ls hup).trans hrun
  refine ⟨[.timer, .connectFailed, .timer, .connected] ++ ls, t, d, hfull, ht,
    valid_of_start (probe_sendable next) hpre, fun hfaithful => ?_⟩
  rcases hbad with ⟨e, he⟩ | ⟨hreceived, hmessages⟩
  · exact hfaithful.returned e he
  · have hprobe : Carries d [probe next] [] :=
      carries_iff.mpr ⟨by simpa using probe_sendable next, by simp [hreceived], next, hnext,
        List.nil_prefix, (decodes_sendable.nonempty next hnext).symm⟩
    exact hmessages (hfaithful.exact d (by simp [ht]) _ _ hprobe)

/-- **A clean stream after a reconnect.** Let the connections before the latest one have been
lost between two frames, and the latest be lost now. Whatever valid frames the next one
carries, exactly those are delivered, if and only if the latest was lost between two frames
as well. -/
theorem clean_stream_iff (ls : List Label) (s : State Event) (c : Connection Event)
    (cs : List (Connection Event))
    (hr : Transition.run clientStep init (ls ++ [.readFailed]) = some s)
    (hconn : s.connections = c :: cs) (hc : Valid c) (hcs : ∀ c' ∈ cs, Whole c') :
    (∀ ls' t d, Transition.run clientStep s ls' = some t → t.connections = d :: s.connections →
      Valid d → Faithful t) ↔ Whole c := by
  have hlossless : Lossless s := by
    refine ⟨?_, by simpa [hconn] using hcs⟩
    simpa [hconn] using hc
  constructor
  · intro hall
    by_contra hcut
    obtain ⟨ps, r, hcarries⟩ := hc
    obtain ⟨-, -, next, hnext, hstrict⟩ := carries_iff.mp hcarries
    have hne : r ≠ [] := by
      rintro rfl
      exact hcut ⟨ps, hcarries⟩
    have hunread : s.read_buf_.readable = r :=
      (run_synced _ s hr hlossless).unread c (by simp [hconn]) ps r hcarries
    obtain ⟨ls', t, d, hrun, ht, hd, hnot⟩ :=
      reconnect_spoils hnext hstrict hne s (lost_state hr) (run_roomy _ s hr) hunread
    exact hnot (hall ls' t d hrun ht hd)
  · intro hwhole ls' t d hrun ht hd
    have hrun' : Transition.run clientStep init ((ls ++ [.readFailed]) ++ ls') = some t := by
      rw [run_append_of _ _ _ _ hr]
      exact hrun
    have hsynced : Synced t := by
      apply run_synced _ t hrun'
      refine ⟨by simpa [ht] using hd, ?_⟩
      intro c' hc'
      rw [ht, List.tail_cons, hconn] at hc'
      rcases List.mem_cons.mp hc' with rfl | hc'
      · exact hwhole
      · exact hcs c' hc'
    exact ⟨hsynced.exact, hsynced.returned⟩

/-- The packet of the frame `named`. -/
def small : Packet := ⟨7, [97], [98], []⟩

theorem small_sendable : small.Sendable := ⟨by decide, by decide, by decide⟩

theorem carries_named (o : List Event) : Carries ⟨named, o⟩ [small] [] := by
  have hbytes : named = stream Packet.bytes [small] ++ [] := by decide
  exact carries_iff.mpr
    ⟨by simpa using small_sendable, hbytes, small, small_sendable, by decide⟩

theorem clean_stream_iff_named :
    ∃ s, Transition.run clientStep init ([.connected, .received named] ++ [.readFailed]) = some s ∧
      ∀ ls' t d, Transition.run clientStep s ls' = some t → t.connections = d :: s.connections →
        Valid d → Faithful t := by
  have hview : (Transition.run clientStep init
      ([.connected, .received named] ++ [.readFailed])).map (fun s => s.connections) =
      some [⟨named, [.message small.delivery]⟩] := by
    decide +kernel
  obtain ⟨s, hs, hconn⟩ := Option.map_eq_some_iff.mp hview
  have hwhole : Whole ⟨named, [.message small.delivery]⟩ := ⟨[small], carries_named _⟩
  exact ⟨s, hs, (clean_stream_iff _ s _ [] hs hconn ⟨[small], [], carries_named _⟩
    (by simp)).mpr hwhole⟩

/-- Ten bytes of a frame arrive before the first connection is lost; the second carries the
whole frame, and it is not delivered. -/
theorem frame_lost_after_reconnect :
    ∃ t c d, Transition.run clientStep init [.connected, .received (named.take 10), .readFailed,
        .timer, .connectFailed, .timer, .connected, .received named] = some t ∧
      t.connections = [d, c] ∧ Valid c ∧ Carries d [small] [] ∧ messages d = [] := by
  have hview : (Transition.run clientStep init [.connected, .received (named.take 10),
      .readFailed, .timer, .connectFailed, .timer, .connected, .received named]).map
        (fun s => s.connections) =
      some [⟨named, [.error .kInvalidNameLen]⟩, ⟨named.take 10, []⟩] := by
    decide +kernel
  obtain ⟨t, ht, hconn⟩ := Option.map_eq_some_iff.mp hview
  have hvalid : Valid ⟨named.take 10, []⟩ := by
    apply valid_of_start small_sendable
    decide
  exact ⟨t, _, _, ht, hconn, hvalid, carries_named _, rfl⟩

end Cppim.Rpc.Client
