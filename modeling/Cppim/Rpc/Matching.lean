import Cppim.Rpc.System
import Mathlib.Data.Multiset.Range
import Mathlib.Tactic.Abel

/-! Which response completes which call. The two streams carry exactly the frames
of the recorded calls (`toServer`, `toClient`), the table of outstanding calls
maps an id to the call of that number (`table`), and every call is in exactly
one place (`conserved`). `calls_matched` follows for every run. -/

namespace Cppim.Rpc.System

open Cppim.Common Cppim.Lib Cppim.Lib.Loop Cppim.Lib.Framing Cppim.Lib.Transition
open Cppim.Rpc.Codec Cppim.Rpc.Channel

/-! ## The frames of a call -/

/-- The request of a call on the wire. -/
def requestPacket (q : Issued) : Packet :=
  ⟨BitVec.ofNat 64 q.number, q.call.method.service, q.call.method.name, q.call.request⟩

/-- A response to a call on the wire; its name has kept the zero of the request's. -/
def responsePacket (p : Issued × Bytes) : Packet :=
  ⟨BitVec.ofNat 64 p.1.number ||| 0x8000000000000000, p.1.call.method.service,
    p.1.call.method.name ++ [0], p.2⟩

theorem ok_or_blocks (p : Packet) (hs : p.service ≠ []) (hm : p.method ≠ []) (hc : 58 ∉ p.service)
    (hn : p.name.length + 1 < 2 ^ 31) (hb : p.message.length < 2 ^ 31) :
    p.WellFormed ∨ Blocks turn Buffer.readable Packet.bytes p := by
  by_cases hfit : bodyLen p.frame ≤ kMaxMessageLen
  · exact Or.inl ⟨hs, hm, hc, hfit⟩
  · exact Or.inr (oversize_blocks p hn hb (by omega))

theorem requestPacket_name_lt (q : Issued) : (requestPacket q).name.length + 1 < 2 ^ 31 := by
  have := q.call.method.short
  simp [Packet.name, requestPacket]
  omega

theorem responsePacket_name_lt (p : Issued × Bytes) :
    (responsePacket p).name.length + 1 < 2 ^ 31 := by
  have := p.1.call.method.short
  simp [Packet.name, responsePacket]
  omega

theorem requestPacket_ok (q : Issued) :
    (requestPacket q).WellFormed ∨ Blocks turn Buffer.readable Packet.bytes (requestPacket q) :=
  ok_or_blocks _ q.call.method.service_ne q.call.method.name_ne q.call.method.colon
    (requestPacket_name_lt q) q.call.request_lt

theorem responsePacket_ok (p : Issued × Bytes) (hp : p.2.length < 2 ^ 31) :
    (responsePacket p).WellFormed ∨ Blocks turn Buffer.readable Packet.bytes (responsePacket p) :=
  ok_or_blocks _ p.1.call.method.service_ne (by simp [responsePacket]) p.1.call.method.colon
    (responsePacket_name_lt p) hp

/-- Some frame that the decoder takes. -/
def somePacket : Packet := ⟨0, [0], [0], []⟩

theorem somePacket_ok : somePacket.WellFormed :=
  ⟨by decide, by decide, by decide, by decide⟩

theorem ofNat_inj {j k : Nat} (hj : j < 2 ^ 63) (hk : k < 2 ^ 63)
    (h : BitVec.ofNat 64 j = BitVec.ofNat 64 k) : j = k := by
  have := congrArg BitVec.toNat h
  simp only [BitVec.toNat_ofNat] at this
  omega

theorem requestPacket_delivery (q : Issued) (h : q.number < 2 ^ 63) :
    (requestPacket q).delivery = ⟨false, BitVec.ofNat 64 q.number, q.call.method.service,
      q.call.method.name ++ [0], q.call.request, q.call.request.length⟩ := by
  have hid : (BitVec.ofNat 64 q.number).toNat < 2 ^ 63 := by
    rw [BitVec.toNat_ofNat]
    omega
  obtain ⟨hmsb, hmask, _⟩ := id_bits hid
  simp only [Packet.delivery, requestPacket, hmsb, hmask]

theorem responsePacket_delivery (p : Issued × Bytes) (h : p.1.number < 2 ^ 63) :
    (responsePacket p).delivery = ⟨true, BitVec.ofNat 64 p.1.number, p.1.call.method.service,
      p.1.call.method.name ++ [0] ++ [0], p.2, p.2.length⟩ := by
  have hid : (BitVec.ofNat 64 p.1.number).toNat < 2 ^ 63 := by
    rw [BitVec.toNat_ofNat]
    omega
  obtain ⟨_, _, hmsb, hmask⟩ := id_bits hid
  simp only [Packet.delivery, responsePacket, hmsb, hmask]

/-! ## The invariant -/

/-- The call of that number was made. -/
def Known (s : State) (q : Issued) : Prop := s.calls[q.number]? = some q.call

/-- The calls that `CallMethod` has registered and not sent yet. -/
def registered (calling : List Calling) : List Issued :=
  (calling.filter (·.registered)).map (·.issued)

/-- The calls that wait for a response in the table. -/
def awaited (s : State) : List Issued :=
  registered s.calling ++ s.requests ++ s.running.map (·.issued) ++ s.responses.map (·.1)

theorem mem_awaited {s : State} {q : Issued} : q ∈ awaited s ↔
    (∃ t ∈ s.calling, t.registered = true ∧ t.issued = q) ∨ q ∈ s.requests ∨
      (∃ r ∈ s.running, r.issued = q) ∨ ∃ p ∈ s.responses, p.1 = q := by
  simp only [awaited, registered, List.mem_append, List.mem_map, List.mem_filter, and_assoc,
    or_assoc]

/-- The numbers of the calls, place by place: in `CallMethod`, in a request, with a
service, in a response, completed, dropped. -/
def places (s : State) : Multiset Nat :=
  (s.calling.map (·.issued.number) : Multiset Nat) + s.requests.map (·.number) +
    s.running.map (·.issued.number) + s.responses.map (·.1.number) + s.completed.map (·.done) +
    s.lost

structure Inv (s : State) : Prop where
  id : s.client.id_ = BitVec.ofNat 64 s.calls.length
  calling : ∀ t ∈ s.calling, Known s t.issued ∧ t.id = BitVec.ofNat 64 t.issued.number
  requests : ∀ q ∈ s.requests, Known s q
  toServer : s.server.read_buf_.readable ++ s.toServer =
    stream Packet.bytes (s.requests.map requestPacket)
  running : ∀ r ∈ s.running, Known s r.issued ∧ r.request = r.issued.call.request ∧
    r.name = closureName r.issued.call.method.service (r.issued.call.method.name ++ [0])
      (BitVec.ofNat 64 r.issued.number)
  responses : ∀ p ∈ s.responses, Known s p.1 ∧ p.2.length < 2 ^ 31 ∧
    ⟨p.1, p.1.call.request, p.2⟩ ∈ s.produced
  toClient : s.client.read_buf_.readable ++ s.toClient =
    stream Packet.bytes (s.responses.map responsePacket)
  table : ∀ id out, s.client.outstandings_ id = some out →
    ∃ q, Known s q ∧ id = BitVec.ofNat 64 q.number ∧ out = ⟨q.call.response, q.number⟩
  present : ∀ q ∈ awaited s, s.client.outstandings_ (BitVec.ofNat 64 q.number) ≠ none
  completed : ∀ c ∈ s.completed, ∃ call, s.calls[c.done]? = some call ∧
    call.response c.payload = true ∧ ⟨⟨c.done, call⟩, call.request, c.payload⟩ ∈ s.produced
  conserved : places s = Multiset.range s.calls.length

theorem Known.lt {s : State} {q : Issued} (h : Known s q) : q.number < s.calls.length :=
  (List.getElem?_eq_some_iff.mp h).1

theorem inv_init : Inv init := by
  have hbuf : RpcChannel.new.read_buf_.readable = [] := Buffer.readable_ofSize _
  constructor
  case id => rfl
  case toServer => simpa [init] using hbuf
  case toClient => simpa [init] using hbuf
  case table => simp [init, RpcChannel.new]
  case conserved => simp [places, init]
  all_goals simp [init, awaited, registered]

/-- Taking the element at an index out of a list. -/
theorem coe_map_eraseIdx {α : Type} (f : α → Nat) (l : List α) (i : Nat) (x : α)
    (h : l[i]? = some x) :
    ((l.map f : List Nat) : Multiset Nat) = {f x} + ((l.eraseIdx i).map f : List Nat) := by
  obtain ⟨hi, rfl⟩ := List.getElem?_eq_some_iff.mp h
  have hperm := (List.getElem_cons_eraseIdx_perm hi).map f
  rw [← Multiset.coe_eq_coe.mpr hperm]
  rfl

/-! ## One step -/

theorem inv_fetch {s : State} (hi : Inv s) (call : Call) :
    Inv { s with
      client.id_ := s.client.id_ + 1
      calling := s.calling ++ [⟨⟨s.calls.length, call⟩, s.client.id_, false⟩]
      calls := s.calls ++ [call] } := by
  have keep {q : Issued} (h : Known s q) : (s.calls ++ [call])[q.number]? = some q.call := by
    rw [List.getElem?_append_left h.lt]
    exact h
  constructor
  case id => simp [hi.id, BitVec.ofNat_add]
  case calling =>
    intro t ht
    rcases List.mem_append.mp ht with ht | ht
    · exact ⟨keep (hi.calling t ht).1, (hi.calling t ht).2⟩
    · cases List.mem_singleton.mp ht
      exact ⟨List.getElem?_concat_length, hi.id⟩
  case requests => exact fun q hq => keep (hi.requests q hq)
  case toServer => exact hi.toServer
  case running => exact fun r hr => ⟨keep (hi.running r hr).1, (hi.running r hr).2⟩
  case responses => exact fun p hp => ⟨keep (hi.responses p hp).1, (hi.responses p hp).2⟩
  case toClient => exact hi.toClient
  case table =>
    intro id out h
    obtain ⟨q, hq, hid, hout⟩ := hi.table id out h
    exact ⟨q, keep hq, hid, hout⟩
  case present =>
    intro q hq
    refine hi.present q ?_
    simpa [awaited, registered] using hq
  case completed =>
    intro c hc
    obtain ⟨call', hcall, hp⟩ := hi.completed c hc
    exact ⟨call', keep (q := ⟨c.done, call'⟩) hcall, hp⟩
  case conserved =>
    have h := hi.conserved
    simp only [places, List.map_append, List.map_cons, List.map_nil, List.length_append,
      List.length_singleton, Multiset.range_succ, ← Multiset.singleton_add, ← h,
      ← Multiset.coe_add, Multiset.coe_singleton]
    abel

theorem inv_register {s : State} (hi : Inv s) (i : Nat) (t : Calling)
    (ht : s.calling[i]? = some t) :
    Inv { s with
      client.outstandings_ := Function.update s.client.outstandings_ t.id
        (some ⟨t.issued.call.response, t.issued.number⟩)
      calling := s.calling.set i { t with registered := true } } := by
  obtain ⟨hknown, hid⟩ := hi.calling t (List.mem_of_getElem? ht)
  exact { hi with
    calling := by
      intro t' ht'
      rcases List.mem_or_eq_of_mem_set ht' with ht' | rfl
      · exact hi.calling t' ht'
      · exact ⟨hknown, hid⟩
    table := by
      intro id out h
      dsimp only at h
      by_cases he : id = t.id
      · subst he
        rw [Function.update_self] at h
        cases h
        exact ⟨t.issued, hknown, hid, rfl⟩
      · rw [Function.update_of_ne he] at h
        exact hi.table id out h
    present := by
      intro q hq
      dsimp only
      by_cases he : BitVec.ofNat 64 q.number = t.id
      · rw [he, Function.update_self]
        simp
      · rw [Function.update_of_ne he]
        refine hi.present q (mem_awaited.mpr ?_)
        rcases mem_awaited.mp hq with ⟨t', ht', hr, rfl⟩ | hq
        · rcases List.mem_or_eq_of_mem_set ht' with ht' | rfl
          · exact Or.inl ⟨t', ht', hr, rfl⟩
          · exact absurd hid.symm he
        · exact Or.inr hq
    conserved := by
      have hsame : (s.calling.set i { t with registered := true }).map (·.issued.number) =
          s.calling.map (·.issued.number) := map_set_of_eq ht rfl
      have h := hi.conserved
      simp only [places, hsame] at h ⊢
      exact h }

theorem inv_send {s : State} (hi : Inv s) (i : Nat) (t : Calling) (ht : s.calling[i]? = some t)
    (hr : t.registered = true) :
    Inv { s with
      calling := s.calling.eraseIdx i
      toServer := s.toServer ++ encode ⟨t.id,
        t.issued.call.method.service ++ [58] ++ t.issued.call.method.name, t.issued.call.request⟩
      requests := s.requests ++ [t.issued] } := by
  have hmem : t ∈ s.calling := List.mem_of_getElem? ht
  obtain ⟨hknown, hid⟩ := hi.calling t hmem
  have hbytes : encode ⟨t.id, t.issued.call.method.service ++ [58] ++ t.issued.call.method.name,
      t.issued.call.request⟩ = (requestPacket t.issued).bytes := by
    have hframe : (⟨t.id, t.issued.call.method.service ++ [58] ++ t.issued.call.method.name,
        t.issued.call.request⟩ : Frame) = (requestPacket t.issued).frame := by
      simp [Packet.frame, Packet.name, requestPacket, hid]
    rw [hframe, Packet.bytes, encode_eq_layout _ (requestPacket_name_lt t.issued)]
  exact { hi with
    calling := fun t ht => hi.calling t (List.mem_of_mem_eraseIdx ht)
    requests := by
      intro q hq
      rcases List.mem_append.mp hq with hq | hq
      · exact hi.requests q hq
      · cases List.mem_singleton.mp hq
        exact hknown
    toServer := by
      show s.server.read_buf_.readable ++ (s.toServer ++ encode _) = _
      rw [← List.append_assoc, hi.toServer, hbytes, List.map_append, stream_append]
      simp
    present := by
      intro q hq
      refine hi.present q (mem_awaited.mpr ?_)
      rcases mem_awaited.mp hq with ⟨t', ht', hr', rfl⟩ | hq | hq
      · exact Or.inl ⟨t', List.mem_of_mem_eraseIdx ht', hr', rfl⟩
      · rcases List.mem_append.mp hq with hq | hq
        · exact Or.inr (Or.inl hq)
        · cases List.mem_singleton.mp hq
          exact Or.inl ⟨t, hmem, hr, rfl⟩
      · exact Or.inr (Or.inr hq)
    conserved := by
      have h := hi.conserved
      simp only [places,
        coe_map_eraseIdx (fun t : Calling => t.issued.number) s.calling i t ht] at h
      simp only [places, ← h, List.map_append, List.map_cons, List.map_nil, ← Multiset.coe_add,
        Multiset.coe_singleton]
      abel }

theorem inv_serverRead {s : State} (hi : Inv s) (n : Nat) (server : RpcChannel)
    (h : s.server.read s.toServer n = some server) :
    Inv { s with server := server, toServer := s.toServer.drop n } := by
  obtain ⟨_, _, hr⟩ := read_some h
  exact { hi with
    toServer := by
      show server.read_buf_.readable ++ s.toServer.drop n = _
      rw [hr, List.append_assoc, List.take_append_drop]
      exact hi.toServer }

theorem inv_clientRead {s : State} (hi : Inv s) (n : Nat) (client : RpcChannel)
    (h : s.client.read s.toClient n = some client) :
    Inv { s with client := client, toClient := s.toClient.drop n } := by
  obtain ⟨hid, hout, hr⟩ := read_some h
  exact { hi with
    id := hid.trans hi.id
    toClient := by
      show client.read_buf_.readable ++ s.toClient.drop n = _
      rw [hr, List.append_assoc, List.take_append_drop]
      exact hi.toClient
    table := by
      show ∀ id out, client.outstandings_ id = some out → _
      rw [hout]
      exact hi.table
    present := by
      show ∀ q ∈ awaited s, client.outstandings_ _ ≠ none
      rw [hout]
      exact hi.present }

/-- A running service answers with a response frame of its call. -/
theorem Inv.doneCallback {s : State} (hi : Inv s) {r : Running} (hr : r ∈ s.running)
    (response : Bytes) :
    doneCallback response r.name = some (responsePacket (r.issued, response)).frame := by
  obtain ⟨_, _, hname⟩ := hi.running r hr
  rw [hname, doneCallback_closureName]
  simp [Packet.frame, Packet.name, responsePacket]

theorem inv_finish {s : State} (hi : Inv s) (i : Nat) (r : Running) (response : Bytes)
    (hr : s.running[i]? = some r) (hlen : response.length < 2 ^ 31) :
    Inv { s with
      running := s.running.eraseIdx i
      toClient := s.toClient ++ encode (responsePacket (r.issued, response)).frame
      produced := s.produced ++ [⟨r.issued, r.request, response⟩]
      responses := s.responses ++ [(r.issued, response)] } := by
  have hmem : r ∈ s.running := List.mem_of_getElem? hr
  obtain ⟨hknown, hreq, _⟩ := hi.running r hmem
  exact { hi with
    running := fun r hr => hi.running r (List.mem_of_mem_eraseIdx hr)
    responses := by
      intro p hp
      rcases List.mem_append.mp hp with hp | hp
      · obtain ⟨hk, hl, hprod⟩ := hi.responses p hp
        exact ⟨hk, hl, List.mem_append_left _ hprod⟩
      · cases List.mem_singleton.mp hp
        exact ⟨hknown, hlen, by simp [hreq]⟩
    toClient := by
      show s.client.read_buf_.readable ++ (s.toClient ++ encode _) = _
      rw [← List.append_assoc, hi.toClient, encode_eq_layout _ (responsePacket_name_lt _),
        List.map_append, stream_append]
      simp [Packet.bytes]
    present := by
      intro q hq
      refine hi.present q (mem_awaited.mpr ?_)
      rcases mem_awaited.mp hq with hq | hq | ⟨r', hr', rfl⟩ | ⟨p, hp, rfl⟩
      · exact Or.inl hq
      · exact Or.inr (Or.inl hq)
      · exact Or.inr (Or.inr (Or.inl ⟨r', List.mem_of_mem_eraseIdx hr', rfl⟩))
      · rcases List.mem_append.mp hp with hp | hp
        · exact Or.inr (Or.inr (Or.inr ⟨p, hp, rfl⟩))
        · cases List.mem_singleton.mp hp
          exact Or.inr (Or.inr (Or.inl ⟨r, hmem, rfl⟩))
    completed := by
      intro c hc
      obtain ⟨call, hcall, hparse, hp⟩ := hi.completed c hc
      exact ⟨call, hcall, hparse, List.mem_append_left _ hp⟩
    conserved := by
      have h := hi.conserved
      simp only [places,
        coe_map_eraseIdx (fun r : Running => r.issued.number) s.running i r hr] at h
      simp only [places, ← h, List.map_append, List.map_cons, List.map_nil, ← Multiset.coe_add,
        Multiset.coe_singleton]
      abel }

/-- The server finds the service and the method of a call and parses its request. -/
def Accepted (services : Option Services) (q : Issued) : Prop :=
  checkRequest services q.call.method.service (q.call.method.name ++ [0]) q.call.request = .NO_ERROR

/-- What a turn of the server's loop does: nothing, or it takes the first request
off the stream and starts its service, or drops it. -/
theorem serverTurn_cases {services : Option Services} {s s' : State} (hi : Inv s)
    (hcalls : s.calls.length ≤ 2 ^ 63) (h : Step services s .serverTurn s') :
    (∃ o, turn s.server.read_buf_ = .leave o s.server.read_buf_ ∧
      s' = { s with server.reading := false }) ∨
    ∃ q rest buf, s.requests = q :: rest ∧ (requestPacket q).WellFormed ∧
      turn s.server.read_buf_ = .again [.message (requestPacket q).delivery] buf ∧
      buf.readable ++ s.toServer = stream Packet.bytes (rest.map requestPacket) ∧
      ((Accepted services q ∧ s' = { s with
          server.read_buf_ := buf
          requests := rest
          running := s.running ++ [⟨q, q.call.request, closureName q.call.method.service
            (q.call.method.name ++ [0]) (BitVec.ofNat 64 q.number)⟩] }) ∨
        (¬ Accepted services q ∧ s' = { s with
          server.read_buf_ := buf, requests := rest, lost := s.lost ++ [q.number] })) := by
  have hok : ∀ p ∈ s.requests.map requestPacket,
      p.WellFormed ∨ Blocks turn Buffer.readable Packet.bytes p := by
    intro p hp
    obtain ⟨q, _, rfl⟩ := List.mem_map.mp hp
    exact requestPacket_ok q
  rcases turn_in_transit decodes _ somePacket somePacket_ok hok _ _ hi.toServer with
    ⟨o, ht⟩ | ⟨p, ps, buf, hps, hwf, ht, hbuf⟩
  · cases h with
    | serverAgain out buf h => simp [ht] at h
    | serverLeave out buf h =>
      cases ht.symm.trans h
      exact Or.inl ⟨o, ht, rfl⟩
  · obtain ⟨q, rest, hreq, rfl, rfl⟩ := List.map_eq_cons_iff.mp hps
    have hlt : q.number < 2 ^ 63 :=
      Nat.lt_of_lt_of_le (hi.requests q (by simp [hreq])).lt hcalls
    cases h with
    | serverLeave out buf h => simp [ht] at h
    | serverAgain out buf' h =>
      cases ht.symm.trans h
      refine Or.inr ⟨q, rest, buf, hreq, hwf, ht, hbuf, ?_⟩
      simp only [List.foldl_cons, List.foldl_nil, State.serverEvent, State.serverMessage,
        requestPacket_delivery q hlt, onRpcMessage, Bool.false_eq_true, ↓reduceIte, hreq,
        List.headD_cons, List.tail_cons]
      by_cases hacc : Accepted services q
      · refine Or.inl ⟨hacc, ?_⟩
        rw [Accepted] at hacc
        simp only [hacc, ↓reduceIte]
      · refine Or.inr ⟨hacc, ?_⟩
        rw [Accepted] at hacc
        simp only [hacc, ↓reduceIte]

theorem Inv.awaited_known {s : State} (hi : Inv s) {q : Issued} (hq : q ∈ awaited s) :
    Known s q := by
  rcases mem_awaited.mp hq with ⟨t, ht, _, rfl⟩ | hq | ⟨r, hr, rfl⟩ | ⟨p, hp, rfl⟩
  · exact (hi.calling t ht).1
  · exact hi.requests q hq
  · exact (hi.running r hr).1
  · exact (hi.responses p hp).1

/-- The entry of a call that waits for its response is that call's. -/
theorem Inv.entry {s : State} (hi : Inv s) (hcalls : s.calls.length ≤ 2 ^ 63) {q : Issued}
    (hq : q ∈ awaited s) :
    s.client.outstandings_ (BitVec.ofNat 64 q.number) = some ⟨q.call.response, q.number⟩ := by
  have hknown := hi.awaited_known hq
  obtain ⟨out, hout⟩ := Option.ne_none_iff_exists'.mp (hi.present q hq)
  obtain ⟨q', hq', hid, rfl⟩ := hi.table _ out hout
  have hnum : q.number = q'.number := by
    have := hknown.lt
    have := hq'.lt
    exact ofNat_inj (by omega) (by omega) hid
  have hcall : q.call = q'.call := by
    have h : some q.call = some q'.call := by
      rw [← hknown, ← hq', hnum]
    exact Option.some.inj h
  rw [hout, hcall, hnum]

/-- What a turn of the client's loop does: nothing, or it takes the first response
off the stream, forgets its call and completes it, or drops it. -/
theorem clientTurn_cases {services : Option Services} {s s' : State} (hi : Inv s)
    (hcalls : s.calls.length ≤ 2 ^ 63) (h : Step services s .clientTurn s') :
    (∃ o, turn s.client.read_buf_ = .leave o s.client.read_buf_ ∧
      s' = { s with client.reading := false }) ∨
    ∃ q b rest buf, s.responses = (q, b) :: rest ∧ (responsePacket (q, b)).WellFormed ∧
      turn s.client.read_buf_ = .again [.message (responsePacket (q, b)).delivery] buf ∧
      buf.readable ++ s.toClient = stream Packet.bytes (rest.map responsePacket) ∧
      ((q.call.response b = true ∧ s' = { s with
          client.read_buf_ := buf
          client.outstandings_ :=
            Function.update s.client.outstandings_ (BitVec.ofNat 64 q.number) none
          responses := rest
          completed := s.completed ++ [⟨q.number, b⟩] }) ∨
        (q.call.response b = false ∧ s' = { s with
          client.read_buf_ := buf
          client.outstandings_ :=
            Function.update s.client.outstandings_ (BitVec.ofNat 64 q.number) none
          responses := rest
          lost := s.lost ++ [q.number] })) := by
  have hok : ∀ p ∈ s.responses.map responsePacket,
      p.WellFormed ∨ Blocks turn Buffer.readable Packet.bytes p := by
    intro p hp
    obtain ⟨r, hr, rfl⟩ := List.mem_map.mp hp
    exact responsePacket_ok r (hi.responses r hr).2.1
  rcases turn_in_transit decodes _ somePacket somePacket_ok hok _ _ hi.toClient with
    ⟨o, ht⟩ | ⟨p, ps, buf, hps, hwf, ht, hbuf⟩
  · cases h with
    | clientAgain out buf h => simp [ht] at h
    | clientLeave out buf h =>
      cases ht.symm.trans h
      exact Or.inl ⟨o, ht, rfl⟩
  · obtain ⟨⟨q, b⟩, rest, hresp, rfl, rfl⟩ := List.map_eq_cons_iff.mp hps
    have hknown : Known s q := (hi.responses (q, b) (by simp [hresp])).1
    have hentry := hi.entry hcalls (q := q) (by simp [awaited, hresp])
    cases h with
    | clientLeave out buf h => simp [ht] at h
    | clientAgain out buf' h =>
      cases ht.symm.trans h
      refine Or.inr ⟨q, b, rest, buf, hresp, hwf, ht, hbuf, ?_⟩
      simp only [List.foldl_cons, List.foldl_nil, State.clientEvent, State.clientMessage,
        responsePacket_delivery (q, b) (Nat.lt_of_lt_of_le hknown.lt hcalls), onRpcMessage,
        ↓reduceIte, hentry, hresp, List.headD_cons, List.tail_cons]
      cases hparse : q.call.response b with
      | true => exact Or.inl ⟨rfl, by simp only [↓reduceIte]⟩
      | false => exact Or.inr ⟨rfl, by simp only [Bool.false_eq_true, ↓reduceIte]⟩

theorem inv_serverTurn {services : Option Services} {s s' : State} (hi : Inv s)
    (hcalls : s.calls.length ≤ 2 ^ 63) (h : Step services s .serverTurn s') : Inv s' := by
  rcases serverTurn_cases hi hcalls h with
    ⟨_, _, rfl⟩ | ⟨q, rest, buf, hreq, _, _, hbuf, ⟨_, rfl⟩ | ⟨_, rfl⟩⟩
  · exact { hi with }
  · have hknown : Known s q := hi.requests q (by simp [hreq])
    exact { hi with
      requests := fun q hq => hi.requests q (by simp [hreq, hq])
      toServer := hbuf
      running := by
        intro r hr
        rcases List.mem_append.mp hr with hr | hr
        · exact hi.running r hr
        · cases List.mem_singleton.mp hr
          exact ⟨hknown, rfl, rfl⟩
      present := by
        intro x hx
        refine hi.present x ?_
        simp only [awaited, hreq, List.map_append, List.mem_append, List.mem_cons,
          List.map_cons, List.map_nil, List.not_mem_nil, or_false] at hx ⊢
        tauto
      conserved := by
        have h := hi.conserved
        simp only [places, hreq, List.map_cons] at h
        simp only [places, ← h, List.map_append, List.map_cons, List.map_nil, ← Multiset.coe_add,
          ← Multiset.cons_coe, ← Multiset.singleton_add]
        abel }
  · exact { hi with
      requests := fun q hq => hi.requests q (by simp [hreq, hq])
      toServer := hbuf
      present := by
        intro x hx
        refine hi.present x ?_
        simp only [awaited, hreq, List.mem_append, List.mem_cons] at hx ⊢
        tauto
      conserved := by
        have h := hi.conserved
        simp only [places, hreq, List.map_cons] at h
        simp only [places, ← h, ← Multiset.coe_add, ← Multiset.cons_coe, ← Multiset.singleton_add]
        abel }

/-- The first response is the only frame of its call. -/
theorem Inv.number_ne {s : State} (hi : Inv s) {q x : Issued} {b : Bytes}
    {rest : List (Issued × Bytes)} (hresp : s.responses = (q, b) :: rest)
    (hx : x ∈ awaited { s with responses := rest }) : x.number ≠ q.number := by
  let others : Multiset Nat := places { s with responses := rest }
  have hplaces : places s = q.number ::ₘ others := by
    simp only [others, places, hresp, List.map_cons, ← Multiset.cons_coe,
      ← Multiset.singleton_add]
    abel
  have hnodup : (q.number ::ₘ others).Nodup := by
    rw [← hplaces, hi.conserved]
    exact Multiset.nodup_range _
  have hmem : x.number ∈ others := by
    simp only [others, places, Multiset.mem_add, Multiset.mem_coe, List.mem_map]
    rcases mem_awaited.mp hx with ⟨t, ht, _, rfl⟩ | hq | ⟨r, hr, rfl⟩ | ⟨p, hp, rfl⟩
    · exact Or.inl (Or.inl (Or.inl (Or.inl (Or.inl ⟨t, ht, rfl⟩))))
    · exact Or.inl (Or.inl (Or.inl (Or.inl (Or.inr ⟨x, hq, rfl⟩))))
    · exact Or.inl (Or.inl (Or.inl (Or.inr ⟨r, hr, rfl⟩)))
    · exact Or.inl (Or.inl (Or.inr ⟨p, hp, rfl⟩))
  rintro he
  exact (Multiset.nodup_cons.mp hnodup).1 (he ▸ hmem)

/-- Forgetting a call leaves entries of calls only. -/
theorem Inv.table_forget {s : State} (hi : Inv s) (n : Nat) (id : BitVec 64) (out : OutstandingCall)
    (hout : Function.update s.client.outstandings_ (BitVec.ofNat 64 n) none id = some out) :
    ∃ q, Known s q ∧ id = BitVec.ofNat 64 q.number ∧ out = ⟨q.call.response, q.number⟩ := by
  by_cases he : id = BitVec.ofNat 64 n
  · simp [he] at hout
  · rw [Function.update_of_ne he] at hout
    exact hi.table id out hout

/-- Forgetting the call of the first response leaves the entries of all others. -/
theorem Inv.present_forget {s : State} (hi : Inv s) (hcalls : s.calls.length ≤ 2 ^ 63)
    {q : Issued} {b : Bytes} {rest : List (Issued × Bytes)} (hresp : s.responses = (q, b) :: rest)
    {x : Issued} (hx : x ∈ awaited { s with responses := rest }) :
    Function.update s.client.outstandings_ (BitVec.ofNat 64 q.number) none
      (BitVec.ofNat 64 x.number) ≠ none := by
  have hx' : x ∈ awaited s := by
    simp only [awaited, hresp, List.mem_append, List.map_cons, List.mem_cons] at hx ⊢
    tauto
  have hlt := (hi.awaited_known hx').lt
  have hlt' : q.number < s.calls.length := (hi.responses (q, b) (by simp [hresp])).1.lt
  have hne : BitVec.ofNat 64 x.number ≠ BitVec.ofNat 64 q.number := fun he =>
    hi.number_ne hresp hx (ofNat_inj (by omega) (by omega) he)
  rw [Function.update_of_ne hne]
  exact hi.present x hx'

/-- The first response is taken, and its call goes to the completed or to the dropped ones. -/
theorem Inv.take_response {s : State} (hi : Inv s) (hcalls : s.calls.length ≤ 2 ^ 63)
    {q : Issued} {b : Bytes} {rest : List (Issued × Bytes)} {buf : Buffer}
    (hresp : s.responses = (q, b) :: rest)
    (hbuf : buf.readable ++ s.toClient = stream Packet.bytes (rest.map responsePacket))
    {completed : List Completed} {lost : List Nat}
    (hcompleted : ∀ c ∈ completed, ∃ call, s.calls[c.done]? = some call ∧
      call.response c.payload = true ∧ ⟨⟨c.done, call⟩, call.request, c.payload⟩ ∈ s.produced)
    (hplaces : (completed.map (·.done) : Multiset Nat) + lost =
      {q.number} + (s.completed.map (·.done) + s.lost)) :
    Inv { s with
      client.read_buf_ := buf
      client.outstandings_ :=
        Function.update s.client.outstandings_ (BitVec.ofNat 64 q.number) none
      responses := rest
      completed := completed
      lost := lost } :=
  { hi with
    responses := fun p hp => hi.responses p (by simp [hresp, hp])
    toClient := hbuf
    table := hi.table_forget q.number
    present := fun _ hx => hi.present_forget hcalls hresp hx
    completed := hcompleted
    conserved := by
      have h := hi.conserved
      simp only [places, hresp, List.map_cons] at h
      simp only [places, add_assoc, hplaces, ← h, ← Multiset.cons_coe, ← Multiset.singleton_add]
      abel }

theorem inv_clientTurn {services : Option Services} {s s' : State} (hi : Inv s)
    (hcalls : s.calls.length ≤ 2 ^ 63) (h : Step services s .clientTurn s') : Inv s' := by
  rcases clientTurn_cases hi hcalls h with
    ⟨_, _, rfl⟩ | ⟨q, b, rest, buf, hresp, _, _, hbuf, hs'⟩
  · exact { hi with }
  obtain ⟨hknown, _, hprod⟩ := hi.responses (q, b) (by simp [hresp])
  rcases hs' with ⟨hparse, rfl⟩ | ⟨_, rfl⟩
  · refine hi.take_response hcalls hresp hbuf ?_ ?_
    · intro c hc
      rcases List.mem_append.mp hc with hc | hc
      · exact hi.completed c hc
      · cases List.mem_singleton.mp hc
        exact ⟨q.call, hknown, hparse, hprod⟩
    · simp only [List.map_append, List.map_cons, List.map_nil, ← Multiset.coe_add,
        Multiset.coe_singleton]
      abel
  · refine hi.take_response hcalls hresp hbuf hi.completed ?_
    simp only [← Multiset.coe_add, Multiset.coe_singleton]
    abel

/-! ## Every run -/

/-- Handling events that each keep the calls. -/
theorem foldl_calls {f : State → Event → State} (hf : ∀ s e, (f s e).calls = s.calls)
    (out : List Event) (s : State) : (out.foldl f s).calls = s.calls := by
  induction out generalizing s with
  | nil => rfl
  | cons e out ih => rw [List.foldl_cons, ih, hf]

theorem serverEvent_calls (services : Option Services) (s : State) (e : Event) :
    (s.serverEvent services e).calls = s.calls := by
  cases e with
  | error code => rfl
  | message d =>
    simp only [State.serverEvent, State.serverMessage]
    split <;> rfl

theorem clientEvent_calls (s : State) (e : Event) : (s.clientEvent e).calls = s.calls := by
  cases e with
  | error code => rfl
  | message d =>
    simp only [State.clientEvent, State.clientMessage]
    split <;> rfl

/-- No step forgets a call. -/
theorem Step.calls_le {services : Option Services} {s s' : State} {l : Label}
    (h : Step services s l s') : s.calls.length ≤ s'.calls.length := by
  cases h with
  | fetch call => simp
  | serverAgain out buf _ => rw [foldl_calls (serverEvent_calls services)]
  | clientAgain out buf _ => rw [foldl_calls clientEvent_calls]
  | _ => exact Nat.le_refl _

theorem Step.inv {services : Option Services} {s s' : State} {l : Label}
    (h : Step services s l s') (hcalls : s.calls.length ≤ 2 ^ 63) (hi : Inv s) : Inv s' := by
  cases l with
  | serverTurn => exact inv_serverTurn hi hcalls h
  | clientTurn => exact inv_clientTurn hi hcalls h
  | fetch call =>
    cases h
    exact inv_fetch hi call
  | register i =>
    cases h with
    | register i t ht => exact inv_register hi i t ht
  | send i =>
    cases h with
    | send i t ht hr => exact inv_send hi i t ht hr
  | serverRead n =>
    cases h with
    | serverRead n server hr => exact inv_serverRead hi n server hr
  | clientRead n =>
    cases h with
    | clientRead n client hr => exact inv_clientRead hi n client hr
  | finish i response =>
    cases h with
    | finish i r response f hr hlen hf =>
      cases (hi.doneCallback (List.mem_of_getElem? hr) response).symm.trans hf
      exact inv_finish hi i r response hr hlen
    | finishLost i r response hr _ hf =>
      simp [hi.doneCallback (List.mem_of_getElem? hr) response] at hf

/-- As long as the calls are fewer than `2^63` the invariant holds along a run. -/
theorem run_inv {services : Option Services} (ls : List Label) (s : State)
    (hrun : run (step services) init ls = some s) (hcalls : s.calls.length ≤ 2 ^ 63) : Inv s := by
  refine run_kept (I := fun s => s.calls.length ≤ 2 ^ 63 → Inv s) (fun s l s' hi hs hle => ?_)
    ls init s (fun _ => inv_init) hrun hcalls
  have hmono := (step_inv hs).calls_le
  exact (step_inv hs).inv (by omega) (hi (by omega))

/-- **Every response completes its own call.** In every run of fewer than `2^63`
calls each closure runs at most once, and a closure that ran got a response parsed
from the payload that a service produced for the request of that very call. -/
theorem calls_matched (services : Option Services) (ls : List Label) (s : State)
    (hrun : run (step services) init ls = some s) (hcalls : s.calls.length ≤ 2 ^ 63) :
    (s.completed.map (·.done)).Nodup ∧
    ∀ c ∈ s.completed, ∃ call, s.calls[c.done]? = some call ∧
      call.response c.payload = true ∧
      ⟨⟨c.done, call⟩, call.request, c.payload⟩ ∈ s.produced := by
  have hi := run_inv ls s hrun hcalls
  refine ⟨?_, hi.completed⟩
  have hnodup : (places s).Nodup := by
    rw [hi.conserved]
    exact Multiset.nodup_range _
  have hle : (s.completed.map (·.done) : Multiset Nat) ≤ places s :=
    le_trans (Multiset.le_add_left _ _) (Multiset.le_add_right _ _)
  exact Multiset.coe_nodup.mp (Multiset.nodup_of_le hle hnodup)

/-- A server that knows every method. -/
def anyService : Option Services := some fun _ => some ⟨fun _ => some ⟨fun _ => true⟩⟩

/-- A call of `a:b`. -/
def callOf (request : UInt8) : Call :=
  ⟨⟨[97], [98], by decide, by decide, by decide, by decide⟩, [request], fun _ => true, by simp⟩

/-- Two calls whose responses come back in the other order. -/
def crossedRun : List Label :=
  [.fetch (callOf 1), .fetch (callOf 2), .register 1, .register 0, .send 0, .send 0,
    .serverRead 42, .serverTurn, .serverTurn, .finish 1 [20], .finish 0 [10],
    .clientRead 44, .clientTurn, .clientTurn]

theorem calls_matched_crossed :
    ∃ s, run (step anyService) init crossedRun = some s ∧ s.completed = [⟨1, [20]⟩, ⟨0, [10]⟩] ∧
      (s.completed.map (·.done)).Nodup ∧ ∀ c ∈ s.completed, ∃ call, s.calls[c.done]? = some call ∧
        call.response c.payload = true ∧
        ⟨⟨c.done, call⟩, call.request, c.payload⟩ ∈ s.produced := by
  have hview : (run (step anyService) init crossedRun).map
      (fun s => (s.completed, s.calls.length)) = some ([⟨1, [20]⟩, ⟨0, [10]⟩], 2) := by
    decide +kernel
  obtain ⟨s, hs, hv⟩ := Option.map_eq_some_iff.mp hview
  simp only [Prod.mk.injEq] at hv
  exact ⟨s, hs, hv.1, calls_matched anyService crossedRun s hs (by omega)⟩

end Cppim.Rpc.System
