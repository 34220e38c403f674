import Cppim.Gate.Agreement

/-! What the gate is for: a hall whose guests are in rooms.

`Hall` knows who has been let in, under which key and in which room, and what everybody has
received. It has no table of keys, no sets of sessions and no order in which these are
visited. `run_refines_hall` says that the gate is such a hall, as long as each reply is the
first one of a connected session and has a new key. -/

namespace Cppim.Gate

open Cppim.Common Cppim.Protocol Cppim.Lib.Transition Cppim.Gate.System

/-! ## The hall -/

/-- How a guest was let in. -/
structure Member where
  key : Bytes
  room : Bytes
  deriving Repr, DecidableEq

structure Hall where
  members : Nat → Option Member := fun _ => none
  received : Nat → List ClientCodec.Message := fun _ => []

/-- What happens in the hall. -/
inductive Hall.Event where
  | joined (session : Nat) (member : Member)
  | left (session : Nat)
  | spoke (session : Nat) (m : ClientCodec.Message)
  | published (request : Request)
  deriving Repr, DecidableEq

namespace Hall

/-- The message of a request. -/
def message : Request → Proto
  | .pushMsg request => request.proto
  | .broadcast request => request.proto
  | .broadcastRoom request => request.proto

/-- How often a guest is meant by a request. -/
def copies : Request → Member → Nat
  | .pushMsg request, member => request.keys.count member.key
  | .broadcast _, _ => 1
  | .broadcastRoom request, member => if member.room = request.roomID then 1 else 0

/-- What is said to a message of a guest: nothing to a token or a heartbeat. -/
def answer (m : ClientCodec.Message) : List ClientCodec.Message :=
  if m.op = 7 ∨ m.op = 2 then [] else [⟨1, 1, bytes "test"⟩]

def give (hall : Hall) (session : Nat) (ms : List ClientCodec.Message) : Hall :=
  { hall with received := Function.update hall.received session (hall.received session ++ ms) }

def after (hall : Hall) : Event → Hall
  | .joined session member =>
    { hall with members := Function.update hall.members session (some member)
      }.give session [GateServer.success]
  | .left session => { hall with members := Function.update hall.members session none }
  | .spoke session m => hall.give session (answer m)
  | .published request =>
    { hall with
      received := fun session => hall.received session ++
        List.replicate ((hall.members session).elim 0 (copies request))
          (GateServer.frame (message request)) }

/-! ## The gate as a hall -/

/-- What a step of the gate is in the hall. -/
def event (st : State) : Label → Option Event
  | .newSession _ => none
  | .message session m => some (.spoke session m)
  | .reply _ _ => none
  | .handle id =>
    st.gate.calls[id]?.bind fun call => call.reply.map fun response =>
      .joined call.session ⟨response.key, response.roomID⟩
  | .close session => some (.left session)
  | .serve _ request => some (.published request)

/-- A connected session that has a key. -/
def member (st : State) (session : Nat) : Option Member :=
  if session ∈ st.connections_ ∧ st.gate.getKey session ≠ [] then
    some ⟨st.gate.getKey session, st.gate.getRoom session⟩
  else none

/-- What was sent to a session. -/
def inbox (sent : List (Nat × ClientCodec.Message)) (session : Nat) : List ClientCodec.Message :=
  (sent.filter (·.1 = session)).map Prod.snd

/-- A reply is the first one of its session, which is connected, and has a new key. -/
def Orderly (st : State) (l : Label) : Prop := FreshReply st l ∧ FirstKey st l

instance (st : State) (l : Label) : Decidable (Orderly st l) :=
  inferInstanceAs (Decidable (FreshReply st l ∧ FirstKey st l))

structure Holds (st : State) (hall : Hall) : Prop where
  keyed : Keyed st
  housed : ∀ s ∈ st.connections_, st.gate.getKey s ≠ [] → st.gate.InRoom (st.gate.getRoom s) s
  members : ∀ s, hall.members s = member st s
  received : ∀ s, hall.received s = inbox st.gate.sent s

theorem inbox_append (as bs : List (Nat × ClientCodec.Message)) (s : Nat) :
    inbox (as ++ bs) s = inbox as s ++ inbox bs s := by
  simp [inbox]

theorem member_congr {st st' : State} {s : Nat}
    (hmem : s ∈ st'.connections_ ↔ s ∈ st.connections_)
    (hkey : st'.gate.getKey s = st.gate.getKey s) (hroom : st'.gate.getRoom s = st.gate.getRoom s) :
    member st' s = member st s := by
  simp only [member, hmem, hkey, hroom]

/-- Frames that are all the same. -/
theorem inbox_eq_replicate {out : List (Nat × ClientCodec.Message)} {f : ClientCodec.Message}
    (h : ∀ p ∈ out, p.2 = f) (s : Nat) : inbox out s = List.replicate (out.countP (·.1 = s)) f := by
  rw [List.eq_replicate_iff, inbox, List.length_map, List.countP_eq_length_filter]
  refine ⟨rfl, fun m hm => ?_⟩
  obtain ⟨p, hp, rfl⟩ := List.mem_map.mp hm
  exact h p (List.mem_filter.mp hp).1

namespace Holds

variable {st : State} {hall : Hall}

/-- The guests are those that stand under a key. -/
theorem under_iff (h : Holds st hall) (key : Bytes) (s : Nat) :
    st.gate.Under key s ↔ ∃ m, member st s = some m ∧ m.key = key := by
  constructor
  · intro hunder
    have hreg : Registered st.gate s := Or.inl ⟨key, hunder⟩
    refine ⟨⟨st.gate.getKey s, st.gate.getRoom s⟩, ?_, h.keyed.keys key s hunder⟩
    exact if_pos ⟨h.keyed.live s hreg, h.keyed.named s hreg⟩
  · rintro ⟨m, hm, rfl⟩
    unfold member at hm
    split at hm
    · rename_i hin
      cases hm
      exact h.keyed.held s hin.1 hin.2
    · cases hm

theorem inRoom_iff (h : Holds st hall) (room : Bytes) (s : Nat) :
    st.gate.InRoom room s ↔ ∃ m, member st s = some m ∧ m.room = room := by
  constructor
  · intro hin
    have hreg : Registered st.gate s := Or.inr ⟨room, hin⟩
    refine ⟨⟨st.gate.getKey s, st.gate.getRoom s⟩, ?_, h.keyed.rooms room s hin⟩
    exact if_pos ⟨h.keyed.live s hreg, h.keyed.named s hreg⟩
  · rintro ⟨m, hm, rfl⟩
    unfold member at hm
    split at hm
    · rename_i hin
      cases hm
      exact h.housed s hin.1 hin.2
    · cases hm

/-! ## What is published -/

/-- A session is looked up under its key, as often as that is asked for. -/
theorem countP_push (h : Holds st hall) (keys : List Bytes) (f : ClientCodec.Message) (s : Nat) :
    (keys.flatMap fun key => st.gate.channels_[key]?.toList.map (·, f)).countP (·.1 = s) =
      (member st s).elim 0 fun m => keys.count m.key := by
  have hone : ∀ key, (st.gate.channels_[key]?.toList.map (·, f)).countP (·.1 = s) =
      (member st s).elim 0 fun m => if key = m.key then 1 else 0 := by
    intro key
    have hiff := h.under_iff key s
    rw [GateServer.Under] at hiff
    have hcount : (st.gate.channels_[key]?.toList.map (·, f)).countP (·.1 = s) =
        if st.gate.channels_[key]? = some s then 1 else 0 := by
      cases st.gate.channels_[key]? <;> simp [List.countP_cons]
    rw [hcount]
    cases hm : member st s with
    | none => simp [hiff, hm]
    | some m => simp [hiff, hm, eq_comm]
  induction keys with
  | nil => cases member st s <;> rfl
  | cons key keys ih =>
    rw [List.flatMap_cons, List.countP_append, ih, hone]
    cases member st s with
    | none => rfl
    | some m =>
      simp only [Option.elim_some, List.count_cons, beq_iff_eq]
      exact Nat.add_comm ..

/-- A session is visited once if it stands under a key. -/
theorem countP_elements (h : Holds st hall) (order : HashOrder) (s : Nat) :
    (order.elements st.gate.channels_).countP (·.2 = s) = (member st s).elim 0 fun _ => 1 := by
  cases hm : member st s with
  | none =>
    rw [Option.elim_none, List.countP_eq_zero]
    intro elem helem hs
    obtain ⟨m, hm', -⟩ := (h.under_iff elem.1 s).mp
      (of_decide_eq_true hs ▸ (order.mem_elements _ elem.1 elem.2).mp helem)
    rw [hm] at hm'
    cases hm'
  | some m =>
    have hle := countP_elements_le h.keyed.keys order s
    have hunder := (h.under_iff m.key s).mpr ⟨m, hm, rfl⟩
    have hpos : 0 < (order.elements st.gate.channels_).countP (·.2 = s) :=
      List.countP_pos_iff.mpr ⟨(m.key, s), (order.mem_elements _ _ _).mpr hunder, by simp⟩
    rw [Option.elim_some]
    omega

/-- A session is in the set of its room once, and in no other. -/
theorem countP_room (h : Holds st hall) (order : SetOrder) (room : Bytes)
    (f : ClientCodec.Message) (s : Nat) :
    (st.gate.rooms_[room]?.toList.flatMap fun members =>
        (order.visit members.toList).map (·, f)).countP (·.1 = s) =
      (member st s).elim 0 fun m => if m.room = room then 1 else 0 := by
  have hcount : (st.gate.rooms_[room]?.toList.flatMap fun members =>
      (order.visit members.toList).map (·, f)).countP (·.1 = s) =
      if (st.gate.rooms_[room]?.any (s ∈ ·)) = true then 1 else 0 := by
    cases st.gate.rooms_[room]? with
    | none => rfl
    | some members =>
      have hperm := order.perm members.toList
      have hnodup : members.toList.Nodup :=
        Std.ExtTreeSet.distinct_toList.imp fun hne heq => hne (by simp [heq])
      simp only [Option.toList_some, List.flatMap_singleton, List.countP_map, Function.comp_def,
        Option.any_some, decide_eq_true_eq]
      rw [hperm.countP_eq]
      simp only [← Std.ExtTreeSet.mem_toList]
      exact hnodup.count
  have hiff : (st.gate.rooms_[room]?.any (s ∈ ·)) = true ↔ st.gate.InRoom room s := by
    simp [Option.any_eq_true, GateServer.InRoom]
  rw [hcount]
  simp only [hiff, h.inRoom_iff]
  cases member st s <;> simp

/-- How many frames a request sends to a session. -/
theorem countP_eq_copies (h : Holds st hall) (orders : Orders) (request : Request) :
    ∃ out, st.gate.Sends (st.gate.serve orders request) out ∧
      (∀ p ∈ out, p.2 = GateServer.frame (message request)) ∧
      ∀ s, out.countP (·.1 = s) = (member st s).elim 0 (copies request) := by
  cases request with
  | pushMsg request =>
    refine ⟨_, st.gate.sends_pushMsg request, ?_, fun s => ?_⟩
    · intro p hp
      obtain ⟨key, -, hp⟩ := List.mem_flatMap.mp hp
      obtain ⟨s, -, rfl⟩ := List.mem_map.mp hp
      rfl
    · exact h.countP_push request.keys _ s
  | broadcast request =>
    refine ⟨_, GateServer.sends_broadCast orders.channels st.gate request.proto, ?_, fun s => ?_⟩
    · intro p hp
      obtain ⟨elem, -, rfl⟩ := List.mem_map.mp hp
      rfl
    · rw [List.countP_map]
      exact h.countP_elements orders.channels s
  | broadcastRoom request =>
    refine ⟨_, GateServer.sends_sendToRoom orders.rooms st.gate request.roomID request.proto,
      ?_, fun s => ?_⟩
    · intro p hp
      obtain ⟨members, -, hp⟩ := List.mem_flatMap.mp hp
      obtain ⟨s, -, rfl⟩ := List.mem_map.mp hp
      rfl
    · exact h.countP_room orders.rooms request.roomID _ s

/-! ## The steps -/

/-- A step that leaves the registry as it is. -/
theorem of_same (h : Holds st hall) {gate : GateServer} (hkeyed : Keyed { st with gate := gate })
    (hsame : SameRegistry st.gate gate) {received : Nat → List ClientCodec.Message}
    (hreceived : ∀ s, received s = inbox gate.sent s) :
    Holds { st with gate := gate } { hall with received := received } where
  keyed := hkeyed
  housed := by
    rw [hsame.inRoom, hsame.getKey, hsame.getRoom]
    exact h.housed
  members := by
    intro s
    rw [h.members s, member, member, hsame.getKey, hsame.getRoom]
  received := hreceived

theorem newSession (h : Holds st hall) (mid : BitVec 32) : Holds (newSession st mid) hall := by
  have hkeyed := h.keyed.newSession mid
  have hmem : ∀ s, s ∈ (System.newSession st mid).connections_ ↔
      s = st.opened ∨ s ∈ st.connections_ := by
    intro s
    simp only [System.newSession, Std.ExtTreeSet.mem_insert, Std.LawfulEqCmp.compare_eq_iff_eq]
    rw [eq_comm]
  have hold : ∀ s, s ≠ st.opened →
      (System.newSession st mid).gate.getKey s = st.gate.getKey s ∧
      (System.newSession st mid).gate.getRoom s = st.gate.getRoom s := by
    intro s hs
    simp [System.newSession, GateServer.getKey, GateServer.getRoom, hs]
  have hnew : (System.newSession st mid).gate.getKey st.opened = [] := by
    simp [System.newSession, GateServer.getKey]
  refine ⟨hkeyed, ?_, ?_, h.received⟩
  · intro s hs hkey
    have hne : s ≠ st.opened := by
      rintro rfl
      exact hkey hnew
    rw [(hold s hne).1] at hkey
    rw [(hold s hne).2]
    exact h.housed s (((hmem s).mp hs).resolve_left hne) hkey
  · intro s
    rw [h.members s]
    by_cases hs : s = st.opened
    · have hnot : st.opened ∉ st.connections_ := fun hin =>
        Nat.lt_irrefl _ (h.keyed.known _ hin)
      rw [hs, member, member, if_neg fun hin => hnot hin.1, if_neg fun hin => hin.2 hnew]
    · refine (member_congr ?_ (hold s hs).1 (hold s hs).2).symm
      rw [hmem s, or_iff_right hs]

theorem message (h : Holds st hall) {session : Nat} (m : ClientCodec.Message)
    (hs : session < st.opened) :
    Holds { st with gate := st.gate.onClientMessageCallback session m }
      (hall.give session (answer m)) := by
  refine h.of_same (h.keyed.message m hs) (sameRegistry_message st.gate session m) fun s => ?_
  have hsent : (st.gate.onClientMessageCallback session m).sent =
      st.gate.sent ++ (answer m).map (session, ·) := by
    unfold GateServer.onClientMessageCallback answer
    split <;> rename_i htoken
    · rw [if_pos (Or.inl htoken)]
      simp
    · split <;> rename_i hheartbeat
      · rw [if_pos (Or.inr hheartbeat)]
        simp
      · rw [if_neg (not_or.mpr ⟨htoken, hheartbeat⟩)]
        rfl
  rw [hsent, inbox_append, ← h.received s]
  by_cases hsession : s = session
  · rw [hsession, Function.update_self]
    simp [inbox, List.filter_map, Function.comp_def]
  · rw [Function.update_of_ne hsession]
    simp [inbox, List.filter_map, Function.comp_def, Ne.symm hsession]

theorem handle (h : Holds st hall) {id : Nat} {call : Call} {response : ConnectReply}
    (hcall : st.gate.calls[id]? = some call) (hp : call.progress = .replied response)
    (hlive : call.session ∈ st.connections_) (hnokey : st.gate.getKey call.session = []) :
    Holds (handled st id call response)
      (hall.after (.joined call.session ⟨response.key, response.roomID⟩)) := by
  have hkeyed := h.keyed.handle hcall hp hlive hnokey
  have hnonempty : response.key ≠ [] := fun hkey =>
    h.keyed.replies.nonempty id ⟨call, hcall, by simp [Call.reply, hp, hkey]⟩
  refine ⟨hkeyed, ?_, ?_, ?_⟩
  · intro s hs hkey
    rw [GateServer.getKey_handleConnect] at hkey
    rw [GateServer.getRoom_handleConnect, GateServer.inRoom_handleConnect]
    by_cases hsession : s = call.session
    · rw [hsession, Function.update_self]
      exact Or.inr ⟨rfl, rfl⟩
    · rw [Function.update_of_ne hsession] at hkey ⊢
      exact Or.inl (h.housed s hs hkey)
  · intro s
    rw [member, GateServer.getKey_handleConnect, GateServer.getRoom_handleConnect]
    show Function.update hall.members call.session _ s = _
    by_cases hsession : s = call.session
    · rw [hsession, Function.update_self, Function.update_self, Function.update_self,
        if_pos ⟨hlive, hnonempty⟩]
    · rw [Function.update_of_ne hsession, Function.update_of_ne hsession,
        Function.update_of_ne hsession, h.members s]
      rfl
  · intro s
    show Function.update hall.received call.session _ s =
      inbox (st.gate.sent ++ [(call.session, GateServer.success)]) s
    rw [inbox_append, ← h.received s]
    by_cases hsession : s = call.session
    · rw [hsession, Function.update_self]
      simp [inbox]
    · rw [Function.update_of_ne hsession]
      simp [inbox, Ne.symm hsession]

theorem close (h : Holds st hall) {session : Nat} (hs : session ∈ st.connections_) :
    Holds (closed st session) (hall.after (.left session)) := by
  have hmem : ∀ s, s ∈ (closed st session).connections_ ↔ s ≠ session ∧ s ∈ st.connections_ := by
    intro s
    simp only [Std.ExtTreeSet.mem_erase, ne_eq, Std.LawfulEqCmp.compare_eq_iff_eq]
    rw [eq_comm]
  refine ⟨h.keyed.close hs, ?_, ?_, h.received⟩
  · intro s hin hkey
    rw [hmem] at hin
    exact GateServer.inRoom_handleDisconnect.mpr ⟨h.housed s hin.2 hkey, fun hboth => hin.1 hboth.2⟩
  · intro s
    show Function.update hall.members session none s = _
    by_cases hsession : s = session
    · rw [hsession, Function.update_self, member, if_neg fun hin => ((hmem session).mp hin.1).1 rfl]
    · have hsame : member (closed st session) s = member st s :=
        member_congr ((hmem s).trans (and_iff_right hsession)) rfl rfl
      rw [Function.update_of_ne hsession, h.members s, hsame]

theorem closeAgain (h : Holds st hall) {session : Nat} (hs : session ∉ st.connections_) :
    Holds st (hall.after (.left session)) := by
  refine ⟨h.keyed, h.housed, fun s => ?_, h.received⟩
  show Function.update hall.members session none s = _
  by_cases hsession : s = session
  · rw [hsession, Function.update_self, member, if_neg fun hin => hs hin.1]
  · rw [Function.update_of_ne hsession, h.members s]

theorem serve (h : Holds st hall) (orders : Orders) (request : Request)
    (hkeyed : Keyed { st with gate := st.gate.serve orders request }) :
    Holds { st with gate := st.gate.serve orders request } (hall.after (.published request)) := by
  obtain ⟨out, hsends, hframe, hcount⟩ := h.countP_eq_copies orders request
  refine h.of_same hkeyed (serve_same orders st.gate request).1 fun s => ?_
  rw [hsends, inbox_append, inbox_eq_replicate hframe, hcount s, ← h.received s, ← h.members s]

end Holds

theorem holds_init (serverid : Bytes) : Holds (init serverid) {} where
  keyed := keyed_init serverid
  housed := by simp [init]
  members := by
    intro s
    simp [member, init]
  received := fun _ => rfl

/-- A step of the gate is what it shows of itself in the hall. -/
theorem holds_step {st st' : State} {l : Label} {hall : Hall} (h : Holds st hall)
    (horderly : Orderly st l) (hstep : step st l = some st') :
    Holds st' ((event st l).elim hall hall.after) := by
  obtain ⟨hfresh, hfirst⟩ := horderly
  have hs := step_inv hstep
  have hkeyed : Keyed st' := by
    rcases hs.keyed h.keyed hfresh with ⟨-, hk⟩ | ⟨hnot, -⟩
    · exact hk
    · exact absurd hfirst hnot
  cases hs with
  | newSession mid => exact h.newSession mid
  | message session m hs => exact h.message m hs
  | reply id call response hcall hp =>
    exact h.of_same hkeyed (sameRegistry_advance ..) h.received
  | handle id call response hcall hp =>
    have hevent : event st (.handle id) =
        some (.joined call.session ⟨response.key, response.roomID⟩) := by
      simp [event, hcall, Call.reply, hp]
    rw [hevent]
    exact h.handle hcall hp (hfresh call hcall) (hfirst call hcall)
  | close session hs => exact h.close hs
  | closeAgain session hs => exact h.closeAgain hs
  | serve orders request => exact h.serve orders request hkeyed

/-- **The gate is a hall.** In every run in which each reply is the first one of a connected
session and has a new key, every session has received what the hall gives to it, in this
order, and the hall has let in the connected sessions that have a key. In whatever order the
tables are visited: a broadcast is received once by everybody who was let in, a message to a
room once by who is in it, a push once for each mention of the key, and nothing by anybody
else. -/
theorem run_refines_hall (serverid : Bytes) (ls : List Label) (st : State)
    (hrun : run step (init serverid) ls = some st)
    (horderly : Guarded step Orderly (init serverid) ls) (s : Nat) :
    let hall := (shown step event (init serverid) ls).foldl after {}
    inbox st.gate.sent s = hall.received s ∧
      hall.members s = if s ∈ st.connections_ ∧ st.gate.getKey s ≠ [] then
        some ⟨st.gate.getKey s, st.gate.getRoom s⟩ else none := by
  intro hall
  have hholds : Holds st hall :=
    run_simulates_shown (fun _ _ _ _ h hg hl => holds_step h hg hl) ls _ st {}
      (holds_init serverid) horderly hrun
  exact ⟨(hholds.received s).symm, hholds.members s⟩

def sorted : Orders := ⟨.sorted, ⟨id, List.Perm.refl⟩⟩

/-- A guest in each of two rooms, a message to the first room and a broadcast; when the first
guest has left, a push that names the key of the other one twice. -/
def twoGuests : List Label :=
  [.newSession 0, .message 0 ⟨7, 0, bytes "a"⟩, .reply 0 { key := bytes "1", roomID := bytes "r" },
    .handle 0, .newSession 0, .message 1 ⟨7, 0, bytes "b"⟩,
    .reply 1 { key := bytes "2", roomID := bytes "q" }, .handle 1,
    .serve sorted (.broadcastRoom ⟨bytes "r", ⟨1, 9, 0, bytes "x"⟩⟩),
    .serve sorted (.broadcast ⟨0, ⟨1, 9, 0, bytes "y"⟩, 0⟩),
    .close 0,
    .serve sorted (.pushMsg ⟨[bytes "2", bytes "1", bytes "2"], 0, ⟨1, 9, 0, bytes "z"⟩⟩)]

theorem run_refines_hall_guests :
    ∃ st, run step (init (bytes "gate1")) twoGuests = some st ∧
      Guarded step Orderly (init (bytes "gate1")) twoGuests ∧
      (inbox st.gate.sent 0).map (·.body) = [bytes "success", bytes "x", bytes "y"] ∧
      (inbox st.gate.sent 1).map (·.body) =
        [bytes "success", bytes "y", bytes "z", bytes "z"] := by
  have hsome : (run step (init (bytes "gate1")) twoGuests).isSome = true := by decide +kernel
  obtain ⟨st, hst⟩ := Option.isSome_iff_exists.mp hsome
  have hguard : Guarded step Orderly (init (bytes "gate1")) twoGuests := by decide +kernel
  refine ⟨st, hst, hguard, ?_, ?_⟩
  · rw [(run_refines_hall _ _ st hst hguard 0).1]
    decide +kernel
  · rw [(run_refines_hall _ _ st hst hguard 1).1]
    decide +kernel

end Hall

end Cppim.Gate
