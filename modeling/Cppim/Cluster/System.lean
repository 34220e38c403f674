import Cppim.Gate.System
import Cppim.Job.Server
import Cppim.Logic.Service

/-! The gate, the logic server that answers its calls of `Connect`, and the job server
that pushes to it. A step of the cluster is a step of the gate (`Gate.System.step`), with
the reply computed by `Connect` and the pushes made by the job server. -/

namespace Cppim.Cluster

open Cppim.Common Cppim.Protocol Cppim.Lib.Transition Cppim.Logic
open Cppim.Gate (GateServer Call Orders)
open Cppim.Gate.System (advance getElem?_advance Registered SameRegistry)

structure State where
  net : Gate.System.State
  /-- the static variables of `generateKey` -/
  statics : Option KeyGen := none
  /-- the commands given to Redis -/
  commands : List Command := []
  /-- what `Connect` did for each call of the gate -/
  outcomes : Nat → Option Outcome := fun _ => none
  /-- the sessions that `HandleConnect` ran for, with what `Connect` had done -/
  handled : List (Nat × Outcome) := []

inductive Label where
  | newSession (mid : BitVec 32)
  | message (session : Nat) (m : Gate.ClientCodec.Message)
  | connect (id : Nat) (clock : List (BitVec 64))
  | handle (id : Nat)
  | close (session : Nat)
  | push (orders : Orders) (msg : PushMsg)

/-- A step that the gate takes alone. -/
def move (st : State) (l : Gate.System.Label) : Option State :=
  (Gate.System.step st.net l).map fun net => { st with net := net }

def step (cfg : Config) (st : State) : Label → Option State
  | .newSession mid => move st (.newSession mid)
  | .message session m => move st (.message session m)
  | .connect id clock => do
    let call ← st.net.gate.calls[id]?
    let o ← Logic.connect cfg st.statics clock call.request
    let net ← Gate.System.step st.net (.reply id o.response)
    return { st with
      net := net
      statics := o.statics
      commands := st.commands ++ o.commands
      outcomes := Function.update st.outcomes id (some o) }
  | .handle id => do
    let call ← st.net.gate.calls[id]?
    let o ← st.outcomes id
    let net ← Gate.System.step st.net (.handle id)
    return { st with net := net, handled := st.handled ++ [(call.session, o)] }
  | .close session => move st (.close session)
  | .push orders msg => move st (.serve orders (Job.push msg))

def init (serverid : Bytes) : State := { net := Gate.System.init serverid }

/-! ## What a step can do -/

/-- The steps that the gate takes alone; the requests are those of the job server. -/
inductive Plain : Label → Gate.System.Label → Prop
  | newSession (mid : BitVec 32) : Plain (.newSession mid) (.newSession mid)
  | message (session : Nat) (m : Gate.ClientCodec.Message) :
    Plain (.message session m) (.message session m)
  | close (session : Nat) : Plain (.close session) (.close session)
  | push (orders : Orders) (msg : PushMsg) :
    Plain (.push orders msg) (.serve orders (Job.push msg))

inductive Step (cfg : Config) (st : State) : Label → State → Prop
  | move (l : Label) (gl : Gate.System.Label) (net : Gate.System.State) (hl : Plain l gl)
      (hstep : Gate.System.Step st.net gl net) : Step cfg st l { st with net := net }
  | connect (id : Nat) (clock : List (BitVec 64)) (call : Call) (o : Outcome)
      (hcall : st.net.gate.calls[id]? = some call) (hp : call.progress = .called)
      (ho : Ends cfg st.statics clock call.request o) :
    Step cfg st (.connect id clock) { st with
      net := { st.net with gate := advance st.net.gate id call (.replied o.response) }
      statics := o.statics
      commands := st.commands ++ o.commands
      outcomes := Function.update st.outcomes id (some o) }
  | handle (id : Nat) (call : Call) (response : ConnectReply) (o : Outcome)
      (hcall : st.net.gate.calls[id]? = some call) (hp : call.progress = .replied response)
      (ho : st.outcomes id = some o) :
    Step cfg st (.handle id) { st with
      net := { st.net with gate :=
        (advance st.net.gate id call (.handled response)).handleConnect response call.session }
      handled := st.handled ++ [(call.session, o)] }

theorem step_of_move {cfg : Config} {st st' : State} {l : Label} {gl : Gate.System.Label}
    (hl : Plain l gl) (h : move st gl = some st') : Step cfg st l st' := by
  obtain ⟨net, hnet, rfl⟩ := Option.map_eq_some_iff.mp h
  exact .move l gl net hl (Gate.System.step_inv hnet)

theorem step_inv {cfg : Config} {st st' : State} {l : Label} (h : step cfg st l = some st') :
    Step cfg st l st' := by
  cases l with
  | newSession mid => exact step_of_move (.newSession mid) h
  | message session m => exact step_of_move (.message session m) h
  | close session => exact step_of_move (.close session) h
  | push orders msg => exact step_of_move (.push orders msg) h
  | connect id clock =>
    simp only [step, Option.bind_eq_bind, Option.bind_eq_some_iff] at h
    obtain ⟨call, hcall, o, ho, net, hnet, heq⟩ := h
    cases heq
    cases Gate.System.step_inv hnet with
    | reply id call' response hcall' hp =>
      rw [hcall] at hcall'
      cases hcall'
      exact .connect id clock call o hcall hp (ends_of_connect ho)
  | handle id =>
    simp only [step, Option.bind_eq_bind, Option.bind_eq_some_iff] at h
    obtain ⟨call, hcall, o, ho, net, hnet, heq⟩ := h
    cases heq
    cases Gate.System.step_inv hnet with
    | handle id call' response hcall' hp =>
      rw [hcall] at hcall'
      cases hcall'
      exact .handle id call response o hcall hp ho

/-- What a plain step can change. -/
structure Effect (net net' : Gate.System.State) : Prop where
  calls : net'.gate.calls = net.gate.calls ∨
    ∃ call, call.progress = .called ∧ net'.gate.calls = net.gate.calls ++ [call]
  under : ∀ key s, net'.gate.Under key s → net.gate.Under key s
  inRoom : ∀ room s, net'.gate.InRoom room s → net.gate.InRoom room s
  getKey : ∀ s, net'.gate.getKey s = [] ∨ net'.gate.getKey s = net.gate.getKey s
  sent : ∀ s, net'.gate.sent.count (s, GateServer.success) =
    net.gate.sent.count (s, GateServer.success)

theorem Effect.of_same {net net' : Gate.System.State} (hsame : SameRegistry net.gate net'.gate)
    (hcalls : net'.gate.calls = net.gate.calls ∨
      ∃ call, call.progress = .called ∧ net'.gate.calls = net.gate.calls ++ [call])
    (hsent : ∀ s, net'.gate.sent.count (s, GateServer.success) =
      net.gate.sent.count (s, GateServer.success)) : Effect net net' where
  calls := hcalls
  under := fun key s h => hsame.under ▸ h
  inRoom := fun room s h => hsame.inRoom ▸ h
  getKey := fun s => Or.inr (by rw [hsame.getKey])
  sent := hsent

/-- A push sends frames with `op` 9. -/
theorem sends_push (orders : Orders) (g : GateServer) (msg : PushMsg) :
    ∃ out, g.Sends (g.serve orders (Job.push msg)) out ∧
      ∀ p ∈ out, p.2 = GateServer.frame (Job.proto msg.msg) := by
  unfold Job.push
  split
  · refine ⟨_, g.sends_pushMsg _, fun p hp => ?_⟩
    obtain ⟨key, -, hp⟩ := List.mem_flatMap.mp hp
    obtain ⟨s, -, rfl⟩ := List.mem_map.mp hp
    rfl
  · refine ⟨_, GateServer.sends_sendToRoom orders.rooms g _ _, fun p hp => ?_⟩
    obtain ⟨members, -, hp⟩ := List.mem_flatMap.mp hp
    obtain ⟨s, -, rfl⟩ := List.mem_map.mp hp
    rfl
  · refine ⟨_, GateServer.sends_broadCast orders.channels g _, fun p hp => ?_⟩
    obtain ⟨elem, -, rfl⟩ := List.mem_map.mp hp
    rfl

theorem effect_of_plain {net net' : Gate.System.State} {l : Label} {gl : Gate.System.Label}
    (hl : Plain l gl) (h : Gate.System.Step net gl net') : Effect net net' := by
  cases hl with
  | newSession mid =>
    cases h
    refine ⟨Or.inl rfl, fun _ _ h => h, fun _ _ h => h, fun s => ?_, fun _ => rfl⟩
    by_cases hs : s = net.opened
    · exact Or.inl (by simp [Gate.System.newSession, GateServer.getKey, hs])
    · exact Or.inr (by simp [Gate.System.newSession, GateServer.getKey, hs])
  | message session m =>
    cases h
    refine .of_same (Gate.System.sameRegistry_message ..) ?_ fun s => ?_
    · rcases Gate.System.calls_message net.gate session m with ⟨-, hcalls⟩ | ⟨-, hcalls⟩
      · exact Or.inr ⟨_, rfl, hcalls⟩
      · exact Or.inl hcalls
    · unfold GateServer.onClientMessageCallback
      split
      · rfl
      · split
        · rfl
        · simp [GateServer.send, GateServer.success]
  | close session =>
    cases h with
    | close hs =>
      exact ⟨Or.inl rfl, fun key s h => (GateServer.under_handleDisconnect.mp h).1,
        fun room s h => (GateServer.inRoom_handleDisconnect.mp h).1, fun s => Or.inr rfl,
        fun _ => rfl⟩
    | closeAgain hs =>
      exact ⟨Or.inl rfl, fun _ _ h => h, fun _ _ h => h, fun _ => Or.inr rfl, fun _ => rfl⟩
  | push orders msg =>
    cases h
    obtain ⟨hsame, hcalls⟩ := Gate.System.serve_same orders net.gate (Job.push msg)
    refine .of_same hsame (Or.inl hcalls) fun s => ?_
    obtain ⟨out, hsends, hout⟩ := sends_push orders net.gate msg
    have hnone : (s, GateServer.success) ∉ out := by
      intro hmem
      have hop : (8 : BitVec 32) = 9 := congrArg Gate.ClientCodec.Message.op (hout _ hmem)
      exact absurd hop (by decide)
    rw [hsends]
    simp [List.count_append, List.count_eq_zero.mpr hnone]

/-! ## Where keys, entries and frames come from -/

/-- Every key and every entry of the registry comes from a reply that was handled, and
so does every frame that acknowledges a token. -/
structure Inv (cfg : Config) (st : State) : Prop where
  reply : ∀ id call, st.net.gate.calls[id]? = some call →
    call.reply = (st.outcomes id).map fun o => o.response
  ends : ∀ id o, st.outcomes id = some o → ∃ call statics clock,
    st.net.gate.calls[id]? = some call ∧ Ends cfg statics clock call.request o
  handled : ∀ p ∈ st.handled, ∃ id call, st.net.gate.calls[id]? = some call ∧ call.Handled ∧
    call.session = p.1 ∧ st.outcomes id = some p.2
  key : ∀ s, st.net.gate.getKey s = [] ∨
    ∃ o, (s, o) ∈ st.handled ∧ o.response.key = st.net.gate.getKey s
  under : ∀ key s, st.net.gate.Under key s → ∃ o, (s, o) ∈ st.handled ∧ o.response.key = key
  inRoom : ∀ room s, st.net.gate.InRoom room s → ∃ o, (s, o) ∈ st.handled
  acks : ∀ s, st.net.gate.sent.count (s, GateServer.success) = st.handled.countP (·.1 = s)

theorem inv_init (cfg : Config) (serverid : Bytes) : Inv cfg (init serverid) := by
  have htidy := Gate.System.tidy_init serverid
  have hnone : ∀ s, ¬ Registered (init serverid).net.gate s := by
    intro s hs
    have hmem := htidy.live s hs
    simp [Gate.System.init] at hmem
  refine ⟨?_, ?_, ?_, fun s => Or.inl rfl, ?_, ?_, fun s => rfl⟩
  · simp [init, Gate.System.init]
  · simp [init]
  · simp [init]
  · exact fun key s h => (hnone s (Or.inl ⟨key, h⟩)).elim
  · exact fun room s h => (hnone s (Or.inr ⟨room, h⟩)).elim

namespace Inv

variable {cfg : Config} {st : State}

theorem move (h : Inv cfg st) {net : Gate.System.State} (he : Effect st.net net) :
    Inv cfg { st with net := net } := by
  have hkept : ∀ (id : Nat) call, st.net.gate.calls[id]? = some call →
      net.gate.calls[id]? = some call := by
    intro id call hcall
    rcases he.calls with hcalls | ⟨new, -, hcalls⟩
    · rw [hcalls, hcall]
    · obtain ⟨hlt, -⟩ := List.getElem?_eq_some_iff.mp hcall
      rw [hcalls, List.getElem?_append_left hlt, hcall]
  refine ⟨?_, ?_, ?_, ?_, ?_, ?_, ?_⟩
  · intro id call hcall
    rcases he.calls with hcalls | ⟨new, hnew, hcalls⟩
    · exact h.reply id call (hcalls ▸ hcall)
    · rw [hcalls, List.getElem?_append] at hcall
      split at hcall
      · exact h.reply id call hcall
      · -- a call that is new has no outcome
        rename_i hge
        rw [List.mem_singleton.mp (List.mem_of_getElem? hcall)]
        cases ho : st.outcomes id with
        | none => simp [Call.reply, hnew]
        | some o =>
          obtain ⟨old, -, -, hold, -⟩ := h.ends id o ho
          exact (hge (List.getElem?_eq_some_iff.mp hold).1).elim
  · intro id o ho
    obtain ⟨call, statics, clock, hcall, hends⟩ := h.ends id o ho
    exact ⟨call, statics, clock, hkept id call hcall, hends⟩
  · intro p hp
    obtain ⟨id, call, hcall, hrest⟩ := h.handled p hp
    exact ⟨id, call, hkept id call hcall, hrest⟩
  · intro s
    rcases he.getKey s with hkey | hkey
    · exact Or.inl hkey
    · rw [hkey]
      exact h.key s
  · exact fun key s hs => h.under key s (he.under key s hs)
  · exact fun room s hs => h.inRoom room s (he.inRoom room s hs)
  · exact fun s => (he.sent s).trans (h.acks s)

/-- The calls that were handled are not the one that moves on. -/
theorem handled_advance (h : Inv cfg st) {id : Nat} {call : Call} (progress : Gate.Progress)
    (hcall : st.net.gate.calls[id]? = some call) (hnot : ¬ call.Handled) :
    ∀ p ∈ st.handled, ∃ i c, (advance st.net.gate id call progress).calls[i]? = some c ∧
      c.Handled ∧ c.session = p.1 ∧ i ≠ id ∧ st.outcomes i = some p.2 := by
  intro p hp
  obtain ⟨i, c, hc, hh, hs, ho⟩ := h.handled p hp
  have hi : i ≠ id := by
    rintro rfl
    rw [hcall] at hc
    cases hc
    exact hnot hh
  exact ⟨i, c, by rw [getElem?_advance progress hcall, if_neg hi, hc], hh, hs, hi, ho⟩

/-- The requests of the calls stay as they are. -/
theorem ends_advance (h : Inv cfg st) {id i : Nat} {call : Call} {o : Outcome}
    (progress : Gate.Progress) (hcall : st.net.gate.calls[id]? = some call)
    (ho : st.outcomes i = some o) : ∃ c statics clock,
      (advance st.net.gate id call progress).calls[i]? = some c ∧
        Ends cfg statics clock c.request o := by
  obtain ⟨c, statics, clock, hc, hends⟩ := h.ends i o ho
  rw [getElem?_advance progress hcall]
  by_cases hi : i = id
  · subst hi
    rw [hcall] at hc
    cases hc
    exact ⟨_, statics, clock, if_pos rfl, hends⟩
  · exact ⟨c, statics, clock, by rw [if_neg hi, hc], hends⟩

theorem connect (h : Inv cfg st) {id : Nat} {clock : List (BitVec 64)} {call : Call} {o : Outcome}
    (hcall : st.net.gate.calls[id]? = some call) (hp : call.progress = .called)
    (ho : Ends cfg st.statics clock call.request o) :
    Inv cfg { st with
      net := Gate.System.replied st.net id call o.response
      statics := o.statics
      commands := st.commands ++ o.commands
      outcomes := Function.update st.outcomes id (some o) } := by
  have hadvance := getElem?_advance (.replied o.response) hcall
  refine ⟨?_, ?_, ?_, h.key, h.under, h.inRoom, h.acks⟩
  · intro i c hc
    simp only [hadvance] at hc
    split at hc
    · rename_i hi
      cases hc
      simp [hi, Call.reply]
    · rename_i hi
      simp only [Function.update_of_ne hi]
      exact h.reply i c hc
  · intro i o' ho'
    by_cases hi : i = id
    · subst hi
      simp only [Function.update_self] at ho'
      cases ho'
      exact ⟨_, st.statics, clock, (hadvance i).trans (if_pos rfl), ho⟩
    · simp only [Function.update_of_ne hi] at ho'
      exact h.ends_advance _ hcall ho'
  · intro p hmem
    obtain ⟨i, c, hc, hh, hs, hi, ho'⟩ := h.handled_advance (.replied o.response) hcall
      (fun ⟨r, hr⟩ => by simp [hp] at hr) p hmem
    exact ⟨i, c, hc, hh, hs, (Function.update_of_ne hi _ _).trans ho'⟩

/-- The reply that is handled is the one that `Connect` made. -/
theorem response_eq (h : Inv cfg st) {id : Nat} {call : Call} {response : ConnectReply}
    {o : Outcome} (hcall : st.net.gate.calls[id]? = some call)
    (hp : call.progress = .replied response) (ho : st.outcomes id = some o) :
    o.response = response := by
  have hreply := h.reply id call hcall
  simp only [Call.reply, hp, ho, Option.map_some, Option.some.injEq] at hreply
  exact hreply.symm

theorem handle (h : Inv cfg st) {id : Nat} {call : Call} {response : ConnectReply} {o : Outcome}
    (hcall : st.net.gate.calls[id]? = some call) (hp : call.progress = .replied response)
    (ho : st.outcomes id = some o) :
    Inv cfg { st with
      net := Gate.System.handled st.net id call response
      handled := st.handled ++ [(call.session, o)] } := by
  have hadvance := getElem?_advance (.handled response) hcall
  have hresponse := h.response_eq hcall hp ho
  have hnew : (call.session, o) ∈ st.handled ++ [(call.session, o)] := by simp
  refine ⟨?_, ?_, ?_, ?_, ?_, ?_, ?_⟩
  · intro i c hc
    replace hc := (hadvance i).symm.trans hc
    split at hc
    · rename_i hi
      cases hc
      simp [hi, Call.reply, ho, hresponse]
    · exact h.reply i c hc
  · exact fun i o' ho' => h.ends_advance _ hcall ho'
  · intro p hmem
    rcases List.mem_append.mp hmem with hmem | hmem
    · obtain ⟨i, c, hc, hh, hs, -, ho'⟩ := h.handled_advance (.handled response) hcall
        (fun ⟨r, hr⟩ => by simp [hp] at hr) p hmem
      exact ⟨i, c, hc, hh, hs, ho'⟩
    · cases List.mem_singleton.mp hmem
      exact ⟨id, _, (hadvance id).trans (if_pos rfl), ⟨response, rfl⟩, rfl, ho⟩
  · intro s
    rw [GateServer.getKey_handleConnect]
    by_cases hs : s = call.session
    · rw [hs, Function.update_self]
      exact Or.inr ⟨o, hnew, by rw [hresponse]⟩
    · rw [Function.update_of_ne hs]
      rcases h.key s with hkey | ⟨o', hmem, hkey⟩
      · exact Or.inl hkey
      · exact Or.inr ⟨o', List.mem_append_left _ hmem, hkey⟩
  · intro key s hs
    rcases GateServer.under_handleConnect.mp hs with hs | ⟨rfl, rfl, -⟩
    · obtain ⟨o', hmem, hkey⟩ := h.under key s hs
      exact ⟨o', List.mem_append_left _ hmem, hkey⟩
    · exact ⟨o, hnew, by rw [hresponse]⟩
  · intro room s hs
    rcases GateServer.inRoom_handleConnect.mp hs with hs | ⟨-, rfl⟩
    · obtain ⟨o', hmem⟩ := h.inRoom room s hs
      exact ⟨o', List.mem_append_left _ hmem⟩
    · exact ⟨o, hnew⟩
  · intro s
    have hsent : (Gate.System.handled st.net id call response).gate.sent =
        st.net.gate.sent ++ [(call.session, GateServer.success)] := rfl
    rw [hsent, List.count_append, List.countP_append, h.acks s]
    by_cases hs : call.session = s
    · simp [hs]
    · simp [hs]

end Inv

theorem Step.inv {cfg : Config} {st st' : State} {l : Label} (h : Step cfg st l st')
    (hi : Inv cfg st) : Inv cfg st' := by
  cases h with
  | move l gl net hl hstep => exact hi.move (effect_of_plain hl hstep)
  | connect id clock call o hcall hp ho => exact hi.connect hcall hp ho
  | handle id call response o hcall hp ho => exact hi.handle hcall hp ho

theorem run_inv {cfg : Config} {serverid : Bytes} {ls : List Label} {st : State}
    (h : run (step cfg) (init serverid) ls = some st) : Inv cfg st :=
  run_kept (fun _ _ _ hi hs => (step_inv hs).inv hi) ls _ st (inv_init cfg serverid) h

end Cppim.Cluster
