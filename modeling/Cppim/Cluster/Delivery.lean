import Cppim.Cluster.Auth

/-! The way of a push from the logic server through the job server to the clients.
`PushMsgByMids` puts the keys into the message as `generateKey` issued them;
`PushMsgByKeys` puts them there with the prefix that they have in Redis.
`pushMsgByKeys_undelivered` says what that does to every push by key. -/

namespace Cppim.Cluster

open Cppim.Common Cppim.Protocol Cppim.Lib.Transition Cppim.Logic
open Cppim.Gate (GateServer Call Orders)

/-- The messages go through Kafka and `JobServer::push` to `GateServiceImpl`. -/
def deliver (orders : Orders) (g : GateServer) (ms : List Message) : GateServer :=
  ms.foldl (fun g m => g.serve orders (Job.push m.value)) g

/-- What `SendToClient` sends for a list of keys. -/
def framesFor (g : GateServer) (msg : Bytes) (keys : List Bytes) :
    List (Nat × Gate.ClientCodec.Message) :=
  keys.flatMap fun key =>
    g.channels_[key]?.toList.map (·, GateServer.frame (Job.proto msg))

/-- The messages of one push call `SendToClient` for the keys that are in them. -/
theorem sends_deliver (orders : Orders) (g : GateServer) (elems : List (Bytes × List Bytes))
    (op : Int) (msg : Bytes) (cb : Option Nat) :
    g.Sends (deliver orders g (elems.map (groupMessage op msg cb)))
      (framesFor g msg (elems.flatMap Prod.snd)) := by
  rw [framesFor, List.flatMap_assoc, deliver, List.foldl_map]
  exact GateServer.sends_foldl
    (fun g elem => g.serve orders (Job.push (groupMessage op msg cb elem).value))
    (fun g elem => framesFor g msg elem.2)
    (fun g elem => g.sends_pushMsg { keys := elem.2, protoOp := op, proto := Job.proto msg })
    (fun _ _ _ => rfl) elems g

/-! ## The keys of the gate -/

theorem to_string_ne_nil (n : BitVec 64) : to_string n ≠ [] := Lib.Decimal.decimal_ne_nil n.toNat

/-- A key of Redis is not the text of a number. -/
theorem keyKeyServer_ne (key : Bytes) (n : BitVec 64) : keyKeyServer key ≠ to_string n := by
  intro heq
  have hmem : (107 : UInt8) ∈ to_string n := by
    rw [← heq]
    exact List.mem_append_left _ (by decide)
  have hrange := Lib.Decimal.decimal_range n.toNat 107 hmem
  exact absurd hrange.2 (by decide)

/-- Every key in `channels_` is empty or the text of a number. -/
theorem Inv.decimal_of_under {cfg : Config} {st : State} (h : Inv cfg st) {key : Bytes} {s : Nat}
    (hs : st.net.gate.Under key s) : key = [] ∨ ∃ n, key = to_string n := by
  obtain ⟨o, hmem, rfl⟩ := h.under key s hs
  by_cases hne : o.response.key = []
  · exact Or.inl hne
  · obtain ⟨statics, clock, request, hends⟩ := h.ends_of_handled hmem
    exact Or.inr (hends.issued_decimal (h.issued_of_ne hmem hne))

/-- Nothing stands under a key of Redis. -/
theorem Inv.channels_keyKeyServer {cfg : Config} {st : State} (h : Inv cfg st) (key : Bytes) :
    st.net.gate.channels_[keyKeyServer key]? = none := by
  rw [Option.eq_none_iff_forall_ne_some]
  intro s hs
  rcases h.decimal_of_under hs with hnil | ⟨n, hn⟩
  · exact absurd hnil (by simp [keyKeyServer, bytes])
  · exact keyKeyServer_ne key n hn

/-! ## Sessions that are found -/

/-- If the issued keys differ, a connected session stands under every key that was issued
for it and whose reply was handled. -/
structure Found (st : State) : Prop where
  callers : ∀ call ∈ st.net.gate.calls, call.session < st.net.opened
  found : DistinctKeys st → ∀ s o key, (s, o) ∈ st.handled → o.issued = some key →
    s ∈ st.net.connections_ → st.net.gate.Under key s

theorem found_init (serverid : Bytes) : Found (init serverid) :=
  ⟨by simp [init, Gate.System.init], fun _ => by simp [init]⟩

namespace Found

variable {cfg : Config} {st : State}

theorem move (h : Found st) (hi : Inv cfg st) {l : Label} {gl : Gate.System.Label}
    {net : Gate.System.State} (hl : Plain l gl) (hstep : Gate.System.Step st.net gl net) :
    Found { st with net := net } := by
  cases hl with
  | newSession mid =>
    cases hstep
    refine ⟨fun call hcall => Nat.lt_succ_of_lt (h.callers call hcall), ?_⟩
    intro hdistinct s o key hmem hissued hs
    -- the new session has no call yet
    obtain ⟨id, call, hcall, -, hsession, -⟩ := hi.handled _ hmem
    have hlt := h.callers call (List.mem_of_getElem? hcall)
    rw [hsession] at hlt
    simp only [Gate.System.newSession, Std.ExtTreeSet.mem_insert,
      Std.LawfulEqCmp.compare_eq_iff_eq] at hs
    exact h.found hdistinct s o key hmem hissued (hs.resolve_left (Nat.ne_of_gt hlt))
  | message session m =>
    cases hstep with
    | message session m hs =>
      have hsame := Gate.System.sameRegistry_message st.net.gate session m
      refine ⟨Gate.System.callers_message m h.callers hs,
        fun hdistinct s o key hmem hissued hconn => ?_⟩
      rw [hsame.under]
      exact h.found hdistinct s o key hmem hissued hconn
  | close session =>
    cases hstep with
    | closeAgain hs => exact h
    | close hs =>
      refine ⟨h.callers, fun hdistinct s o key hmem hissued hconn => ?_⟩
      simp only [Std.ExtTreeSet.mem_erase, ne_eq, Std.LawfulEqCmp.compare_eq_iff_eq] at hconn
      refine GateServer.under_handleDisconnect.mpr
        ⟨h.found hdistinct s o key hmem hissued hconn.2, fun heq => hconn.1 ?_⟩
      -- a session with the same key is the same session
      obtain ⟨statics, clock, request, hends⟩ := hi.ends_of_handled hmem
      obtain ⟨n, hn⟩ := hends.issued_decimal hissued
      have hkey : o.response.key = key := by rw [hends.key_eq, hissued, Option.getD_some]
      have hne : key ≠ [] := hn ▸ to_string_ne_nil n
      rcases hi.key session with hnone | ⟨o', hmem', hkey'⟩
      · exact absurd (heq.trans hnone) hne
      · exact hi.session_eq hdistinct hmem' hmem ((hkey'.trans heq.symm).trans hkey.symm)
          (by rw [hkey', ← heq]; exact hne)
  | push orders msg =>
    cases hstep
    obtain ⟨hsame, hcalls⟩ := Gate.System.serve_same orders st.net.gate (Job.push msg)
    refine ⟨hcalls ▸ h.callers, fun hdistinct s o key hmem hissued hconn => ?_⟩
    rw [hsame.under]
    exact h.found hdistinct s o key hmem hissued hconn

/-- The key of a new outcome differs from the ones before it. -/
theorem connect (h : Found st) (hi : Inv cfg st) {id : Nat} {call : Call} {o : Outcome}
    (hcall : st.net.gate.calls[id]? = some call) (hp : call.progress = .called)
    (statics : Option KeyGen) (commands : List Command) :
    Found { st with
      net := Gate.System.replied st.net id call o.response
      statics := statics
      commands := commands
      outcomes := Function.update st.outcomes id (some o) } := by
  have hnone : st.outcomes id = none := by
    have hreply := hi.reply id call hcall
    simpa [Call.reply, hp, eq_comm] using hreply
  have hold : ∀ i o', st.outcomes i = some o' →
      Function.update st.outcomes id (some o) i = some o' := by
    intro i o' ho'
    have hne : i ≠ id := by
      rintro rfl
      simp [hnone] at ho'
    rw [Function.update_of_ne hne, ho']
  refine ⟨Gate.System.callers_advance h.callers hcall _, fun hdistinct => ?_⟩
  refine h.found fun i j oi oj key hoi hoj => ?_
  exact hdistinct i j oi oj key (hold i oi hoi) (hold j oj hoj)

theorem handle (h : Found st) (hi : Inv cfg st) {id : Nat} {call : Call}
    {response : ConnectReply} {o : Outcome} (hcall : st.net.gate.calls[id]? = some call)
    (hp : call.progress = .replied response) (ho : st.outcomes id = some o) :
    Found { st with
      net := Gate.System.handled st.net id call response
      handled := st.handled ++ [(call.session, o)] } := by
  refine ⟨Gate.System.callers_advance h.callers hcall _,
    fun hdistinct s o' key hmem hissued hconn => ?_⟩
  rcases List.mem_append.mp hmem with hmem | hmem
  · exact GateServer.under_handleConnect.mpr
      (Or.inl (h.found hdistinct s o' key hmem hissued hconn))
  · cases List.mem_singleton.mp hmem
    obtain ⟨_, statics, clock, -, hends⟩ := hi.ends id o ho
    have hkey : response.key = key := by
      rw [← hi.response_eq hcall hp ho, hends.key_eq, hissued, Option.getD_some]
    obtain ⟨n, hn⟩ := hends.issued_decimal hissued
    refine GateServer.under_handleConnect.mpr (Or.inr ⟨hkey.symm, rfl, ?_⟩)
    -- a session under this key would have it from a call that was handled before
    rw [Option.eq_none_iff_forall_ne_some]
    intro t ht
    obtain ⟨o₁, hmem₁, hkey₁⟩ := hi.under key t ht
    have hissued₁ : o₁.issued = some key := by
      rw [hi.issued_of_ne hmem₁ (hkey₁.symm ▸ hn ▸ to_string_ne_nil n), hkey₁]
    obtain ⟨i, c, hc, ⟨r, hr⟩, -, hio⟩ := hi.handled _ hmem₁
    have hid : i = id := hdistinct i id o₁ o key hio ho hissued₁ hissued
    rw [hid, hcall] at hc
    cases hc
    simp [hp] at hr

end Found

theorem Step.found {cfg : Config} {st st' : State} {l : Label} (h : Step cfg st l st')
    (hi : Inv cfg st) (hf : Found st) : Found st' := by
  cases h with
  | move l gl net hl hstep => exact hf.move hi hl hstep
  | connect id clock call o hcall hp ho => exact hf.connect hi hcall hp _ _
  | handle id call response o hcall hp ho => exact hf.handle hi hcall hp ho

theorem run_found {cfg : Config} {serverid : Bytes} {ls : List Label} {st : State}
    (h : run (step cfg) (init serverid) ls = some st) : Found st := by
  have hboth : Inv cfg st ∧ Found st := by
    refine run_kept (I := fun st => Inv cfg st ∧ Found st) ?_ ls _ st
      ⟨inv_init cfg serverid, found_init serverid⟩ h
    intro st l st' hi hs
    exact ⟨(step_inv hs).inv hi.1, (step_inv hs).found hi.1 hi.2⟩
  exact hboth.2

/-! ## Push by key and push by mid -/

/-- The session of a key is found, and `SendToClient` is called as often for the key as
the key was asked for. -/
def Delivered (orders : Orders) (g : GateServer) (ms : List Message) (msg : Bytes)
    (keys : List Bytes) (key : Bytes) (session : Nat) : Prop :=
  g.Under key session ∧ ∃ names, names.count key = keys.count key ∧
    g.Sends (deliver orders g ms) (framesFor g msg names)

/-- A key that is found is sent something. -/
theorem framesFor_ne_nil {g : GateServer} {key : Bytes} {session : Nat}
    (hunder : g.Under key session) (msg : Bytes) {names : List Bytes} (hmem : key ∈ names) :
    framesFor g msg names ≠ [] := by
  refine List.ne_nil_of_mem (a := (session, GateServer.frame (Job.proto msg))) ?_
  refine List.mem_flatMap.mpr ⟨key, hmem, ?_⟩
  rw [hunder]
  simp

theorem Delivered.ne {orders : Orders} {g : GateServer} {ms : List Message} {msg : Bytes}
    {keys : List Bytes} {key : Bytes} {session : Nat}
    (h : Delivered orders g ms msg keys key session) (hkey : key ∈ keys) :
    deliver orders g ms ≠ g := by
  obtain ⟨hunder, names, hcount, hsends⟩ := h
  intro heq
  have hmem : key ∈ names := by
    rw [← List.count_pos_iff, hcount, List.count_pos_iff]
    exact hkey
  have hsent := congrArg GateServer.sent (heq.symm.trans hsends)
  exact framesFor_ne_nil hunder msg hmem (List.self_eq_append_right.mp hsent)

/-- The keys in the messages of `PushMsgByKeys`, if all of them are in Redis. -/
theorem pushMsgByKeys_names (env : Env) (keys : List Bytes) (op : Int) (msg : Bytes)
    (hpresent : ∀ key ∈ keys, (env.redis.strings (keyKeyServer key)).isSome) :
    ∃ elems : List (Bytes × List Bytes),
      pushMsgByKeys env keys op msg = .ok (elems.map (groupMessage op msg none)) ∧
      (elems.flatMap Prod.snd).Perm (keys.map keyKeyServer) := by
  refine ⟨_, pushMsgByKeys_eq env keys op msg, ?_⟩
  have hall : ∀ name ∈ keys.map keyKeyServer, (env.redis.strings name).isSome := by
    intro name hname
    obtain ⟨key, hkey, rfl⟩ := List.mem_map.mp hname
    exact hpresent key hkey
  have hlead : Lib.Pairing.Leading env.redis.strings (keys.map keyKeyServer) :=
    List.pairwise_of_forall_mem_list fun a ha b _ _ => hall a ha
  refine (perm_elements_group env.serverOrder _).trans ?_
  rw [hlead.zip_eq, Lib.Pairing.map_snd_paired _ hall]

/-- A key of a mid is in the messages of `PushMsgByMids` once. -/
theorem pushMsgByMids_names (env : Env) (mids : List Int) (op : Int) (msg : Bytes)
    (cb : Option Nat) {mid : Int} {key : Bytes} (hmid : mid ∈ mids)
    (hkey : key ∈ (env.redis.hashes (keyMidServer mid)).map Prod.fst) :
    ∃ elems : List (Bytes × List Bytes),
      pushMsgByMids env mids op msg cb = .ok (elems.map (groupMessage op msg cb)) ∧
      (elems.flatMap Prod.snd).count key = 1 := by
  obtain ⟨keyServer, howner, heq⟩ := pushMsgByMids_eq env mids op msg cb
  refine ⟨_, heq.trans (pushGroups_eq ..), ?_⟩
  rw [(perm_elements_group env.serverOrder _).count_eq, List.map_map]
  have hin : key ∈ (env.keyOrder.elements keyServer).map Prod.fst := by
    have hk : key ∈ keyServer := (mem_of_owners howner key).mpr ⟨mid, hmid, hkey⟩
    obtain ⟨v, hv⟩ := Option.isSome_iff_exists.mp (Std.ExtTreeMap.mem_iff_isSome_getElem?.mp hk)
    exact List.mem_map.mpr ⟨(key, v), (env.keyOrder.mem_elements _ _ _).mpr hv, rfl⟩
  exact List.count_eq_one_of_mem (env.keyOrder.nodup_elements keyServer) hin

/-- **Push by key does not arrive.** In every reachable state, a push by key sends nothing
at all, whatever keys of connected sessions are asked for: the messages have the keys of
Redis in them, under which the gate has no session. With distinct keys, `PushMsgByMids` of
the mid that owns the key finds the session and sends it one frame. -/
theorem pushMsgByKeys_undelivered (cfg : Config) (serverid : Bytes) (ls : List Label) (st : State)
    (hrun : run (step cfg) (init serverid) ls = some st) (orders : Orders) (env : Env)
    (keys : List Bytes) (op : Int) (msg : Bytes) (session : Nat) (o : Outcome) (key : Bytes)
    (hlive : session ∈ st.net.connections_) (hhandled : (session, o) ∈ st.handled)
    (hissued : o.issued = some key) (hkey : key ∈ keys)
    (hpresent : ∀ key ∈ keys, (env.redis.strings (keyKeyServer key)).isSome) :
    (∃ ms, pushMsgByKeys env keys op msg = .ok ms ∧
      ((ms.flatMap fun m => m.value.keys).Perm (keys.map keyKeyServer) ∧
        deliver orders st.net.gate ms = st.net.gate) ∧
      ¬ Delivered orders st.net.gate ms msg keys key session) ∧
    (DistinctKeys st → ∀ mids cb mid, mid ∈ mids →
      key ∈ (env.redis.hashes (keyMidServer mid)).map Prod.fst →
      ∃ ms, pushMsgByMids env mids op msg cb = .ok ms ∧
        Delivered orders st.net.gate ms msg [key] key session) := by
  have hinv := run_inv hrun
  constructor
  · obtain ⟨elems, hms, hperm⟩ := pushMsgByKeys_names env keys op msg hpresent
    have hnothing : framesFor st.net.gate msg (elems.flatMap Prod.snd) = [] := by
      refine List.flatMap_eq_nil_iff.mpr fun name hname => ?_
      obtain ⟨k, -, rfl⟩ := List.mem_map.mp (hperm.mem_iff.mp hname)
      simp [hinv.channels_keyKeyServer k]
    have hsends := sends_deliver orders st.net.gate elems op msg none
    rw [hnothing, GateServer.sends_nil_iff] at hsends
    refine ⟨_, hms, ⟨?_, hsends⟩, fun hdelivered => hdelivered.ne hkey hsends⟩
    rw [List.flatMap_map]
    exact hperm
  · intro hdistinct mids cb mid hmid hfield
    obtain ⟨elems, hms, hcount⟩ := pushMsgByMids_names env mids op msg cb hmid hfield
    refine ⟨_, hms, ?_, elems.flatMap Prod.snd, by simp [hcount], ?_⟩
    · exact (run_found hrun).found hdistinct session o key hhandled hissued hlive
    · exact sends_deliver orders st.net.gate elems op msg cb

/-- The key of the first client of `oneClient goodToken [1000, 1000]`. -/
def firstKey : Bytes := bytes "4194308097"

/-- Redis as `Connect` leaves it for this client. -/
def oneOnline : Env where
  redis :=
    { strings := fun name => if name = keyKeyServer firstKey then some (bytes "gate1") else none
      hashes := fun name =>
        if name = keyMidServer 1 then [(firstKey, bytes "gate1")] else []
      nodup := fun name => by
        show (List.map Prod.fst (if name = keyMidServer 1 then _ else _)).Nodup
        split <;> simp }
  keyOrder := .sorted
  serverOrder := .sorted

def inOrder : Orders := ⟨.sorted, ⟨id, fun _ => .refl _⟩⟩

theorem pushMsgByKeys_undelivered_one_client :
    ∃ st o,
      run (step oneToken) (init (bytes "gate1")) (oneClient goodToken [1000, 1000]) = some st ∧
      (0 ∈ st.net.connections_ ∧ (0, o) ∈ st.handled ∧ o.issued = some firstKey) ∧
      (∃ ms, pushMsgByKeys oneOnline [firstKey] 1 [] = .ok ms ∧
        ¬ Delivered inOrder st.net.gate ms [] [firstKey] firstKey 0) ∧
      ∃ ms, pushMsgByMids oneOnline [1] 1 [] none = .ok ms ∧
        Delivered inOrder st.net.gate ms [] [firstKey] firstKey 0 := by
  have hview : (run (step oneToken) (init (bytes "gate1")) (oneClient goodToken [1000, 1000])).map
      (fun st => (decide (0 ∈ st.net.connections_ ∧
          ((List.range st.net.gate.calls.length).filterMap fun i =>
            (st.outcomes i).bind (·.issued)).Nodup),
        st.handled.map fun p => (p.1, p.2.issued))) = some (true, [(0, some firstKey)]) := by
    decide +kernel
  obtain ⟨st, hst, hv⟩ := Option.map_eq_some_iff.mp hview
  simp only [Prod.mk.injEq, decide_eq_true_eq] at hv
  obtain ⟨⟨hlive, hkeys⟩, hhandled⟩ := hv
  have hmem : (0, some firstKey) ∈ st.handled.map (fun p => (p.1, p.2.issued)) := by
    rw [hhandled]
    exact List.mem_singleton.mpr rfl
  obtain ⟨⟨s, o⟩, ho, heq⟩ := List.mem_map.mp hmem
  simp only [Prod.mk.injEq] at heq
  obtain ⟨rfl, hissued⟩ := heq
  obtain ⟨⟨ms, hms, -, hnot⟩, hmids⟩ := pushMsgByKeys_undelivered oneToken (bytes "gate1") _ st
    hst inOrder oneOnline [firstKey] 1 [] 0 o firstKey hlive ho hissued (by simp) (by decide)
  have hdistinct := (run_inv hst).distinctKeys_of_nodup hkeys
  exact ⟨st, o, hst, ⟨hlive, ho, hissued⟩, ⟨ms, hms, hnot⟩,
    hmids hdistinct [1] none 1 (by simp) (by decide)⟩

/-- The client is connected and registered, and its key is in Redis. A push by mid sends
it a frame, a push by key sends nothing. -/
theorem push_by_key_sends_nothing :
    ∃ st, run (step oneToken) (init (bytes "gate1")) (oneClient goodToken [1000, 1000]) = some st ∧
      0 ∈ st.net.connections_ ∧ st.net.gate.Under firstKey 0 ∧
      (pushMsgByKeys oneOnline [firstKey] 1 (bytes "hi")).toOption.map
        (fun ms => (deliver inOrder st.net.gate ms).sent) = some [(0, GateServer.success)] ∧
      (pushMsgByMids oneOnline [1] 1 (bytes "hi") none).toOption.map
        (fun ms => (deliver inOrder st.net.gate ms).sent) =
          some [(0, GateServer.success), (0, ⟨9, 0, bytes "hi"⟩)] := by
  have hview : (run (step oneToken) (init (bytes "gate1")) (oneClient goodToken [1000, 1000])).map
      (fun st => (decide (0 ∈ st.net.connections_), st.net.gate.channels_[firstKey]?)) =
      some (true, some 0) := by
    decide +kernel
  have hsent : (run (step oneToken) (init (bytes "gate1")) (oneClient goodToken [1000, 1000])).map
      (fun st => [pushMsgByKeys oneOnline [firstKey] 1 (bytes "hi"),
          pushMsgByMids oneOnline [1] 1 (bytes "hi") none].map fun ms =>
            ms.toOption.map fun ms => (deliver inOrder st.net.gate ms).sent) =
      some [some [(0, GateServer.success)],
        some [(0, GateServer.success), (0, ⟨9, 0, bytes "hi"⟩)]] := by
    decide +kernel
  obtain ⟨st, hst, hv⟩ := Option.map_eq_some_iff.mp hview
  simp only [Prod.mk.injEq, decide_eq_true_eq] at hv
  simp only [hst, Option.map_some, List.map_cons, List.map_nil, Option.some.injEq,
    List.cons.injEq, and_true] at hsent
  exact ⟨st, hst, hv.1, hv.2, hsent.1, hsent.2⟩

end Cppim.Cluster
