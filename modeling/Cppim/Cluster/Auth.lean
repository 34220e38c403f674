import Cppim.Cluster.System

/-! What a token that `Connect` did not accept does to the gate. The reply has no field
that says so, and `HandleConnect` handles it like any other: the session is registered
under the key of the reply, which is empty if no key was issued.

`acknowledged_iff` says when only accepted tokens are acknowledged.
`handleDisconnect_frame_iff` says when a disconnect leaves the other sessions alone. -/

namespace Cppim.Cluster

open Cppim.Common Cppim.Protocol Cppim.Lib.Transition Cppim.Logic
open Cppim.Gate (GateServer Call Orders)
open Cppim.Gate.System (Registered)

/-! ## Tokens -/

/-- Only accepted tokens are acknowledged: a session gets at most one frame for each of its
accepted tokens, it is registered for an accepted token only, and it stands under keys that
were issued for it. -/
structure Acknowledged (st : State) : Prop where
  frames : ∀ s, st.net.gate.sent.count (s, GateServer.success) ≤
    st.handled.countP fun p => p.1 = s ∧ p.2.accepted
  registered : ∀ s, Registered st.net.gate s → ∃ o, (s, o) ∈ st.handled ∧ o.accepted = true
  issued : ∀ key s, st.net.gate.Under key s → ∃ o, (s, o) ∈ st.handled ∧ o.issued = some key

/-- The reply that is handled answers a well-formed token. -/
def WellFormedToken (cfg : Config) : State → Label → Prop
  | st, .handle id => ∀ call ∈ st.net.gate.calls[id]?, wellFormed cfg.parse call.request.token
  | _, _ => True

instance (cfg : Config) (st : State) (l : Label) : Decidable (WellFormedToken cfg st l) := by
  cases l <;> unfold WellFormedToken <;> infer_instance

/-- Every token whose reply was handled was accepted. -/
def AllAccepted (st : State) : Prop := ∀ p ∈ st.handled, p.2.accepted = true

namespace Inv

variable {cfg : Config} {st : State}

/-- What `Connect` did for a reply that was handled. -/
theorem ends_of_handled (h : Inv cfg st) {s : Nat} {o : Outcome} (hmem : (s, o) ∈ st.handled) :
    ∃ statics clock request, Ends cfg statics clock request o := by
  obtain ⟨id, -, -, -, -, ho⟩ := h.handled _ hmem
  obtain ⟨call, statics, clock, -, hends⟩ := h.ends id o ho
  exact ⟨statics, clock, call.request, hends⟩

theorem acknowledged (h : Inv cfg st) (hall : AllAccepted st) : Acknowledged st where
  frames := by
    intro s
    rw [h.acks s]
    refine List.countP_mono_left fun p hp hs => ?_
    simp [of_decide_eq_true hs, hall p hp]
  registered := by
    rintro s (⟨key, hs⟩ | ⟨room, hs⟩)
    · obtain ⟨o, hmem, -⟩ := h.under key s hs
      exact ⟨o, hmem, hall _ hmem⟩
    · obtain ⟨o, hmem⟩ := h.inRoom room s hs
      exact ⟨o, hmem, hall _ hmem⟩
  issued := by
    intro key s hs
    obtain ⟨o, hmem, hkey⟩ := h.under key s hs
    obtain ⟨statics, clock, request, hends⟩ := h.ends_of_handled hmem
    obtain ⟨k, hk⟩ := hends.issued_of_accepted (hall _ hmem)
    rw [hends.key_eq, hk] at hkey
    exact ⟨o, hmem, hkey ▸ hk⟩

/-- A reply to a token that was not accepted is acknowledged all the same. -/
theorem not_acknowledged (h : Inv cfg st) {id : Nat} {call : Call}
    {response : ConnectReply} {o : Outcome} (ho : o.accepted = false) :
    ¬ Acknowledged { st with
      net := Gate.System.handled st.net id call response
      handled := st.handled ++ [(call.session, o)] } := by
  intro hack
  have hframes := hack.frames call.session
  have hsent : (Gate.System.handled st.net id call response).gate.sent =
      st.net.gate.sent ++ [(call.session, GateServer.success)] := rfl
  rw [hsent, List.count_append, List.countP_append, h.acks] at hframes
  have hle : st.handled.countP (fun p => p.1 = call.session ∧ p.2.accepted) ≤
      st.handled.countP (·.1 = call.session) :=
    List.countP_mono_left fun p _ hp => by simp_all
  simp only [List.count_singleton_self, List.countP_singleton, ho, Bool.false_eq_true, and_false,
    decide_false, ↓reduceIte] at hframes
  omega

end Inv

theorem Step.accepted {cfg : Config} {st st' : State} {l : Label} (h : Step cfg st l st')
    (hi : Inv cfg st) (hall : AllAccepted st) :
    (WellFormedToken cfg st l ∧ Inv cfg st' ∧ AllAccepted st') ∨
      (¬ WellFormedToken cfg st l ∧ ¬ Acknowledged st') := by
  have hinv := h.inv hi
  cases h with
  | move l gl net hl hstep =>
    refine Or.inl ⟨?_, hinv, hall⟩
    cases hl <;> trivial
  | connect id clock call o hcall hp ho => exact Or.inl ⟨trivial, hinv, hall⟩
  | handle id call response o hcall hp ho =>
    obtain ⟨c, statics, clock, hc, hends⟩ := hi.ends id o ho
    rw [hcall] at hc
    cases hc
    cases hacc : o.accepted with
    | true =>
      refine Or.inl ⟨fun c hc => ?_, hinv, fun p hp => ?_⟩
      · rw [Option.mem_def, hcall] at hc
        cases hc
        exact hends.accepted_iff.mp hacc
      · rcases List.mem_append.mp hp with hp | hp
        · exact hall p hp
        · cases List.mem_singleton.mp hp
          exact hacc
    | false =>
      refine Or.inr ⟨fun hwf => ?_, hi.not_acknowledged hacc⟩
      have htrue := hends.accepted_iff.mpr (hwf call hcall)
      rw [hacc] at htrue
      cases htrue

/-- **Only accepted tokens are acknowledged**, in every state of a run, exactly if every
reply that is handled answers a well-formed token. -/
theorem acknowledged_iff (cfg : Config) (serverid : Bytes) (ls : List Label) (st : State)
    (hrun : run (step cfg) (init serverid) ls = some st) :
    (∀ as bs u, ls = as ++ bs → run (step cfg) (init serverid) as = some u → Acknowledged u) ↔
      Guarded (step cfg) (WellFormedToken cfg) (init serverid) ls :=
  always_iff_guarded (I := fun st => Inv cfg st ∧ AllAccepted st)
    (fun _ hi => hi.1.acknowledged hi.2)
    (fun _ _ _ hi hs => (step_inv hs).accepted hi.1 hi.2) ls _ st
    ⟨inv_init cfg serverid, by simp [AllAccepted, init]⟩ hrun

/-! Two tokens, and a parser that reads the first and refuses the second. -/

def goodToken : Bytes :=
  bytes "\x7b\"mid\":1,\"room_id\":\"live://1\",\"accepts\":[9]\x7d"

def badToken : Bytes := bytes "hello"

def oneToken : Config where
  parse := fun token =>
    if token = goodToken then
      some (.object [(bytes "mid", .number 1), (bytes "room_id", .string (bytes "live://1")),
        (bytes "accepts", .array [.number 9])])
    else none
  serverid_ := 1

/-- A client sends a token and its reply is handled. -/
def oneClient (token : Bytes) (clock : List (BitVec 64)) : List Label :=
  [.newSession 0, .message 0 ⟨7, 0, token⟩, .connect 0 clock, .handle 0]

theorem acknowledged_iff_good_token :
    Guarded (step oneToken) (WellFormedToken oneToken) (init (bytes "gate1"))
      (oneClient goodToken [1000, 1000]) ∧
    ∀ as bs u, oneClient goodToken [1000, 1000] = as ++ bs →
      run (step oneToken) (init (bytes "gate1")) as = some u → Acknowledged u := by
  have hsome : (run (step oneToken) (init (bytes "gate1"))
      (oneClient goodToken [1000, 1000])).isSome = true := by decide +kernel
  obtain ⟨st, hst⟩ := Option.isSome_iff_exists.mp hsome
  have hguard : Guarded (step oneToken) (WellFormedToken oneToken) (init (bytes "gate1"))
      (oneClient goodToken [1000, 1000]) := by decide +kernel
  exact ⟨hguard, (acknowledged_iff _ _ _ st hst).mpr hguard⟩

/-- A client whose token is not even JSON is registered under the empty key and told
"success". -/
theorem bad_token_acknowledged :
    ∃ st, run (step oneToken) (init (bytes "gate1")) (oneClient badToken []) = some st ∧
      st.handled.map (fun p => (p.1, p.2.accepted)) = [(0, false)] ∧
      st.net.gate.sent = [(0, GateServer.success)] ∧
      st.net.gate.Under [] 0 ∧ st.net.gate.InRoom [] 0 ∧ ¬ Acknowledged st := by
  have hview : (run (step oneToken) (init (bytes "gate1")) (oneClient badToken [])).map
      (fun st => (st.handled.map fun p => (p.1, p.2.accepted), st.net.gate.sent,
        st.net.gate.channels_[([] : Bytes)]?,
        st.net.gate.rooms_[([] : Bytes)]?.map fun members => decide (0 ∈ members))) =
      some ([(0, false)], [(0, GateServer.success)], some 0, some true) := by
    decide +kernel
  obtain ⟨st, hst, hv⟩ := Option.map_eq_some_iff.mp hview
  simp only [Prod.mk.injEq, Option.map_eq_some_iff, decide_eq_true_eq] at hv
  obtain ⟨hhandled, hsent, hkey, hroom⟩ := hv
  refine ⟨st, hst, hhandled, hsent, hkey, hroom, fun hack => ?_⟩
  obtain ⟨o, hmem, ho⟩ := hack.registered 0 (Or.inl ⟨[], hkey⟩)
  have hin : (0, o.accepted) ∈ st.handled.map (fun p => (p.1, p.2.accepted)) :=
    List.mem_map.mpr ⟨_, hmem, rfl⟩
  rw [hhandled, ho] at hin
  simp at hin

/-! ## Disconnects -/

/-- `HandleDisconnect` of one session leaves the entries and rooms of the others. -/
def Frames (g : GateServer) (session : Nat) : Prop :=
  (∀ key s, s ≠ session → ((g.handleDisconnect session).Under key s ↔ g.Under key s)) ∧
  ∀ room s, s ≠ session → ((g.handleDisconnect session).InRoom room s ↔ g.InRoom room s)

/-- What stands under the key of a session is the session. -/
def OwnKey (g : GateServer) (session : Nat) : Prop :=
  ∀ s, g.Under (g.getKey session) s → s = session

theorem frames_iff_ownKey (g : GateServer) (session : Nat) :
    Frames g session ↔ OwnKey g session := by
  constructor
  · rintro ⟨hunder, -⟩ s hs
    by_contra hne
    exact (GateServer.under_handleDisconnect.mp ((hunder _ s hne).mpr hs)).2 rfl
  · intro hown
    refine ⟨fun key s hne => ?_, fun room s hne => ?_⟩
    · rw [GateServer.under_handleDisconnect, and_iff_left_iff_imp]
      rintro hs rfl
      exact hne (hown s hs)
    · rw [GateServer.inRoom_handleDisconnect, and_iff_left_iff_imp]
      exact fun _ h => hne h.2

/-- The keys that `generateKey` has issued differ. -/
def DistinctKeys (st : State) : Prop :=
  ∀ i j oi oj key, st.outcomes i = some oi → st.outcomes j = some oj →
    oi.issued = some key → oj.issued = some key → i = j

namespace Inv

variable {cfg : Config} {st : State}

/-- A key that is not empty was issued. -/
theorem issued_of_ne (h : Inv cfg st) {s : Nat} {o : Outcome} (hmem : (s, o) ∈ st.handled)
    (hne : o.response.key ≠ []) : o.issued = some o.response.key := by
  obtain ⟨statics, clock, request, hends⟩ := h.ends_of_handled hmem
  rw [hends.key_eq] at hne ⊢
  cases hissued : o.issued with
  | none => simp [hissued] at hne
  | some key => rfl

/-- Distinct keys belong to distinct calls, and a call to one session. -/
theorem session_eq (h : Inv cfg st) (hdistinct : DistinctKeys st) {s t : Nat} {o o' : Outcome}
    (hs : (s, o) ∈ st.handled) (ht : (t, o') ∈ st.handled)
    (heq : o.response.key = o'.response.key) (hne : o.response.key ≠ []) : s = t := by
  obtain ⟨i, c, hc, -, hcs, hio⟩ := h.handled _ hs
  obtain ⟨j, d, hd, -, hds, hjo⟩ := h.handled _ ht
  have hij : i = j := hdistinct i j o o' o.response.key hio hjo (h.issued_of_ne hs hne)
    (heq ▸ h.issued_of_ne ht (heq ▸ hne))
  subst hij
  rw [hc] at hd
  cases hd
  exact hcs.symm.trans hds

/-- The keys that were issued, call by call. -/
theorem distinctKeys_of_nodup (h : Inv cfg st)
    (hnodup : ((List.range st.net.gate.calls.length).filterMap fun i =>
      (st.outcomes i).bind (·.issued)).Nodup) : DistinctKeys st := by
  have hlt : ∀ i o, st.outcomes i = some o →
      (List.range st.net.gate.calls.length)[i]? = some i := by
    intro i o ho
    obtain ⟨call, -, -, hcall, -⟩ := h.ends i o ho
    exact List.getElem?_range (List.getElem?_eq_some_iff.mp hcall).1
  intro i j oi oj key hi hj hissued hissued'
  refine eq_of_nodup_filterMap hnodup (y := key) (hlt i oi hi) (hlt j oj hj) ?_ ?_
  · rw [hi, Option.bind_some, hissued]
  · rw [hj, Option.bind_some, hissued']

/-- With distinct keys it is the empty key only that two sessions can share. -/
theorem ownKey_iff (h : Inv cfg st) (hdistinct : DistinctKeys st) (session : Nat) :
    OwnKey st.net.gate session ↔
      ¬ (st.net.gate.getKey session = [] ∧ ∃ s, s ≠ session ∧ st.net.gate.Under [] s) := by
  constructor
  · rintro hown ⟨hkey, s, hne, hs⟩
    exact hne (hown s (hkey.symm ▸ hs))
  · intro hnot s hs
    by_contra hne
    rcases h.key session with hkey | ⟨o, hmem, hkey⟩
    · exact hnot ⟨hkey, s, hne, hkey ▸ hs⟩
    · obtain ⟨o', hmem', hkey'⟩ := h.under _ s hs
      by_cases hempty : st.net.gate.getKey session = []
      · exact hnot ⟨hempty, s, hne, hempty ▸ hs⟩
      · exact hne (h.session_eq hdistinct hmem' hmem (hkey'.trans hkey.symm) (hkey' ▸ hempty))

end Inv

/-- **A disconnect affects its own session only.** In every reachable state, the
disconnect of a session leaves the others alone exactly if no other session stands under
its key. If the issued keys differ, that can only be the empty key, which every session
has that was given none. -/
theorem handleDisconnect_frame_iff (cfg : Config) (serverid : Bytes) (ls : List Label)
    (st : State) (hrun : run (step cfg) (init serverid) ls = some st) (session : Nat) :
    (Frames st.net.gate session ↔ OwnKey st.net.gate session) ∧
    (DistinctKeys st → (Frames st.net.gate session ↔
      ¬ (st.net.gate.getKey session = [] ∧ ∃ s, s ≠ session ∧ st.net.gate.Under [] s))) := by
  have hframes := frames_iff_ownKey st.net.gate session
  exact ⟨hframes, fun hdistinct => hframes.trans ((run_inv hrun).ownKey_iff hdistinct session)⟩

/-- Two clients, of which the second sends its token after the first was registered. -/
def twoClients : List Label :=
  oneClient goodToken [1000, 1000] ++
    [.newSession 0, .message 1 ⟨7, 0, goodToken⟩, .connect 1 [1000], .handle 1]

theorem handleDisconnect_frame_iff_good_token :
    ∃ st, run (step oneToken) (init (bytes "gate1")) twoClients = some st ∧ DistinctKeys st ∧
      st.net.gate.Under (st.net.gate.getKey 0) 0 ∧ st.net.gate.Under (st.net.gate.getKey 1) 1 ∧
      st.net.gate.getKey 0 ≠ st.net.gate.getKey 1 ∧ Frames st.net.gate 0 ∧
      Frames st.net.gate 1 := by
  have hview : (run (step oneToken) (init (bytes "gate1")) twoClients).map
      (fun st => (((List.range st.net.gate.calls.length).filterMap fun i =>
          (st.outcomes i).bind (·.issued)), st.net.gate.getKey 0, st.net.gate.getKey 1,
        st.net.gate.channels_[st.net.gate.getKey 0]?,
        st.net.gate.channels_[st.net.gate.getKey 1]?)) =
      some ([bytes "4194308097", bytes "4194308098"], bytes "4194308097", bytes "4194308098",
        some 0, some 1) := by
    decide +kernel
  obtain ⟨st, hst, hv⟩ := Option.map_eq_some_iff.mp hview
  simp only [Prod.mk.injEq] at hv
  obtain ⟨hissued, hfirst, hsecond, hunder, hunder'⟩ := hv
  have hdistinct := (run_inv hst).distinctKeys_of_nodup (by rw [hissued]; decide)
  have hframe := fun session => (handleDisconnect_frame_iff _ _ _ st hst session).2 hdistinct
  refine ⟨st, hst, hdistinct, hunder, hunder', by rw [hfirst, hsecond]; decide,
    (hframe 0).mpr fun h => ?_, (hframe 1).mpr fun h => ?_⟩
  · exact absurd (hfirst.symm.trans h.1) (by decide)
  · exact absurd (hsecond.symm.trans h.1) (by decide)

/-- The disconnect of a session that never sent a token removes the entry of another one,
whose token was not accepted. -/
theorem disconnect_removes_other :
    ∃ st, run (step oneToken) (init (bytes "gate1"))
        (oneClient badToken [] ++ [.newSession 0]) = some st ∧
      st.net.gate.Under [] 0 ∧ ¬ (st.net.gate.handleDisconnect 1).Under [] 0 ∧
      ¬ Frames st.net.gate 1 := by
  have hview : (run (step oneToken) (init (bytes "gate1"))
      (oneClient badToken [] ++ [.newSession 0])).map
      (fun st => (st.net.gate.channels_[([] : Bytes)]?, st.net.gate.getKey 1)) =
      some (some 0, []) := by
    decide +kernel
  obtain ⟨st, hst, hv⟩ := Option.map_eq_some_iff.mp hview
  simp only [Prod.mk.injEq] at hv
  obtain ⟨hunder, hkey⟩ := hv
  have hgone : ¬ (st.net.gate.handleDisconnect 1).Under [] 0 := fun h =>
    (GateServer.under_handleDisconnect.mp h).2 hkey.symm
  exact ⟨st, hst, hunder, hgone, fun hframes => hgone ((hframes.1 [] 0 (by decide)).mpr hunder)⟩

end Cppim.Cluster
