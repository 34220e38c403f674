import Cppim.Gate.Registry

/-! The registry of the gate and the keys and rooms of its sessions, when a client may
authenticate any number of times. `registry_agrees_iff` says that the registry agrees
with the fields of the sessions until a reply is handled for a session that has a key
already: the entry under the old key stays, and nothing finds it any more. -/

namespace Cppim.Gate.System

open Cppim.Common Cppim.Protocol Cppim.Lib.Index Cppim.Lib.Transition

/-- A reply carries a key that no reply before it had and that is not empty, and is
handled while its session is connected. -/
def FreshReply : State → Label → Prop
  | st, .reply _ response => response.key ≠ [] ∧
    ∀ call ∈ st.gate.calls, call.reply.map ConnectReply.key ≠ some response.key
  | st, l => HandledInTime st l

/-- The reply is handled for a session that has no key yet. -/
def FirstKey : State → Label → Prop
  | st, .handle id => ∀ call ∈ st.gate.calls[id]?, st.gate.getKey call.session = []
  | _, _ => True

instance (st : State) : (l : Label) → Decidable (FreshReply st l)
  | .reply _ _ => inferInstanceAs (Decidable (_ ∧ _))
  | .newSession mid => inferInstanceAs (Decidable (HandledInTime st (.newSession mid)))
  | .message s m => inferInstanceAs (Decidable (HandledInTime st (.message s m)))
  | .handle id => inferInstanceAs (Decidable (HandledInTime st (.handle id)))
  | .close s => inferInstanceAs (Decidable (HandledInTime st (.close s)))
  | .serve orders req => inferInstanceAs (Decidable (HandledInTime st (.serve orders req)))

instance (st : State) : (l : Label) → Decidable (FirstKey st l)
  | .handle id =>
    inferInstanceAs (Decidable (∀ call ∈ st.gate.calls[id]?, st.gate.getKey call.session = []))
  | .newSession _ | .message _ _ | .reply _ _ | .close _ | .serve _ _ =>
    inferInstanceAs (Decidable True)

/-- The registry agrees with the sessions, and what follows from that: a connected
session has one key and one room at most, a broadcast reaches it once, and its
disconnect removes it. -/
structure Agreement (st : State) : Prop where
  keys : ∀ key s, st.gate.Under key s → st.gate.getKey s = key
  rooms : ∀ room s, st.gate.InRoom room s → st.gate.getRoom s = room
  oneKey : ∀ s ∈ st.connections_, ∀ k l, st.gate.Under k s → st.gate.Under l s → k = l
  oneRoom : ∀ s ∈ st.connections_, ∀ r q, st.gate.InRoom r s → st.gate.InRoom q s → r = q
  oneFrame : ∀ s ∈ st.connections_, ∀ order msg, ∃ out,
    st.gate.Sends (st.gate.broadCast order msg) out ∧ out.countP (·.1 = s) ≤ 1
  removed : ∀ s ∈ st.connections_, ¬ Registered (st.gate.handleDisconnect s) s

/-- A session that stands under one key at most is visited once at most. -/
theorem countP_elements_le {g : GateServer} (hkeys : Agrees g.Under g.getKey) (order : HashOrder)
    (s : Nat) : (order.elements g.channels_).countP (·.2 = s) ≤ 1 := by
  have hle : (order.elements g.channels_).countP (·.2 = s) ≤
      ((order.elements g.channels_).map Prod.fst).countP (· == g.getKey s) := by
    rw [List.countP_map]
    refine List.countP_mono_left fun elem helem hs => ?_
    have hunder := (order.mem_elements _ elem.1 elem.2).mp helem
    rw [decide_eq_true_eq] at hs
    simp [← hs, hkeys elem.1 elem.2 hunder]
  exact hle.trans (List.nodup_iff_count_le_one.mp (order.nodup_elements g.channels_) _)

theorem Tidy.agreement {st : State} (h : Tidy st) : Agreement st where
  keys := h.keys
  rooms := h.rooms
  oneKey := fun _ _ _ _ hk hl => h.keys.unique hk hl
  oneRoom := fun _ _ _ _ hr hq => h.rooms.unique hr hq
  oneFrame := by
    intro s _ order msg
    refine ⟨_, GateServer.sends_broadCast order st.gate msg, ?_⟩
    rw [List.countP_map]
    exact countP_elements_le h.keys order s
  removed := fun s _ => h.unregistered s

/-! ## The keys of the replies -/

/-- The call has been answered with this key. -/
def RepliedKey (g : GateServer) (id : Nat) (key : Bytes) : Prop :=
  ∃ call, g.calls[id]? = some call ∧ call.reply.map ConnectReply.key = some key

/-- The call has been answered with this key, and the answer handled. -/
def HandledKey (g : GateServer) (id : Nat) (key : Bytes) : Prop :=
  ∃ call response, g.calls[id]? = some call ∧ call.progress = .handled response ∧
    response.key = key

/-- The replies so far have different keys, none of which is empty. -/
structure DistinctKeys (g : GateServer) : Prop where
  distinct : ∀ i j key, RepliedKey g i key → RepliedKey g j key → i = j
  nonempty : ∀ i, ¬ RepliedKey g i []

theorem HandledKey.replied {g : GateServer} {id : Nat} {key : Bytes} (h : HandledKey g id key) :
    RepliedKey g id key := by
  obtain ⟨call, response, hcall, hp, rfl⟩ := h
  exact ⟨call, hcall, by simp [Call.reply, hp]⟩

theorem DistinctKeys.mono {g g' : GateServer} (h : DistinctKeys g)
    (hsub : ∀ i key, RepliedKey g' i key → RepliedKey g i key) : DistinctKeys g' where
  distinct := fun i j key hi hj => h.distinct i j key (hsub i key hi) (hsub j key hj)
  nonempty := fun i hi => h.nonempty i (hsub i [] hi)

theorem RepliedKey.of_calls {g g' : GateServer} (hcalls : g'.calls = g.calls) {i : Nat}
    {key : Bytes} (h : RepliedKey g' i key) : RepliedKey g i key := by
  obtain ⟨call, hcall, hkey⟩ := h
  exact ⟨call, hcalls ▸ hcall, hkey⟩

theorem HandledKey.of_calls {g g' : GateServer} (hcalls : g'.calls = g.calls) {i : Nat}
    {key : Bytes} (h : HandledKey g i key) : HandledKey g' i key := by
  obtain ⟨call, response, hcall, hrest⟩ := h
  exact ⟨call, response, hcalls ▸ hcall, hrest⟩

/-- A call that moves on gets the key of its reply, if it has one now. -/
theorem RepliedKey.of_advance {g : GateServer} {id i : Nat} {call : Call} {progress : Progress}
    {key : Bytes} (hcall : g.calls[id]? = some call)
    (h : RepliedKey (advance g id call progress) i key) :
    RepliedKey g i key ∨ (i = id ∧
      (Call.reply { call with progress := progress }).map ConnectReply.key = some key) := by
  obtain ⟨c, hc, hkey⟩ := h
  rw [getElem?_advance progress hcall] at hc
  split at hc
  · cases hc
    exact Or.inr ⟨‹_›, hkey⟩
  · exact Or.inl ⟨c, hc, hkey⟩

/-- A call that was handled stays so when another one moves on. -/
theorem HandledKey.advance {g : GateServer} {id i : Nat} {call : Call} {key : Bytes}
    (h : HandledKey g i key) (progress : Progress) (hcall : g.calls[id]? = some call)
    (hnot : ¬ call.Handled) : HandledKey (advance g id call progress) i key := by
  obtain ⟨c, response, hc, hp, hkey⟩ := h
  have hi : i ≠ id := by
    rintro rfl
    rw [hcall] at hc
    cases hc
    exact hnot ⟨response, hp⟩
  exact ⟨c, response, by rw [getElem?_advance progress hcall, if_neg hi, hc], hp, hkey⟩

/-! ## The invariant -/

/-- What holds as long as every reply is handled for a session without a key. -/
structure Keyed (st : State) : Prop extends Tidy st where
  replies : DistinctKeys st.gate
  named : ∀ s, Registered st.gate s → st.gate.getKey s ≠ []
  held : ∀ s ∈ st.connections_, st.gate.getKey s ≠ [] → st.gate.Under (st.gate.getKey s) s
  origin : ∀ s, st.gate.getKey s ≠ [] → ∃ id, HandledKey st.gate id (st.gate.getKey s)

theorem keyed_init (serverid : Bytes) : Keyed (init serverid) := by
  have htidy := tidy_init serverid
  have hnone : ∀ i key, ¬ RepliedKey (init serverid).gate i key := by
    rintro i key ⟨call, hcall, -⟩
    simp [init] at hcall
  refine ⟨htidy, ⟨fun i j key hi => (hnone i key hi).elim, fun i => hnone i []⟩,
    fun s hs => ?_, ?_, ?_⟩
  · have hmem := htidy.live s hs
    simp [init] at hmem
  · simp [init]
  · intro s hkey
    exact (hkey rfl).elim

namespace Keyed

variable {st : State}

theorem of_same (h : Keyed st) {gate : GateServer} (hsame : SameRegistry st.gate gate)
    (hcallers : ∀ call ∈ gate.calls, call.session < st.opened) (hreplies : DistinctKeys gate)
    (horigin : ∀ i key, HandledKey st.gate i key → HandledKey gate i key) :
    Keyed { st with gate := gate } := by
  refine ⟨h.toTidy.of_same hsame hcallers, hreplies, ?_, ?_, ?_⟩
  · rw [hsame.registered, hsame.getKey]
    exact h.named
  · rw [hsame.under, hsame.getKey]
    exact h.held
  · intro s hkey
    rw [hsame.getKey] at hkey ⊢
    obtain ⟨id, hid⟩ := h.origin s hkey
    exact ⟨id, horigin id _ hid⟩

theorem newSession (h : Keyed st) (mid : BitVec 32) : Keyed (newSession st mid) := by
  have hkey : ∀ s, (System.newSession st mid).gate.getKey s =
      if s = st.opened then [] else st.gate.getKey s := by
    intro s
    by_cases hs : s = st.opened
    · simp [System.newSession, GateServer.getKey, hs]
    · simp [System.newSession, GateServer.getKey, hs]
  refine ⟨h.toTidy.newSession mid, h.replies.mono fun _ _ => .of_calls rfl, ?_, ?_, ?_⟩
  · intro s hs
    have hlt := h.known s (h.live s hs)
    rw [hkey, if_neg (Nat.ne_of_lt hlt)]
    exact h.named s hs
  · intro s hs hne
    rw [hkey] at hne ⊢
    split at hne
    · exact (hne rfl).elim
    · rename_i hnew
      simp only [System.newSession, Std.ExtTreeSet.mem_insert,
        Std.LawfulEqCmp.compare_eq_iff_eq] at hs
      rw [if_neg hnew]
      exact h.held s (hs.resolve_left (Ne.symm hnew)) hne
  · intro s hne
    rw [hkey] at hne ⊢
    split at hne
    · exact (hne rfl).elim
    · rename_i hnew
      rw [if_neg hnew]
      exact h.origin s hne

/-- The key of a session is not the key of a reply that is still to be handled. -/
theorem key_ne (h : Keyed st) {id : Nat} {call : Call} {response : ConnectReply}
    (hcall : st.gate.calls[id]? = some call) (hp : call.progress = .replied response) {s : Nat}
    (hkey : st.gate.getKey s ≠ []) : st.gate.getKey s ≠ response.key := by
  intro heq
  obtain ⟨i, hi⟩ := h.origin s hkey
  have hid : i = id :=
    h.replies.distinct i id _ hi.replied ⟨call, hcall, by simp [Call.reply, hp, heq]⟩
  obtain ⟨c, r, hc, hr, -⟩ := hi
  rw [hid, hcall] at hc
  cases hc
  simp [hp] at hr

theorem message (h : Keyed st) {session : Nat} (m : ClientCodec.Message)
    (hs : session < st.opened) :
    Keyed { st with gate := st.gate.onClientMessageCallback session m } := by
  refine h.of_same (sameRegistry_message st.gate session m) (callers_message m h.callers hs)
    (h.replies.mono ?_) ?_
  · rintro i key ⟨call, hcall, hkey⟩
    rcases calls_message st.gate session m with ⟨-, hcalls⟩ | ⟨-, hcalls⟩
    · -- the new call has no reply
      rw [hcalls, List.getElem?_append] at hcall
      split at hcall
      · exact ⟨call, hcall, hkey⟩
      · rw [List.mem_singleton.mp (List.mem_of_getElem? hcall)] at hkey
        simp [Call.reply] at hkey
    · exact RepliedKey.of_calls hcalls ⟨call, hcall, hkey⟩
  · rintro i key ⟨call, response, hcall, hrest⟩
    rcases calls_message st.gate session m with ⟨-, hcalls⟩ | ⟨-, hcalls⟩
    · obtain ⟨hlt, -⟩ := List.getElem?_eq_some_iff.mp hcall
      exact ⟨call, response, by rw [hcalls, List.getElem?_append_left hlt, hcall], hrest⟩
    · exact HandledKey.of_calls hcalls ⟨call, response, hcall, hrest⟩

theorem reply (h : Keyed st) {id : Nat} {call : Call} {response : ConnectReply}
    (hcall : st.gate.calls[id]? = some call) (hp : call.progress = .called)
    (hfresh : FreshReply st (.reply id response)) :
    Keyed (replied st id call response) := by
  have hnew : ∀ i, ¬ RepliedKey st.gate i response.key := fun i ⟨c, hc, hkey⟩ =>
    hfresh.2 c (List.mem_of_getElem? hc) hkey
  have hcases : ∀ i key, RepliedKey (advance st.gate id call (.replied response)) i key →
      RepliedKey st.gate i key ∨ (i = id ∧ key = response.key) := by
    intro i key hi
    rcases RepliedKey.of_advance hcall hi with hi | ⟨hid, hkey⟩
    · exact Or.inl hi
    · exact Or.inr ⟨hid, (Option.some.inj hkey).symm⟩
  refine h.of_same (sameRegistry_advance ..) (callers_advance h.callers hcall _) ⟨?_, ?_⟩
    fun i key hi => hi.advance _ hcall (not_handled hp (by simp))
  · intro i j key hi hj
    rcases hcases i key hi with hi | ⟨rfl, rfl⟩
    · rcases hcases j key hj with hj | ⟨-, rfl⟩
      · exact h.replies.distinct i j key hi hj
      · exact (hnew i hi).elim
    · rcases hcases j _ hj with hj | ⟨rfl, -⟩
      · exact (hnew j hj).elim
      · rfl
  · intro i hi
    rcases hcases i [] hi with hi | ⟨-, hkey⟩
    · exact h.replies.nonempty i hi
    · exact hfresh.1 hkey.symm

theorem handle (h : Keyed st) {id : Nat} {call : Call} {response : ConnectReply}
    (hcall : st.gate.calls[id]? = some call) (hp : call.progress = .replied response)
    (hlive : call.session ∈ st.connections_) (hnokey : st.gate.getKey call.session = []) :
    Keyed (handled st id call response) := by
  have hnot := not_handled hp (by simp)
  have hnonempty : response.key ≠ [] := fun hkey =>
    h.replies.nonempty id ⟨call, hcall, by simp [Call.reply, hp, hkey]⟩
  have hfree : st.gate.channels_[response.key]? = none := by
    rw [Option.eq_none_iff_forall_ne_some]
    intro s hs
    have hkey := h.keys _ s hs
    exact h.key_ne hcall hp (hkey ▸ hnonempty) hkey
  have hsame := sameRegistry_advance st.gate id call (.handled response)
  refine ⟨h.toTidy.handle response hcall hlive (fun hreg => h.named _ hreg hnokey), ?_, ?_, ?_, ?_⟩
  · refine h.replies.mono fun i key hi => ?_
    rcases RepliedKey.of_advance hcall (RepliedKey.of_calls rfl hi) with hi | ⟨rfl, hkey⟩
    · exact hi
    · exact ⟨call, hcall, by simpa [Call.reply, hp] using hkey⟩
  · intro s hs
    rw [GateServer.getKey_handleConnect]
    by_cases hsession : s = call.session
    · rw [hsession, Function.update_self]
      exact hnonempty
    · rw [Function.update_of_ne hsession]
      exact h.named s ((registered_handleConnect hs).resolve_right hsession)
  · intro s hs hkey
    rw [GateServer.getKey_handleConnect] at hkey ⊢
    by_cases hsession : s = call.session
    · rw [hsession, Function.update_self]
      exact GateServer.under_handleConnect.mpr (Or.inr ⟨rfl, rfl, hfree⟩)
    · rw [Function.update_of_ne hsession] at hkey ⊢
      exact GateServer.under_handleConnect.mpr (Or.inl (h.held s hs hkey))
  · intro s hkey
    rw [GateServer.getKey_handleConnect] at hkey ⊢
    by_cases hsession : s = call.session
    · rw [hsession, Function.update_self]
      refine ⟨id, { call with progress := .handled response }, response, ?_, rfl, rfl⟩
      exact (getElem?_advance (.handled response) hcall id).trans (if_pos rfl)
    · rw [Function.update_of_ne hsession] at hkey ⊢
      obtain ⟨i, hi⟩ := h.origin s hkey
      exact ⟨i, (hi.advance _ hcall hnot).of_calls rfl⟩

theorem close (h : Keyed st) {session : Nat} (hs : session ∈ st.connections_) :
    Keyed (closed st session) := by
  refine ⟨h.toTidy.close session, h.replies.mono fun _ _ => .of_calls rfl, ?_, ?_, ?_⟩
  · intro s hreg
    exact h.named s (registered_handleDisconnect hreg)
  · intro s hmem hkey
    simp only [Std.ExtTreeSet.mem_erase, ne_eq, Std.LawfulEqCmp.compare_eq_iff_eq] at hmem
    have hunder := h.held s hmem.2 hkey
    refine GateServer.under_handleDisconnect.mpr ⟨hunder, fun heq => hmem.1 ?_⟩
    -- the session that is closed stands under its own key
    have hown := h.held session hs (heq ▸ hkey)
    rw [← heq] at hown
    exact Option.some.inj (hown.symm.trans hunder)
  · intro s hkey
    obtain ⟨id, hid⟩ := h.origin s hkey
    exact ⟨id, hid.of_calls rfl⟩

/-- A second key leaves the session behind under the first one. -/
theorem lost (h : Keyed st) {id : Nat} {call : Call} {response : ConnectReply}
    (hcall : st.gate.calls[id]? = some call) (hp : call.progress = .replied response)
    (hlive : call.session ∈ st.connections_) (hkey : st.gate.getKey call.session ≠ []) :
    ¬ Agreement (handled st id call response) := by
  intro hagree
  have hunder : (handled st id call response).gate.Under (st.gate.getKey call.session)
      call.session :=
    GateServer.under_handleConnect.mpr (Or.inl (h.held _ hlive hkey))
  have hnew := hagree.keys _ _ hunder
  rw [GateServer.getKey_handleConnect, Function.update_self] at hnew
  exact h.key_ne hcall hp hkey hnew.symm

end Keyed

theorem Step.keyed {st st' : State} {l : Label} (h : Step st l st') (hk : Keyed st)
    (hfresh : FreshReply st l) :
    (FirstKey st l ∧ Keyed st') ∨ (¬ FirstKey st l ∧ ¬ Agreement st') := by
  cases h with
  | newSession mid => exact Or.inl ⟨trivial, hk.newSession mid⟩
  | message session m hs => exact Or.inl ⟨trivial, hk.message m hs⟩
  | reply id call response hcall hp => exact Or.inl ⟨trivial, hk.reply hcall hp hfresh⟩
  | handle id call response hcall hp =>
    have hlive := hfresh call hcall
    by_cases hkey : st.gate.getKey call.session = []
    · refine Or.inl ⟨fun c hc => ?_, hk.handle hcall hp hlive hkey⟩
      rw [Option.mem_def, hcall] at hc
      cases hc
      exact hkey
    · exact Or.inr ⟨fun hg => hkey (hg call hcall), hk.lost hcall hp hlive hkey⟩
  | close session hs => exact Or.inl ⟨trivial, hk.close hs⟩
  | closeAgain session hs => exact Or.inl ⟨trivial, hk⟩
  | serve orders request =>
    obtain ⟨hsame, hcalls⟩ := serve_same orders st.gate request
    exact Or.inl ⟨trivial, hk.of_same hsame (hcalls ▸ hk.callers)
      (hk.replies.mono fun _ _ => .of_calls hcalls) fun _ _ => .of_calls hcalls⟩

/-- **The registry agrees with the sessions.** If every reply carries a fresh key and is
handled while its session is connected, then the registry agrees with the keys and rooms
of the sessions in every state of a run exactly if every reply is handled for a session
that has no key yet. -/
theorem registry_agrees_iff (serverid : Bytes) (ls : List Label) (st : State)
    (hrun : run step (init serverid) ls = some st)
    (hfresh : Guarded step FreshReply (init serverid) ls) :
    (∀ as bs u, ls = as ++ bs → run step (init serverid) as = some u → Agreement u) ↔
      Guarded step FirstKey (init serverid) ls :=
  always_iff_guarded_of (fun _ hk => hk.toTidy.agreement)
    (fun _ _ _ hk ha hs => (step_inv hs).keyed hk ha) ls _ st (keyed_init serverid) hfresh hrun

/-- Two clients get a key each. -/
def oneKeyEach : List Label :=
  [.newSession 0, .message 0 ⟨7, 0, bytes "a"⟩, .reply 0 { key := bytes "1", roomID := bytes "r" },
    .handle 0, .newSession 0, .message 1 ⟨7, 0, bytes "b"⟩,
    .reply 1 { key := bytes "2", roomID := bytes "r" }, .handle 1]

/-- A client authenticates twice. -/
def twoKeys : List Label :=
  [.newSession 0, .message 0 ⟨7, 0, bytes "a"⟩, .reply 0 { key := bytes "1", roomID := bytes "r" },
    .handle 0, .message 0 ⟨7, 0, bytes "b"⟩, .reply 1 { key := bytes "2", roomID := bytes "q" },
    .handle 1]

theorem registry_agrees_iff_one_key_each :
    Guarded step FirstKey (init (bytes "gate1")) oneKeyEach ∧
    ∀ as bs u, oneKeyEach = as ++ bs → run step (init (bytes "gate1")) as = some u →
      Agreement u := by
  have hsome : (run step (init (bytes "gate1")) oneKeyEach).isSome = true := by decide +kernel
  obtain ⟨st, hst⟩ := Option.isSome_iff_exists.mp hsome
  have hguard : Guarded step FirstKey (init (bytes "gate1")) oneKeyEach := by decide +kernel
  exact ⟨hguard, (registry_agrees_iff _ _ st hst (by decide +kernel)).mpr hguard⟩

/-- The session stands under both keys and in both rooms and holds the second ones. -/
theorem second_key_leaves_first :
    Guarded step FreshReply (init (bytes "gate1")) twoKeys ∧
    ∃ st, run step (init (bytes "gate1")) twoKeys = some st ∧
      st.gate.Under (bytes "1") 0 ∧ st.gate.Under (bytes "2") 0 ∧
      st.gate.InRoom (bytes "r") 0 ∧ st.gate.InRoom (bytes "q") 0 ∧
      st.gate.getKey 0 = bytes "2" ∧ st.gate.getRoom 0 = bytes "q" ∧ ¬ Agreement st := by
  refine ⟨by decide +kernel, ?_⟩
  have hview : (run step (init (bytes "gate1")) twoKeys).map (fun st =>
      ([bytes "1", bytes "2"].map fun key => st.gate.channels_[key]?,
        [bytes "r", bytes "q"].map fun room =>
          st.gate.rooms_[room]?.map fun members => decide (0 ∈ members),
        st.gate.getKey 0, st.gate.getRoom 0)) =
      some ([some 0, some 0], [some true, some true], bytes "2", bytes "q") := by
    decide +kernel
  obtain ⟨st, hst, hv⟩ := Option.map_eq_some_iff.mp hview
  simp only [List.map_cons, List.map_nil, Prod.mk.injEq, List.cons.injEq, and_true,
    Option.map_eq_some_iff, decide_eq_true_eq] at hv
  obtain ⟨⟨hone, htwo⟩, ⟨hr, hq⟩, hkey, hroom⟩ := hv
  refine ⟨st, hst, hone, htwo, hr, hq, hkey, hroom, fun hagree => ?_⟩
  have hown := hagree.keys _ 0 hone
  rw [hkey] at hown
  revert hown
  decide

end Cppim.Gate.System
