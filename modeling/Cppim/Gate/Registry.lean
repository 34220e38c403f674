import Cppim.Gate.System

/-! Disconnected sessions and the registry of the gate. The reply to a client's token
comes from another server and may be handled after the client was disconnected.
`dead_unregistered_iff` says that this is the only way in which a disconnected session
stays registered. -/

namespace Cppim.Gate.System

open Cppim.Common Cppim.Protocol Cppim.Lib.Index Cppim.Lib.Transition

/-- The reply is handled while its session is connected. -/
def HandledInTime : State → Label → Prop
  | st, .handle id => ∀ call ∈ st.gate.calls[id]?, call.session ∈ st.connections_
  | _, _ => True

instance (st : State) (l : Label) : Decidable (HandledInTime st l) := by
  cases l <;> unfold HandledInTime <;> infer_instance

/-- A session sends at most one token. -/
def SendsOnce : State → Label → Prop
  | st, .message session m => m.op = 7 → ∀ call ∈ st.gate.calls, call.session ≠ session
  | _, _ => True

instance (st : State) (l : Label) : Decidable (SendsOnce st l) := by
  cases l <;> unfold SendsOnce <;> infer_instance

/-- A session that was disconnected and whose replies were handled is not registered. -/
def NoneLeft (st : State) : Prop :=
  ∀ s < st.opened, s ∉ st.connections_ →
    (∀ call ∈ st.gate.calls, call.session = s → call.Handled) → ¬ Registered st.gate s

structure Inv (st : State) : Prop extends Tidy st where
  once : (st.gate.calls.map Call.session).Nodup
  origin : ∀ s, Registered st.gate s → ∃ call ∈ st.gate.calls, call.session = s ∧ call.Handled

theorem inv_init (serverid : Bytes) : Inv (init serverid) := by
  have htidy := tidy_init serverid
  refine ⟨htidy, by simp [init], fun s hs => ?_⟩
  have hmem := htidy.live s hs
  simp [init] at hmem

theorem Inv.none_left {st : State} (h : Inv st) : NoneLeft st :=
  fun s _ hdead _ hreg => hdead (h.live s hreg)

theorem sessions_advance {g : GateServer} {id : Nat} {call : Call}
    (hcall : g.calls[id]? = some call) (progress : Progress) :
    (advance g id call progress).calls.map Call.session = g.calls.map Call.session :=
  map_set_of_eq hcall rfl

/-- The other calls stay as they are. -/
theorem mem_advance {g : GateServer} {id : Nat} {call c : Call} (progress : Progress)
    (hcall : g.calls[id]? = some call) (hc : c ∈ g.calls) (hne : c ≠ call) :
    c ∈ (advance g id call progress).calls := by
  obtain ⟨i, hi⟩ := List.mem_iff_getElem?.mp hc
  have hid : id ≠ i := by
    rintro rfl
    rw [hcall] at hi
    exact hne (Option.some.inj hi).symm
  refine List.mem_of_getElem? (i := i) ?_
  rw [advance, List.getElem?_set_ne hid]
  exact hi

theorem advanced_mem {g : GateServer} {id : Nat} {call : Call} (progress : Progress)
    (hcall : g.calls[id]? = some call) :
    { call with progress := progress } ∈ (advance g id call progress).calls :=
  List.mem_set (List.getElem?_eq_some_iff.mp hcall).1 _

/-- A call that is not handled is the only one of its session, which is not
registered yet. -/
theorem Inv.early {st : State} (h : Inv st) {call : Call} (hcall : call ∈ st.gate.calls)
    (hnot : ¬ call.Handled) : ¬ Registered st.gate call.session := by
  intro hreg
  obtain ⟨c, hc, hs, hh⟩ := h.origin _ hreg
  have heq : c = call := List.inj_on_of_nodup_map h.once hc hcall hs
  exact hnot (heq ▸ hh)

theorem not_handled {call : Call} {progress : Progress} (hp : call.progress = progress)
    (hnot : ∀ response, progress ≠ .handled response) : ¬ call.Handled :=
  fun ⟨response, hr⟩ => hnot response (hp.symm.trans hr)

theorem Inv.reply {st : State} (h : Inv st) {id : Nat} {call : Call} (response : ConnectReply)
    (hcall : st.gate.calls[id]? = some call) (hp : call.progress = .called) :
    Inv (replied st id call response) := by
  have hsame := sameRegistry_advance st.gate id call (.replied response)
  have hnot := not_handled hp (by simp)
  refine ⟨h.of_same hsame (callers_advance h.callers hcall _), ?_, fun s hs => ?_⟩
  · rw [sessions_advance hcall]
    exact h.once
  · rw [hsame.registered] at hs
    obtain ⟨c, hc, hsession, hh⟩ := h.origin s hs
    exact ⟨c, mem_advance _ hcall hc (fun heq => hnot (heq ▸ hh)), hsession, hh⟩

theorem Inv.message {st : State} (h : Inv st) {session : Nat} {m : ClientCodec.Message}
    (hs : session < st.opened) (honce : SendsOnce st (.message session m)) :
    Inv { st with gate := st.gate.onClientMessageCallback session m } := by
  have hsame := sameRegistry_message st.gate session m
  have htidy := h.of_same hsame (callers_message m h.callers hs)
  rcases calls_message st.gate session m with ⟨hop, hcalls⟩ | ⟨-, hcalls⟩
  · refine ⟨htidy, ?_, fun s hs => ?_⟩
    · rw [hcalls, List.map_append, List.nodup_append]
      refine ⟨h.once, by simp, ?_⟩
      rintro s hs _ ht rfl
      obtain ⟨call, hcall, rfl⟩ := List.mem_map.mp hs
      simp only [List.map_cons, List.map_nil, List.mem_singleton] at ht
      exact honce hop call hcall ht
    · rw [hsame.registered] at hs
      obtain ⟨c, hc, hrest⟩ := h.origin s hs
      exact ⟨c, by rw [hcalls]; exact List.mem_append_left _ hc, hrest⟩
  · refine ⟨htidy, ?_, ?_⟩
    · rw [hcalls]
      exact h.once
    · rw [hcalls, hsame.registered]
      exact h.origin

theorem Inv.handle {st : State} (h : Inv st) {id : Nat} {call : Call} {response : ConnectReply}
    (hcall : st.gate.calls[id]? = some call) (hp : call.progress = .replied response)
    (hlive : call.session ∈ st.connections_) : Inv (handled st id call response) := by
  have hnot := not_handled hp (by simp)
  have hfree := h.early (List.mem_of_getElem? hcall) hnot
  refine ⟨h.toTidy.handle response hcall hlive hfree, ?_, fun s hs => ?_⟩
  · exact (sessions_advance hcall (.handled response)).symm ▸ h.once
  · rcases registered_handleConnect hs with hs | rfl
    · obtain ⟨c, hc, hsession, hh⟩ := h.origin s hs
      exact ⟨c, mem_advance _ hcall hc (fun heq => hnot (heq ▸ hh)), hsession, hh⟩
    · exact ⟨_, advanced_mem _ hcall, rfl, response, rfl⟩

/-- A reply that is handled too late leaves its session behind. -/
theorem Inv.left {st : State} (h : Inv st) {id : Nat} {call : Call} {response : ConnectReply}
    (hcall : st.gate.calls[id]? = some call) (hdead : call.session ∉ st.connections_) :
    ¬ NoneLeft (handled st id call response) := by
  intro hnone
  refine hnone call.session (h.callers call (List.mem_of_getElem? hcall)) hdead ?_ ?_
  · intro c hc hs
    have hnodup : ((advance st.gate id call (.handled response)).calls.map Call.session).Nodup :=
      (sessions_advance hcall (.handled response)).symm ▸ h.once
    have heq := List.inj_on_of_nodup_map hnodup hc (advanced_mem _ hcall) hs
    exact ⟨response, by rw [heq]⟩
  · exact Or.inr ⟨response.roomID, GateServer.inRoom_handleConnect.mpr (Or.inr ⟨rfl, rfl⟩)⟩

theorem Step.inv {st st' : State} {l : Label} (h : Step st l st') (hi : Inv st)
    (honce : SendsOnce st l) :
    (HandledInTime st l ∧ Inv st') ∨ (¬ HandledInTime st l ∧ ¬ NoneLeft st') := by
  cases h with
  | newSession mid => exact Or.inl ⟨trivial, hi.toTidy.newSession mid, hi.once, hi.origin⟩
  | message session m hs => exact Or.inl ⟨trivial, hi.message hs honce⟩
  | reply id call response hcall hp => exact Or.inl ⟨trivial, hi.reply response hcall hp⟩
  | handle id call response hcall hp =>
    by_cases hlive : call.session ∈ st.connections_
    · refine Or.inl ⟨fun c hc => ?_, hi.handle hcall hp hlive⟩
      rw [Option.mem_def, hcall] at hc
      cases hc
      exact hlive
    · exact Or.inr ⟨fun hg => hlive (hg call hcall), hi.left hcall hlive⟩
  | close session hs =>
    refine Or.inl ⟨trivial, hi.toTidy.close session, hi.once, fun s hs => ?_⟩
    exact hi.origin s (registered_handleDisconnect hs)
  | closeAgain session hs => exact Or.inl ⟨trivial, hi⟩
  | serve orders request =>
    obtain ⟨hsame, hcalls⟩ := serve_same orders st.gate request
    refine Or.inl ⟨trivial, hi.of_same hsame (hcalls ▸ hi.callers), ?_, ?_⟩
    · exact hcalls ▸ hi.once
    · rw [hsame.registered, hcalls]
      exact hi.origin

/-- **No dead session stays registered.** If every session sends at most one token, then
in every state of a run no session that was disconnected and whose reply was handled is
registered, exactly if every reply is handled while its session is connected. -/
theorem dead_unregistered_iff (serverid : Bytes) (ls : List Label) (st : State)
    (hrun : run step (init serverid) ls = some st)
    (honce : Guarded step SendsOnce (init serverid) ls) :
    (∀ as bs u, ls = as ++ bs → run step (init serverid) as = some u → NoneLeft u) ↔
      Guarded step HandledInTime (init serverid) ls :=
  always_iff_guarded_of (fun _ hi => hi.none_left)
    (fun _ _ _ hi ha hs => (step_inv hs).inv hi ha) ls _ st (inv_init serverid) honce hrun

/-- A client sends its token and is registered, then it is disconnected. -/
def inTime : List Label :=
  [.newSession 0, .message 0 ⟨7, 0, bytes "token"⟩,
    .reply 0 { key := bytes "1", roomID := bytes "live://1" }, .handle 0, .close 0]

/-- The client is gone before the reply is there. -/
def tooLate : List Label :=
  [.newSession 0, .message 0 ⟨7, 0, bytes "token"⟩, .close 0,
    .reply 0 { key := bytes "1", roomID := bytes "live://1" }, .handle 0]

theorem dead_unregistered_iff_in_time :
    Guarded step HandledInTime (init (bytes "gate1")) inTime ∧
    ∀ as bs u, inTime = as ++ bs → run step (init (bytes "gate1")) as = some u → NoneLeft u := by
  have hsome : (run step (init (bytes "gate1")) inTime).isSome = true := by decide +kernel
  obtain ⟨st, hst⟩ := Option.isSome_iff_exists.mp hsome
  have hguard : Guarded step HandledInTime (init (bytes "gate1")) inTime := by decide +kernel
  exact ⟨hguard, (dead_unregistered_iff _ _ st hst (by decide +kernel)).mpr hguard⟩

/-- The disconnected session is in both maps, and nothing is going to remove it. -/
theorem late_reply_registers_dead :
    Guarded step SendsOnce (init (bytes "gate1")) tooLate ∧
    ∃ st, run step (init (bytes "gate1")) tooLate = some st ∧ 0 < st.opened ∧
      0 ∉ st.connections_ ∧ (∀ call ∈ st.gate.calls, call.Handled) ∧
      st.gate.Under (bytes "1") 0 ∧ st.gate.InRoom (bytes "live://1") 0 := by
  refine ⟨by decide +kernel, ?_⟩
  have hview : (run step (init (bytes "gate1")) tooLate).map (fun st =>
      (st.opened, decide (0 ∈ st.connections_), st.gate.calls.map Call.progress,
        st.gate.channels_[bytes "1"]?,
        st.gate.rooms_[bytes "live://1"]?.map fun members => decide (0 ∈ members))) =
      some (1, false, [.handled { key := bytes "1", roomID := bytes "live://1" }], some 0,
        some true) := by
    decide +kernel
  obtain ⟨st, hst, hv⟩ := Option.map_eq_some_iff.mp hview
  simp only [Prod.mk.injEq, decide_eq_false_iff_not, Option.map_eq_some_iff,
    decide_eq_true_eq] at hv
  obtain ⟨hopened, hdead, hcalls, hkey, hroom⟩ := hv
  refine ⟨st, hst, by omega, hdead, fun call hcall => ?_, hkey, hroom⟩
  have hprogress : call.progress ∈ st.gate.calls.map Call.progress := List.mem_map_of_mem hcall
  rw [hcalls, List.mem_singleton] at hprogress
  exact ⟨_, hprogress⟩

end Cppim.Gate.System
