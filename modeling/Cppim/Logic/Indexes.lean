import Cppim.Logic.Registration

/-! The two indexes of the clients along a run of the logic server: whether `mid_m` and
`key_k` agree, and forget the clients that have left. -/

namespace Cppim.Logic.Registration

open Cppim.Common Cppim.Protocol Cppim.Redis Cppim.Lib.Transition

/-! ## Who has left -/

/-- Only clients that had a reply leave. -/
def Known (st : State) : Prop := ∀ i ∈ st.disconnected, i < st.calls.length

theorem Step.known {cfg : Config} {st st' : State} {l : Label} (h : Step cfg st l st')
    (hk : Known st) : Known st' := by
  cases h with
  | connect clock request o ho =>
    intro i hi
    have := hk i hi
    rw [List.length_append]
    omega
  | disconnect i call hcall =>
    intro j hj
    rcases List.mem_append.mp hj with hj | hj
    · exact hk j hj
    · rw [List.mem_singleton.mp hj]
      exact (List.getElem?_eq_some_iff.mp hcall).1

/-- Nobody has left whose `mid` is `true`. -/
def NoneLost (cfg : Config) (st : State) : Prop :=
  ∀ i ∈ st.disconnected, ∀ call, st.calls[i]? = some call → ¬ TrueMid cfg call

theorem noneLost_connected {cfg : Config} {st : State} {request : ConnectReq} {o : Outcome}
    (hk : Known st) : NoneLost cfg (connected st request o) ↔ NoneLost cfg st := by
  refine forall₂_congr fun i hi => ?_
  rw [List.getElem?_append_left (hk i hi)]

theorem noneLost_departed {cfg : Config} {st : State} {i : Nat} {call : Call}
    (hcall : st.calls[i]? = some call) :
    NoneLost cfg (departed st i call) ↔ NoneLost cfg st ∧ ¬ TrueMid cfg call := by
  simp [NoneLost, hcall, or_imp, forall_and]

/-! ## The invariant -/

/-- The registrations are those of the accepted calls whose clients are still there. -/
structure Inv (cfg : Config) (st : State) (es : List Entry) : Prop where
  redis : Represents st.redis es
  entries : ∀ e, e ∈ es ↔ ∃ (i : Nat) (call : Call),
    st.calls[i]? = some call ∧ i ∉ st.disconnected ∧ entry cfg call = some e
  nodup : (es.map Entry.key).Nodup
  ends : ∀ call ∈ st.calls, ∃ statics clock, Ends cfg statics clock call.request call.outcome
  known : Known st
  left : NoneLost cfg st
  distinct : DistinctKeys st
  servers : WordServers st

theorem inv_initial (cfg : Config) : Inv cfg {} [] where
  redis := represents_empty
  entries := by simp
  nodup := List.nodup_nil
  ends := by simp
  known := by simp [Known]
  left := by simp [NoneLost]
  distinct := by
    intro i j ci cj key hi
    simp at hi
  servers := by simp [WordServers]

/-- What `Disconnect` is not to be called for. -/
def KeepsMid (cfg : Config) (st : State) : Label → Prop
  | .connect _ _ => True
  | .disconnect i => ∀ call, st.calls[i]? = some call → ¬ TrueMid cfg call

/-- Every key that a client has left with is forgotten. -/
def Forgotten (st : State) : Prop :=
  ∀ i ∈ st.disconnected, ∀ call, st.calls[i]? = some call →
    Unmentioned st.redis call.outcome.response.key

namespace Inv

variable {cfg : Config} {st : State} {es : List Entry}

/-- An entry has the key of its call. -/
theorem issued (h : Inv cfg st es) {i : Nat} {call : Call} {e : Entry}
    (hcall : st.calls[i]? = some call) (he : entry cfg call = some e) :
    call.outcome.issued = some e.key ∧ call.outcome.response.key = e.key := by
  obtain ⟨statics, clock, hends⟩ := h.ends call (List.mem_of_getElem? hcall)
  rcases commands_of_ends hends with ⟨hnone, -⟩ | ⟨e', he', -, hkey, -⟩
  · rw [he] at hnone
    cases hnone
  · rw [he] at he'
    cases he'
    refine ⟨hkey, ?_⟩
    rw [hends.key_eq, hkey]
    rfl

theorem plain (h : Inv cfg st es) {i : Nat} {call : Call} (hcall : st.calls[i]? = some call) :
    Plain (farewell call.request call.outcome.response).key := by
  obtain ⟨_, _, hends⟩ := h.ends call (List.mem_of_getElem? hcall)
  exact plain_farewell hends

/-- The entry with the key of a call is the entry of this call. -/
theorem eq_of_key (h : Inv cfg st es) {i : Nat} {call : Call} {e : Entry}
    (hcall : st.calls[i]? = some call) (he : e ∈ es) (hkey : e.key = call.outcome.response.key) :
    i ∉ st.disconnected ∧ entry cfg call = some e := by
  obtain ⟨j, other, hother, hj, hentry⟩ := (h.entries e).mp he
  obtain ⟨hissued, -⟩ := h.issued hother hentry
  obtain ⟨_, _, hends⟩ := h.ends other (List.mem_of_getElem? hother)
  obtain ⟨_, _, hends'⟩ := h.ends call (List.mem_of_getElem? hcall)
  have hne := hends.issued_ne_nil hissued
  rw [hends'.key_eq] at hkey
  cases hown : call.outcome.issued with
  | none => exact absurd (by rw [hkey, hown]; rfl) hne
  | some key =>
    have heq : e.key = key := by rw [hkey, hown]; rfl
    have hij := h.distinct i j call other e.key hcall hother (heq ▸ hown) hissued
    subst hij
    rw [hcall] at hother
    cases hother
    exact ⟨hj, hentry⟩

theorem inStep (h : Inv cfg st es) : InStep st.redis := h.redis.inStep h.nodup

theorem forgotten (h : Inv cfg st es) : Forgotten st := by
  intro i hi call hcall
  apply h.redis.unmentioned
  intro e he hkey
  exact (h.eq_of_key hcall he hkey).1 hi

/-- The calls with one more: nobody has left yet whose call has just returned. -/
theorem entries_append (h : Inv cfg st es) (c : Call) (e : Entry) :
    (∃ (i : Nat) (call : Call), (st.calls ++ [c])[i]? = some call ∧ i ∉ st.disconnected ∧
      entry cfg call = some e) ↔ e ∈ es ∨ entry cfg c = some e := by
  rw [h.entries]
  constructor
  · rintro ⟨i, call, hcall, hi, he⟩
    rw [List.getElem?_append] at hcall
    split at hcall
    · exact Or.inl ⟨i, call, hcall, hi, he⟩
    · have := List.mem_of_getElem? hcall
      rw [List.mem_singleton] at this
      exact Or.inr (this ▸ he)
  · rintro (⟨i, call, hcall, hi, he⟩ | he)
    · exact ⟨i, call, call_connected hcall _ _, hi, he⟩
    · refine ⟨st.calls.length, c, List.getElem?_concat_length, fun hin => ?_, he⟩
      exact Nat.lt_irrefl _ (h.known _ hin)

/-- A call that returns adds what it registers. -/
theorem connect (h : Inv cfg st es) {clock : List (BitVec 64)} {request : ConnectReq}
    {o : Outcome} (ho : Ends cfg st.statics clock request o)
    (hdistinct : DistinctKeys (connected st request o))
    (hservers : WordServers (connected st request o)) :
    ∃ es', Inv cfg (connected st request o) es' := by
  have hends : ∀ call ∈ st.calls ++ [⟨request, o⟩],
      ∃ statics clock, Ends cfg statics clock call.request call.outcome := by
    intro call hcall
    rcases List.mem_append.mp hcall with hcall | hcall
    · exact h.ends call hcall
    · rw [List.mem_singleton.mp hcall]
      exact ⟨_, _, ho⟩
  have hknown : Known (connected st request o) := (Step.connect clock request o ho).known h.known
  have hleft : NoneLost cfg (connected st request o) := (noneLost_connected h.known).mpr h.left
  rcases commands_of_ends ho with ⟨hnone, hcommands⟩ |
    ⟨e, he, hcommands, hissued, hserver⟩
  · refine ⟨es, ?_, fun e => ?_, h.nodup, hends, hknown, hleft, hdistinct, hservers⟩
    · show Represents (st.redis.pipeLine o.commands) es
      rw [hcommands]
      exact h.redis
    · rw [h.entries_append, hnone]
      simp
  · have hnew : ∀ e' ∈ es, e'.key ≠ e.key := by
      intro e' he' heq
      obtain ⟨j, other, hother, -, hentry⟩ := (h.entries e').mp he'
      have hlt := (List.getElem?_eq_some_iff.mp hother).1
      have hj := hdistinct j st.calls.length other ⟨request, o⟩ e.key
        (call_connected hother _ _) List.getElem?_concat_length
        (heq ▸ (h.issued hother hentry).1) hissued
      omega
    refine ⟨es ++ [e], ?_, fun e' => ?_, ?_, hends, hknown, hleft, hdistinct, hservers⟩
    · show Represents (st.redis.pipeLine o.commands) (es ++ [e])
      rw [hcommands]
      have hword : IsWord request.server := hservers ⟨request, o⟩ (by simp)
      exact h.redis.add (isWord_issued ho hissued) (hserver ▸ hword) hnew
    · rw [h.entries_append, he, List.mem_append, List.mem_singleton, Option.some.injEq, eq_comm]
    · rw [List.map_append, List.nodup_append]
      refine ⟨h.nodup, by simp, ?_⟩
      intro k hk k' hk'
      obtain ⟨e', he', rfl⟩ := List.mem_map.mp hk
      rw [List.map_singleton, List.mem_singleton] at hk'
      rw [hk']
      exact hnew e' he'

/-- The `mid` of a call that still is registered. -/
theorem mid_eq_iff (h : Inv cfg st es) {i : Nat} {call : Call} {e : Entry}
    (hcall : st.calls[i]? = some call) (he : entry cfg call = some e) :
    (farewell call.request call.outcome.response).mid.setWidth 32 = e.mid ↔
      ¬ TrueMid cfg call := by
  obtain ⟨_, _, hends⟩ := h.ends call (List.mem_of_getElem? hcall)
  exact farewell_mid_eq_iff hends he

/-- The registration of a client that leaves goes, if the `mid` is the right one. -/
theorem disconnect (h : Inv cfg st es) {i : Nat} {call : Call}
    (hcall : st.calls[i]? = some call) (hmid : ¬ TrueMid cfg call) :
    ∃ es', Inv cfg (departed st i call) es' := by
  have hstep : Step cfg st (.disconnect i) (departed st i call) := .disconnect i call hcall
  refine ⟨es.filter fun e => e.key ≠ call.outcome.response.key, ?_, fun e => ?_, ?_, h.ends,
    hstep.known h.known,
    (noneLost_departed hcall).mpr ⟨h.left, hmid⟩, h.distinct, h.servers⟩
  · apply h.redis.remove (h.plain hcall)
    intro e he hkey
    exact ((h.mid_eq_iff hcall (h.eq_of_key hcall he hkey).2).mpr hmid).symm
  · rw [List.mem_filter, decide_eq_true_eq]
    constructor
    · rintro ⟨he, hkey⟩
      obtain ⟨j, other, hother, hj, hentry⟩ := (h.entries e).mp he
      refine ⟨j, other, hother, ?_, hentry⟩
      rw [List.mem_append, List.mem_singleton]
      rintro (hin | rfl)
      · exact hj hin
      · rw [hcall] at hother
        cases hother
        exact hkey (h.issued hcall hentry).2.symm
    · rintro ⟨j, other, hother, hj, hentry⟩
      rw [List.mem_append, List.mem_singleton, not_or] at hj
      have he : e ∈ es := (h.entries e).mpr ⟨j, other, hother, hj.1, hentry⟩
      refine ⟨he, fun hkey => hj.2 ?_⟩
      have hown := (h.eq_of_key hcall he hkey).2
      exact h.distinct j i other call e.key hother hcall (h.issued hother hentry).1
        (h.issued hcall hown).1
  · exact h.nodup.sublist (List.filter_sublist.map Entry.key)

/-- With the wrong one the hash keeps the key. -/
theorem not_inStep (h : Inv cfg st es) {i : Nat} {call : Call}
    (hcall : st.calls[i]? = some call) (hmid : TrueMid cfg call) :
    ¬ InStep (departed st i call).redis := by
  have hi : i ∉ st.disconnected := fun hin => h.left i hin call hcall hmid
  obtain ⟨_, _, hends⟩ := h.ends call (List.mem_of_getElem? hcall)
  obtain ⟨e, he⟩ := entry_of_trueMid hmid
  have hin : e ∈ es := (h.entries e).mpr ⟨i, call, hcall, hi, he⟩
  have hkey := (h.issued hcall he).2
  have hne : e.mid ≠ (farewell call.request call.outcome.response).mid.setWidth 32 := fun heq =>
    (h.mid_eq_iff hcall he).mp heq.symm hmid
  intro hstep
  have hgone : (departed st i call).redis.strings (keyKeyServer e.key) = none := by
    show (st.redis.pipeLine _).strings _ = none
    rw [strings_disconnect _ (h.plain hcall), ← hkey]
    exact if_pos rfl
  have honly : OnlyIn (departed st i call).redis e.key e.server := by
    have hhashes := h.redis.mem_hashes_disconnect (h.plain hcall)
    refine ⟨e.mid, (hhashes _ _ _).mpr ⟨hin, fun hc => hne hc.1⟩, ?_⟩
    intro mid' server' hin'
    have hin' := ((hhashes _ _ _).mp hin').1
    rw [← List.inj_on_of_nodup_map h.nodup hin' hin rfl]
    exact ⟨rfl, rfl⟩
  rw [(hstep e.key e.server).mpr honly] at hgone
  cases hgone

end Inv

/-! ## Runs -/

/-- The keys of an earlier state differ as well. -/
theorem Step.distinct_back {cfg : Config} {st st' : State} {l : Label} (h : Step cfg st l st')
    (hd : DistinctKeys st') : DistinctKeys st := by
  cases h with
  | connect clock request o ho =>
    intro i j ci cj key hi hj
    exact hd i j ci cj key (call_connected hi _ _) (call_connected hj _ _)
  | disconnect i call hcall => exact hd

theorem guarded_keepsMid_iff (cfg : Config) (ls : List Label) (st : State)
    (hrun : run (step cfg) {} ls = some st) :
    Guarded (step cfg) (KeepsMid cfg) {} ls ↔ NoneLost cfg st := by
  apply guarded_iff_at_end (I := Known) (Q := NoneLost cfg) _ _ _ ls {} st _ _ hrun
  · intro u l u' hu hl
    exact (step_inv hl).known hu
  · intro u l u' hl hu'
    cases step_inv hl with
    | connect clock request o ho =>
      intro i hi call hcall
      exact hu' i hi call (call_connected hcall _ _)
    | disconnect i call hcall => exact ((noneLost_departed hcall).mp hu').1
  · intro u l u' hk hu hl
    cases step_inv hl with
    | connect clock request o ho => exact iff_of_true trivial ((noneLost_connected hk).mpr hu)
    | disconnect i call hcall =>
      rw [noneLost_departed hcall]
      simp [KeepsMid, hu, hcall]
  · exact (inv_initial cfg).known
  · exact (inv_initial cfg).left

/-- **The two indexes.** With gates whose ids are words they are in step in every state of
a run, and forget the keys of the clients that have left, exactly if nobody leaves whose
`mid` is `true`. -/
theorem indexes_in_step_iff (cfg : Config) (ls : List Label) (st : State)
    (hrun : run (step cfg) {} ls = some st) (hdistinct : DistinctKeys st)
    (hservers : WordServers st) :
    (∀ as bs u, ls = as ++ bs → run (step cfg) {} as = some u →
      InStep u.redis ∧ Forgotten u) ↔
    ∀ i ∈ st.disconnected, ∀ call, st.calls[i]? = some call → ¬ TrueMid cfg call := by
  -- the keys differ in every state of the run, and the ids are words there
  let Q : State → Prop := fun u => DistinctKeys u ∧ WordServers u
  let A : State → Label → Prop := fun u l => ∀ u', step cfg u l = some u' → Q u'
  have hA : Guarded (step cfg) A {} ls := by
    have hback : ∀ u l u', step cfg u l = some u' → Q u' → Q u := fun u l u' hl hu =>
      ⟨(step_inv hl).distinct_back hu.1, (step_inv hl).wordServers_back hu.2⟩
    have hinit : Q {} := ⟨(inv_initial cfg).distinct, (inv_initial cfg).servers⟩
    refine (guarded_iff_at_end (I := fun _ => True) (Q := Q)
      (fun _ _ _ _ _ => trivial) hback ?_ ls {} st trivial hinit hrun).mpr ⟨hdistinct, hservers⟩
    intro u l u' _ _ hl
    constructor
    · intro ha
      exact ha u' hl
    · intro hd u'' hl'
      rw [hl] at hl'
      cases hl'
      exact hd
  apply Iff.trans _ (guarded_keepsMid_iff cfg ls st hrun)
  apply always_iff_guarded_of (I := fun u => ∃ es, Inv cfg u es) (A := A) _ _ ls {} st
    ⟨[], inv_initial cfg⟩ hA hrun
  · rintro u ⟨es, hu⟩
    exact ⟨hu.inStep, hu.forgotten⟩
  · rintro u l u' ⟨es, hu⟩ ha hl
    cases step_inv hl with
    | connect clock request o ho =>
      exact Or.inl ⟨trivial, hu.connect ho (ha _ hl).1 (ha _ hl).2⟩
    | disconnect i call hcall =>
      by_cases hmid : TrueMid cfg call
      · exact Or.inr ⟨fun hg => hg call hcall hmid, fun hp => hu.not_inStep hcall hmid hp.1⟩
      · refine Or.inl ⟨?_, hu.disconnect hcall hmid⟩
        intro other hother
        rw [hcall] at hother
        cases hother
        exact hmid

/-- Keys that differ by inspection. -/
theorem distinctKeys_of_nodup {st : State}
    (h : (st.calls.filterMap fun call => call.outcome.issued).Nodup) : DistinctKeys st :=
  fun _ _ _ _ _ hi hj hki hkj => eq_of_nodup_filterMap h hi hj hki hkj

/-- Two clients connect to two gates and leave. -/
def visits : List Label :=
  [.connect [1000, 1000] ⟨bytes "gate1", bytes "number"⟩,
    .connect [1000] ⟨bytes "gate2", bytes "number"⟩, .disconnect 0, .disconnect 1]

theorem indexes_in_step_iff_number :
    ∃ st, run (step tokens) {} visits = some st ∧
      (st.calls.map fun call => call.outcome.issued) =
        [some (bytes "4194308097"), some (bytes "4194308098")] ∧
      DistinctKeys st ∧ WordServers st ∧ st.disconnected = [0, 1] ∧
      InStep st.redis ∧ Forgotten st := by
  have hview : (run (step tokens) {} visits).map
      (fun st => (st.calls.map fun call => call.request.token,
        st.calls.map fun call => call.outcome.issued,
        st.calls.map fun call => call.request.server, st.disconnected)) =
      some ([bytes "number", bytes "number"],
        [some (bytes "4194308097"), some (bytes "4194308098")],
        [bytes "gate1", bytes "gate2"], [0, 1]) := by decide +kernel
  obtain ⟨st, hrun, hst⟩ := Option.map_eq_some_iff.mp hview
  simp only [Prod.mk.injEq] at hst
  obtain ⟨htokens, hkeys, hgates, hleft⟩ := hst
  have hdistinct : DistinctKeys st := by
    apply distinctKeys_of_nodup
    have hissued := congrArg (List.filterMap id) hkeys
    rw [List.filterMap_map] at hissued
    exact hissued ▸ (by decide : [bytes "4194308097", bytes "4194308098"].Nodup)
  have hservers : WordServers st := wordServers_of_map hgates (by decide)
  refine ⟨st, hrun, hkeys, hdistinct, hservers, hleft, ?_⟩
  apply (indexes_in_step_iff tokens _ st hrun hdistinct hservers).mpr _ _ [] st (by simp) hrun
  rintro i - call hcall ⟨-, j, hparse, hfind⟩
  have htoken : call.request.token ∈ st.calls.map fun call => call.request.token :=
    List.mem_map.mpr ⟨call, List.mem_of_getElem? hcall, rfl⟩
  have hnumber : call.request.token = bytes "number" := by simpa [htokens] using htoken
  rw [hnumber] at hparse
  cases hparse
  cases hfind

/-- A client connects and leaves. -/
def visit (token : Bytes) : List Label :=
  [.connect [1000, 1000] ⟨bytes "gate1", token⟩, .disconnect 0]

/-- `true` is registered under `mid_1` and looked for under `mid_0`. -/
theorem true_mid_stays :
    ∃ st, run (step tokens) {} (visit (bytes "true")) = some st ∧ DistinctKeys st ∧
      WordServers st ∧ ¬ InStep st.redis ∧
      st.redis.strings (keyKeyServer (bytes "4194308097")) = none ∧
      st.redis.hashes (keyMidServer 1) = [(bytes "4194308097", bytes "gate1")] := by
  have hview : (run (step tokens) {} (visit (bytes "true"))).map
      (fun st => (st.calls.map fun call => call.request.server,
        st.redis.strings (keyKeyServer (bytes "4194308097")),
        st.redis.hashes (keyMidServer 1))) =
      some ([bytes "gate1"], none, [(bytes "4194308097", bytes "gate1")]) := by decide +kernel
  obtain ⟨st, hrun, hst⟩ := Option.map_eq_some_iff.mp hview
  simp only [Prod.mk.injEq] at hst
  obtain ⟨hgates, hstrings, hhashes⟩ := hst
  have hservers : WordServers st := wordServers_of_map hgates (by decide)
  have hdistinct : DistinctKeys st := by
    have hlen : st.calls.length = 1 := by simpa using congrArg List.length hgates
    obtain ⟨call, hcalls⟩ := List.length_eq_one_iff.mp hlen
    apply distinctKeys_of_nodup
    rw [hcalls]
    cases hissued : call.outcome.issued <;> simp [hissued]
  refine ⟨st, hrun, hdistinct, hservers, ?_, hstrings, hhashes⟩
  obtain ⟨st₁, hconnect, hrest⟩ := (run_cons_eq_some _ _ _ _).mp hrun
  obtain ⟨st₂, hleave, hend⟩ := (run_cons_eq_some _ _ _ _).mp hrest
  cases hend
  cases step_inv hconnect with
  | connect clock request o ho =>
    cases step_inv hleave with
    | disconnect i call hcall =>
      obtain ⟨es, hi⟩ := (inv_initial tokens).connect ho hdistinct hservers
      cases hcall
      have haccepted : o.accepted = true := ho.accepted_iff.mpr (by decide +kernel)
      exact hi.not_inStep rfl ⟨haccepted, _, rfl, rfl⟩

end Cppim.Logic.Registration
