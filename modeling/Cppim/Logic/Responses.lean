import Cppim.Logic.System

/-! How many responses a dispatched request gets. The handler's error branch, the
end of `onRequest` and every delivery report send one each; nothing keeps them
apart, since the handler of `/push/mids` calls the getter `delay` where it means
`setDelay`. `one_response_iff` says for which requests the sum is one. -/

namespace Cppim.Logic.System

open Cppim.Common Cppim.Http Cppim.Lib.Transition Cppim.Rate

/-- Nothing more will be sent for the request: its handler threw, or `onRequest` has
returned and every message that carries its callback is reported. -/
def Over (s : State) (id : Nat) (e : Exchange) : Prop :=
  e.phase = .threw ∨ (e.phase = .returned ∧ ∀ m ∈ s.outstanding, m.cb ≠ some id)

/-- Never more than one response or one call of the callback, and in the end one
response. -/
def OneResponse (s : State) (id : Nat) : Prop :=
  ∃ e, s.exchanges[id]? = some e ∧ e.sent.length ≤ 1 ∧ e.calls ≤ 1 ∧
    (Over s id e → e.sent.length = 1)

/-! ## A request without callbacks on their way -/

/-- The request is answered at the end of `onRequest` and nowhere else. -/
def Quiet (s : State) (id : Nat) : Prop :=
  (∀ m ∈ s.outstanding, m.cb ≠ some id) ∧
  ∃ e, s.exchanges[id]? = some e ∧ e.calls = 0 ∧ e.response.delay_ = false ∧
    ((e.phase = .running ∧ e.sent = []) ∨ (e.phase = .returned ∧ e.sent.length = 1))

theorem Quiet.oneResponse {s : State} {id : Nat} (h : Quiet s id) : OneResponse s id := by
  obtain ⟨-, e, he, hcalls, -, ⟨hphase, hsent⟩ | ⟨hphase, hsent⟩⟩ := h
  · refine ⟨e, he, by simp [hsent], by omega, ?_⟩
    rintro (hthrew | ⟨hret, -⟩)
    · simp [hphase] at hthrew
    · simp [hphase] at hret
  · exact ⟨e, he, by omega, by omega, fun _ => hsent⟩

theorem onRequest_outstanding (s : State) (conn : Nat) (req : HttpRequest) (env : Env)
    (start : Int) (m : Message) (hm : m ∈ (onRequest s conn req env start).outstanding) :
    m ∈ s.outstanding ∨ m.cb = none ∨ m.cb = some s.exchanges.length := by
  rcases onRequest_cases s conn req env start with ⟨-, response, hs⟩ | ⟨hd, v, c, -, -, -, hs⟩
  · rw [hs] at hm
    exact Or.inl hm
  · rw [hs] at hm
    have hcases := accept_outstanding hm
    exact hcases

theorem onRequest_exchanges (s : State) (conn : Nat) (req : HttpRequest) (env : Env)
    (start : Int) : ∃ e, (onRequest s conn req env start).exchanges = s.exchanges ++ [e] := by
  rcases onRequest_cases s conn req env start with ⟨-, response, hs⟩ | ⟨hd, v, c, -, -, -, hs⟩
  · exact ⟨_, by rw [hs]; rfl⟩
  · exact ⟨_, by rw [hs, accept_exchanges]⟩

theorem step_quiet {d : Doubles} {s s' : State} {l : Label} {id : Nat} (hq : Quiet s id)
    (h : step d s l = some s') : Quiet s' id := by
  obtain ⟨hno, e, he, hcalls, hdelay, hphase⟩ := hq
  obtain ⟨hlt, -⟩ := List.getElem?_eq_some_iff.mp he
  obtain ⟨-, ⟨conn, req, env, start, -, -, rfl⟩ | ⟨id', e', -, he', hrun, rfl⟩ |
    ⟨i, end_, rand, -, hrep⟩⟩ := step_cases h
  · refine ⟨fun m hm hcb => ?_, e, ?_, hcalls, hdelay, hphase⟩
    · rcases onRequest_outstanding s conn req env start m hm with hm | hnone | hnew
      · exact hno m hm hcb
      · simp [hnone] at hcb
      · rw [hnew, Option.some.injEq] at hcb
        omega
    · obtain ⟨e₁, hex⟩ := onRequest_exchanges s conn req env start
      rw [hex, List.getElem?_append_left hlt, he]
  · refine ⟨hno, ?_⟩
    by_cases hid : id' = id
    · subst hid
      rw [he] at he'
      cases he'
      rcases hphase with ⟨-, hsent⟩ | ⟨hret, -⟩
      · refine ⟨_, List.getElem?_set_self hlt, ?_⟩
        simp [HttpResponse.delay, hdelay, Exchange.doResponse, setStatus,
          HttpResponse.setStatusCode, HttpResponse.setStatusMessage, hsent, hcalls]
      · simp [hret] at hrun
    · exact ⟨e, by rw [respond, List.getElem?_set_ne hid, he], hcalls, hdelay, hphase⟩
  · obtain ⟨m, hm, ⟨-, rfl⟩ | ⟨id', e', slot, hcb, he', -, rfl⟩⟩ := report_cases hrep
    · exact ⟨fun m hm => hno m (List.mem_of_mem_eraseIdx hm), e, he, hcalls, hdelay, hphase⟩
    · have hid : id' ≠ id := fun hid => hno m (List.mem_of_getElem? hm) (hid ▸ hcb)
      obtain ⟨e₁, hex, -, hout⟩ := call_slot d
        { s with outstanding := s.outstanding.eraseIdx i } id' e' slot end_ rand
      refine ⟨fun m hm => hno m (List.mem_of_mem_eraseIdx (hout ▸ hm)), e, ?_, hcalls, hdelay,
        hphase⟩
      rw [hex, List.getElem?_set_ne hid, he]

theorem run_quiet {d : Doubles} {ls : List Label} {s s' : State} {id : Nat} (hq : Quiet s id)
    (h : run (step d) s ls = some s') : Quiet s' id :=
  run_kept (fun _ _ _ => step_quiet) ls s s' hq h

/-! ## No response, and more than one -/

theorem OneResponse.sent_le {s : State} {id : Nat} {e : Exchange} (h : OneResponse s id)
    (he : s.exchanges[id]? = some e) : e.sent.length ≤ 1 := by
  obtain ⟨e', he', hle, -⟩ := h
  rw [he] at he'
  cases he'
  exact hle

theorem not_oneResponse_of_threw {s : State} {id : Nat} {e : Exchange}
    (he : s.exchanges[id]? = some e) (hphase : e.phase = .threw) (hsent : e.sent = []) :
    ¬ OneResponse s id := by
  rintro ⟨e', he', -, -, hover⟩
  rw [he] at he'
  cases he'
  have hone := hover (Or.inl hphase)
  simp [hsent] at hone

theorem respond_sent {s : State} {id : Nat} {e : Exchange} (he : s.exchanges[id]? = some e)
    (hdelay : e.response.delay_ = false) :
    ∃ e', (respond s id e).exchanges[id]? = some e' ∧ e'.sent.length = e.sent.length + 1 ∧
      e'.calls = e.calls ∧ e'.slot = e.slot := by
  obtain ⟨hlt, -⟩ := List.getElem?_eq_some_iff.mp he
  refine ⟨_, List.getElem?_set_self hlt, ?_⟩
  simp [HttpResponse.delay, hdelay, Exchange.doResponse]

theorem call_sent {s : State} {id : Nat} {e : Exchange} (he : s.exchanges[id]? = some e)
    (hcalls : e.calls = 0) (d : Doubles) (slot : Int × Int) (end_ rand : Int) :
    ∃ e', (call d s id e slot end_ rand).exchanges[id]? = some e' ∧
      e'.sent.length = e.sent.length + 1 := by
  obtain ⟨hlt, -⟩ := List.getElem?_eq_some_iff.mp he
  unfold call
  rw [if_pos hcalls]
  exact ⟨_, List.getElem?_set_self hlt, by simp [Exchange.doResponse]⟩

/-- A handler that has sent something is followed by the response of `onRequest`. -/
theorem second_by_respond (d : Doubles) {s : State} {id : Nat} {e : Exchange}
    (hf : s.fault = none) (he : s.exchanges[id]? = some e) (hphase : e.phase = .running)
    (hdelay : e.response.delay_ = false) (hsent : e.sent ≠ []) :
    ∃ s', run (step d) s [.respond id] = some s' ∧ ¬ OneResponse s' id := by
  obtain ⟨e', he', hlen, -⟩ := respond_sent he hdelay
  refine ⟨_, (run_cons_eq_some _ _ _ _).mpr ⟨_, step_respond hf he hphase, rfl⟩, fun h => ?_⟩
  have hle := h.sent_le he'
  have hpos := List.length_pos_of_ne_nil hsent
  omega

/-- A callback on its way sends a second response after that of `onRequest`. -/
theorem second_by_report (d : Doubles) {s : State} {id : Nat} {e : Exchange} {slot : Int × Int}
    (hf : s.fault = none) (he : s.exchanges[id]? = some e) (hphase : e.phase = .running)
    (hdelay : e.response.delay_ = false) (hcalls : e.calls = 0) (hslot : e.slot = some slot)
    {m : Message} (hm : m ∈ s.outstanding) (hcb : m.cb = some id) :
    ∃ ls s', run (step d) s ls = some s' ∧ ¬ OneResponse s' id := by
  obtain ⟨i, hi⟩ := List.mem_iff_getElem?.mp hm
  obtain ⟨e₁, he₁, hsent₁, hcalls₁, hslot₁⟩ := respond_sent he hdelay
  have hi' : (respond s id e).outstanding[i]? = some m := hi
  have hf' : (respond s id e).fault = none := hf
  have hrep : step d (respond s id e) (.report i 0 0) = some _ :=
    step_report hf' hi' hcb he₁ (hslot₁.trans hslot) 0 0
  have hgo : run (step d) s [.respond id, .report i 0 0] = some _ :=
    (run_cons_eq_some _ _ _ _).mpr ⟨_, step_respond hf he hphase,
      (run_cons_eq_some _ _ _ _).mpr ⟨_, hrep, rfl⟩⟩
  refine ⟨_, _, hgo, fun h => ?_⟩
  have he₁' : { respond s id e with
      outstanding := (respond s id e).outstanding.eraseIdx i }.exchanges[id]? = some e₁ := he₁
  obtain ⟨e₂, he₂, hsent₂⟩ := call_sent he₁' (hcalls₁.trans hcalls) d slot 0 0
  have hle := h.sent_le he₂
  omega

/-- **Exactly one response.** A request that `onRequest` gives to the handler `h`, in
any state of any run, gets one response and at most one call of its callback in
every continuation of the run exactly if the handler can read its parameters,
none of them is zero or empty, and for `/push/mids` no mid has a key in Redis. -/
theorem one_response_iff (d : Doubles) (ls : List Label) (s s₁ : State)
    (hrun : run (step d) init ls = some s) (conn : Nat) (req : HttpRequest) (env : Env)
    (start : Int) (h : Handler) (hpath : handler_ req.path_ = some h)
    (hlimit : s.vegas.inFlight_ < s.vegas.limit_)
    (hstep : step d s (.request conn req env start) = some s₁) :
    (∀ ls' s', run (step d) s₁ ls' = some s' → OneResponse s' s.exchanges.length) ↔
      h.Reads req ∧ h.Passes req ∧ (h = .mids → Nobody env req) := by
  obtain ⟨hfault, vegas, context, -, hs₁⟩ := step_request hpath hlimit hstep
  have he : s₁.exchanges[s.exchanges.length]? = some
      (opened conn { closeConnection_ := closes req } (s.vegas.inFlight_ + 1, start)
        (h.run env (some s.exchanges.length) req { closeConnection_ := closes req })) := by
    rw [hs₁, accept_exchanges]
    exact List.getElem?_concat_length
  rcases h.run_cases with ⟨hreads, err, hres⟩ | ⟨hreads, hpass, hres⟩ |
    ⟨hreads, hpass, ms, hres, hnone, hcb⟩
  · -- the handler throws and nothing is ever sent
    rw [hres] at he
    refine iff_of_false (fun H => ?_) fun hc => hreads hc.1
    exact not_oneResponse_of_threw he rfl rfl (H [] s₁ rfl)
  · -- the handler sends 404, then `onRequest` goes on and sends 200
    rw [hres] at hs₁ he
    refine iff_of_false (fun H => ?_) fun hc => hpass hc.2.1
    obtain ⟨s', hgo, hnot⟩ := second_by_respond d (by rw [hs₁]; exact hfault) he rfl rfl
      (by simp [opened, notFound])
    exact hnot (H _ _ hgo)
  · rw [hres] at hs₁ he
    have hout : s₁.outstanding = s.outstanding ++ ms := by
      rw [hs₁]
      rfl
    by_cases hquiet : ∀ m ∈ ms, m.cb ≠ some s.exchanges.length
    · -- no message carries the callback
      have hq : Quiet s₁ s.exchanges.length := by
        refine ⟨fun m hm => ?_, _, he, rfl, rfl, Or.inl ⟨rfl, rfl⟩⟩
        rw [hout] at hm
        rcases List.mem_append.mp hm with hm | hm
        · exact (run_known hrun).fresh m hm
        · exact hquiet m hm
      refine iff_of_true (fun ls' s' hr => ?_) ⟨hreads, hpass, fun hmids => ?_⟩
      · exact (run_quiet hq hr).oneResponse
      · refine (hcb hmids).2.mp (List.eq_nil_iff_forall_not_mem.mpr fun m hm => ?_)
        exact hquiet m hm ((hcb hmids).1 m hm)
    · -- `onRequest` sends 200, and the report of a message sends it again
      push Not at hquiet
      obtain ⟨m, hm, hmcb⟩ := hquiet
      have hmids : h = .mids := by
        by_contra hne
        simp [hnone hne m hm] at hmcb
      refine iff_of_false (fun H => ?_) fun hc => ?_
      · obtain ⟨ls', s', hgo, hnot⟩ := second_by_report d (by rw [hs₁]; exact hfault) he rfl rfl
          rfl rfl (by rw [hout]; exact List.mem_append_right _ hm) hmcb
        exact hnot (H _ _ hgo)
      · have hnil := (hcb hmids).2.mpr (hc.2.2 hmids)
        simp [hnil] at hm

/-! ## A push to two gates -/

/-- Any arithmetic will do. -/
def flat : Doubles := ⟨fun _ _ _ => 0, fun _ _ _ => false, fun _ _ _ => false, fun limit _ => limit⟩

/-- User 7 is connected to two gates. -/
def twoGates : Env where
  redis :=
    { strings := fun _ => none
      hashes := fun name =>
        if name = bytes "mid_7" then
          [(bytes "k1", bytes "gate1"), (bytes "k2", bytes "gate2")]
        else []
      nodup := fun name => by
        split
        · decide
        · exact List.nodup_nil }
  keyOrder := .sorted
  serverOrder := .sorted

/-- `GET /push/mids?operation=n&mids=7` -/
def pushSeven (n : String) : HttpRequest where
  method_ := .kGet
  version_ := .kHttp11
  path_ := bytes "/push/mids"
  query_ := bytes "operation=" ++ bytes n ++ bytes "&mids=7"
  querys_ :=
    ((∅ : StringMap).insert (bytes "operation") (bytes n)).insert (bytes "mids") (bytes "7")

theorem one_response_iff_first_request :
    run (step flat) init [] = some init ∧ handler_ (pushSeven "1").path_ = some .mids ∧
    init.vegas.inFlight_ < init.vegas.limit_ ∧
    step flat init (.request 0 (pushSeven "1") twoGates 0) =
      some (onRequest init 0 (pushSeven "1") twoGates 0) ∧
    ((∀ ls' s', run (step flat) (onRequest init 0 (pushSeven "1") twoGates 0) ls' = some s' →
        OneResponse s' 0) ↔
      Handler.mids.Reads (pushSeven "1") ∧ Handler.mids.Passes (pushSeven "1") ∧
        (Handler.mids = .mids → Nobody twoGates (pushSeven "1"))) := by
  have hpath : handler_ (pushSeven "1").path_ = some .mids := by decide
  have hlimit : init.vegas.inFlight_ < init.vegas.limit_ := by decide
  have hstep : step flat init (.request 0 (pushSeven "1") twoGates 0) =
      some (onRequest init 0 (pushSeven "1") twoGates 0) := by
    have hidle : idle init 0 := by decide
    have hfault : init.fault = none := rfl
    simp [step, hfault, hidle]
  exact ⟨rfl, hpath, hlimit, hstep,
    one_response_iff flat [] init _ rfl 0 (pushSeven "1") twoGates 0 .mids hpath hlimit hstep⟩

/-- The responses and calls of each request, and the fault, at the end of a run. -/
def outcome (ls : List Label) : Option (List (Nat × Nat) × Option Fault) :=
  (run (step flat) init ls).map fun s =>
    (s.exchanges.map fun e => (e.sent.length, e.calls), s.fault)

/-- A push to two gates is answered at once and again with the first report; the
second report calls the deleted callback. A push with a zero parameter is
answered twice as well. -/
theorem push_answered_twice :
    outcome [.request 0 (pushSeven "1") twoGates 0, .respond 0, .report 0 0 0] =
      some ([(2, 1)], none) ∧
    outcome [.request 0 (pushSeven "1") twoGates 0, .respond 0, .report 0 0 0, .report 0 0 0] =
      some ([(2, 2)], some .useAfterFree) ∧
    outcome [.request 0 (pushSeven "0") twoGates 0, .respond 0] = some ([(2, 0)], none) := by
  refine ⟨?_, ?_, ?_⟩ <;> decide +kernel

end Cppim.Logic.System
