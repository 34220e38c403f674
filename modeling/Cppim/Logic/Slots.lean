import Cppim.Logic.Responses

/-! Where the slots of the limiter go. `onRequest` takes a slot for each admitted
request, and only the callback gives it back, which only the handler of
`/push/mids` passes on. `slots_returned_iff` says which runs keep the number in
flight equal to the number of admitted requests without a response and call no
callback twice. -/

namespace Cppim.Logic.System

open Cppim.Common Cppim.Http Cppim.Lib.Transition Cppim.Rate

/-- An admitted request for which nothing was sent. -/
def Exchange.unanswered (e : Exchange) : Bool := e.slot.isSome && e.sent.isEmpty

def unanswered (s : State) : Nat := s.exchanges.countP Exchange.unanswered

/-- The number in flight counts the unanswered requests, and no callback, which is deleted
by its first call, was called again; when all are answered, the next request is admitted. -/
def SlotsReturned (s : State) : Prop :=
  s.vegas.inFlight_ = unanswered s ∧ (∀ e ∈ s.exchanges, e.calls ≤ 1) ∧
    (unanswered s = 0 → (Allow s.vegas).2.isSome)

/-- A request that is admitted does not end in its handler's error branch; when
`onRequest` comes to its own response, the callback was already called; and a delivery
report comes with a callback that was not called before, or with none. -/
def Returns (s : State) : Label → Prop
  | .request _ req _ _ => ∀ h, handler_ req.path_ = some h →
      s.vegas.inFlight_ < s.vegas.limit_ → h.Reads req → h.Passes req
  | .respond id => ∀ e, s.exchanges[id]? = some e → e.calls ≠ 0
  | .report i _ _ => ∀ m id e, s.outstanding[i]? = some m → m.cb = some id →
      s.exchanges[id]? = some e → e.calls = 0

/-! ## The invariant -/

/-- As long as every step returns its slot, a request is answered by its callback
first. -/
structure Inv (s : State) : Prop where
  known : Known s
  balanced : s.vegas.inFlight_ = unanswered s
  answered : ∀ e ∈ s.exchanges, e.slot.isSome → (e.sent = [] ↔ e.calls = 0)
  once : ∀ e ∈ s.exchanges, e.calls ≤ 1
  running : ∀ e ∈ s.exchanges, e.phase = .running → e.slot.isSome ∧ e.response.delay_ = false

theorem inv_init : Inv init where
  known := known_init
  balanced := rfl
  answered := by simp [init]
  once := by simp [init]
  running := by simp [init]

theorem Inv.slotsReturned {s : State} (hi : Inv s) : SlotsReturned s := by
  refine ⟨hi.balanced, hi.once, fun hz => ?_⟩
  have hmin := s.vegas.min_le
  have hlt : s.vegas.inFlight_ < s.vegas.limit_ := by
    rw [hi.balanced, hz]
    simp only [minLimit_] at hmin
    omega
  rw [Allow_admitted _ hlt]
  rfl

theorem unanswered_append {s s' : State} {e : Exchange}
    (hex : s'.exchanges = s.exchanges ++ [e]) :
    unanswered s' = unanswered s + if e.unanswered then 1 else 0 := by
  simp [unanswered, hex, List.countP_append, List.countP_singleton]

theorem unanswered_set {s s' : State} {id : Nat} {e e' : Exchange}
    (he : s.exchanges[id]? = some e) (hex : s'.exchanges = s.exchanges.set id e') :
    unanswered s' + (if e.unanswered then 1 else 0) =
      unanswered s + if e'.unanswered then 1 else 0 := by
  obtain ⟨hlt, hget⟩ := List.getElem?_eq_some_iff.mp he
  rw [unanswered, hex, List.countP_set hlt, hget, unanswered]
  by_cases hu : e.unanswered = true
  · have hpos : 0 < s.exchanges.countP Exchange.unanswered :=
      List.countP_pos_iff.mpr ⟨e, List.mem_of_getElem? he, hu⟩
    simp only [hu, ↓reduceIte]
    omega
  · simp [hu]

/-- Adding a request that has its slot and its answers in step. -/
theorem Inv.append {s s' : State} {e : Exchange} (hi : Inv s) (hk : Known s')
    (hex : s'.exchanges = s.exchanges ++ [e]) (hcalls : e.calls = 0)
    (hsent : e.slot.isSome → e.sent = [])
    (hrun : e.phase = .running → e.slot.isSome ∧ e.response.delay_ = false)
    (hflight : s'.vegas.inFlight_ = s.vegas.inFlight_ + if e.slot.isSome then 1 else 0) :
    Inv s' where
  known := hk
  balanced := by
    rw [hflight, hi.balanced, unanswered_append hex]
    by_cases hs : e.slot.isSome
    · simp [Exchange.unanswered, hs, hsent hs]
    · simp [Exchange.unanswered, hs]
  answered := by
    intro e₁ h₁ hs₁
    rw [hex] at h₁
    rcases List.mem_append.mp h₁ with h₁ | h₁
    · exact hi.answered e₁ h₁ hs₁
    · obtain rfl := List.mem_singleton.mp h₁
      exact iff_of_true (hsent hs₁) hcalls
  once := by
    intro e₁ h₁
    rw [hex] at h₁
    rcases List.mem_append.mp h₁ with h₁ | h₁
    · exact hi.once e₁ h₁
    · obtain rfl := List.mem_singleton.mp h₁
      omega
  running := by
    intro e₁ h₁ hp₁
    rw [hex] at h₁
    rcases List.mem_append.mp h₁ with h₁ | h₁
    · exact hi.running e₁ h₁ hp₁
    · obtain rfl := List.mem_singleton.mp h₁
      exact hrun hp₁

/-- Changing a request so that answers and calls stay in step. -/
theorem Inv.set {s s' : State} {id : Nat} {e e' : Exchange} (hi : Inv s) (hk : Known s')
    (he : s.exchanges[id]? = some e) (hex : s'.exchanges = s.exchanges.set id e')
    (hans : e'.sent = [] ↔ e'.calls = 0) (honce : e'.calls ≤ 1)
    (hrun : e'.phase = .running → e'.slot.isSome ∧ e'.response.delay_ = false)
    (hflight : s'.vegas.inFlight_ + (if e.unanswered then 1 else 0) =
      s.vegas.inFlight_ + if e'.unanswered then 1 else 0) : Inv s' where
  known := hk
  balanced := by
    have hcount := unanswered_set he hex
    have hbal := hi.balanced
    split_ifs at hflight hcount <;> omega
  answered := by
    intro e₁ h₁ hs₁
    rw [hex] at h₁
    rcases List.mem_or_eq_of_mem_set h₁ with h₁ | rfl
    · exact hi.answered e₁ h₁ hs₁
    · exact hans
  once := by
    intro e₁ h₁
    rw [hex] at h₁
    rcases List.mem_or_eq_of_mem_set h₁ with h₁ | rfl
    · exact hi.once e₁ h₁
    · exact honce
  running := by
    intro e₁ h₁ hp₁
    rw [hex] at h₁
    rcases List.mem_or_eq_of_mem_set h₁ with h₁ | rfl
    · exact hi.running e₁ h₁ hp₁
    · exact hrun hp₁

/-! ## One step -/

theorem request_slots {d : Doubles} {s s' : State} {conn : Nat} {req : HttpRequest} {env : Env}
    {start : Int} (hi : Inv s) (h : step d s (.request conn req env start) = some s')
    (hs' : s' = onRequest s conn req env start) :
    (Returns s (.request conn req env start) ∧ Inv s') ∨
    (¬ Returns s (.request conn req env start) ∧ ¬ SlotsReturned s') := by
  have hk := step_known hi.known h
  rcases onRequest_cases s conn req env start with
    ⟨hno, response, hs⟩ | ⟨hd, vegas, context, hpath, hlimit, hin, hs⟩
  · refine Or.inl ⟨fun h hpath hlimit => ?_, ?_⟩
    · rcases hno with hno | hno
      · simp [hpath] at hno
      · exact absurd hlimit hno
    · rw [hs] at hs'
      subst hs'
      exact hi.append hk rfl rfl (fun h => by cases h) (fun h => by cases h)
        (by simp [State.refuse])
  · rw [hs] at hs'
    have hex : s'.exchanges = s.exchanges ++ [opened conn { closeConnection_ := closes req }
        (s.vegas.inFlight_ + 1, start)
        (hd.run env (some s.exchanges.length) req { closeConnection_ := closes req })] := by
      rw [hs', accept_exchanges]
    have hflight : s'.vegas.inFlight_ = s.vegas.inFlight_ + 1 := by
      rw [hs', accept_vegas, hin]
    have hreturns : (hd.Reads req → hd.Passes req) →
        Returns s (.request conn req env start) := by
      intro hp h hpath' _
      rw [hpath] at hpath'
      cases hpath'
      exact hp
    rcases hd.run_cases with ⟨hreads, err, hres⟩ | ⟨hreads, hpass, hres⟩ |
      ⟨hreads, hpass, ms, hres, -⟩
    · rw [hres] at hex
      refine Or.inl ⟨hreturns fun hr => absurd hr hreads, ?_⟩
      exact hi.append hk hex rfl (fun _ => rfl) (fun h => by cases h) hflight
    · -- the response is there and the slot is not given back
      rw [hres] at hex
      refine Or.inr ⟨fun hr => hpass (hr hd hpath hlimit hreads), fun hret => ?_⟩
      have hcount := unanswered_append hex
      have hbal := hret.1
      rw [hflight, hi.balanced, hcount] at hbal
      simp [opened, notFound, Exchange.unanswered] at hbal
    · rw [hres] at hex
      refine Or.inl ⟨hreturns fun _ => hpass, ?_⟩
      exact hi.append hk hex rfl (fun _ => rfl) (fun _ => ⟨rfl, rfl⟩) hflight

theorem respond_slots {d : Doubles} {s : State} {id : Nat} {e : Exchange} (hi : Inv s)
    (h : step d s (.respond id) = some (respond s id e)) (he : s.exchanges[id]? = some e)
    (hphase : e.phase = .running) :
    (Returns s (.respond id) ∧ Inv (respond s id e)) ∨
    (¬ Returns s (.respond id) ∧ ¬ SlotsReturned (respond s id e)) := by
  have hmem := List.mem_of_getElem? he
  obtain ⟨hslot, hdelay⟩ := hi.running e hmem hphase
  have hans := hi.answered e hmem hslot
  have hex : (respond s id e).exchanges = s.exchanges.set id
      ({ e with phase := .returned }.doResponse (setStatus e.response .k200Ok "OK")) := by
    simp [respond, HttpResponse.delay, hdelay]
  by_cases hcalls : e.calls = 0
  · -- the first response, with the slot still taken
    refine Or.inr ⟨fun hr => hr e he hcalls, fun hret => ?_⟩
    have hcount := unanswered_set he hex
    have hbal : s.vegas.inFlight_ = unanswered (respond s id e) := hret.1
    rw [hi.balanced] at hbal
    simp [Exchange.unanswered, hslot, hans.mpr hcalls, Exchange.doResponse] at hcount
    omega
  · refine Or.inl ⟨fun e' he' => ?_, ?_⟩
    · rw [he] at he'
      cases he'
      exact hcalls
    · have hsent : e.sent ≠ [] := fun hs => hcalls (hans.mp hs)
      refine hi.set (step_known hi.known h) he hex ?_ (hi.once e hmem) (fun hp => by cases hp) ?_
      · simp [Exchange.doResponse, hcalls]
      · simp [Exchange.unanswered, hsent, Exchange.doResponse, respond]

theorem report_slots {d : Doubles} {s s' : State} {i : Nat} {end_ rand : Int} (hi : Inv s)
    (h : step d s (.report i end_ rand) = some s') (hrep : report d s i end_ rand = some s') :
    (Returns s (.report i end_ rand) ∧ Inv s') ∨
    (¬ Returns s (.report i end_ rand) ∧ ¬ SlotsReturned s') := by
  have hk := step_known hi.known h
  obtain ⟨m, hm, ⟨hcb, rfl⟩ | ⟨id, e, slot, hcb, he, hslot, rfl⟩⟩ := report_cases hrep
  · refine Or.inl ⟨fun m' id e hm' hcb' => ?_, { hi with known := hk }⟩
    rw [hm] at hm'
    cases hm'
    simp [hcb] at hcb'
  · have hmem := List.mem_of_getElem? he
    have hs : e.slot.isSome := by simp [hslot]
    by_cases hcalls : e.calls = 0
    · -- the callback answers and gives the slot back
      have hsent := (hi.answered e hmem hs).mpr hcalls
      rw [call, if_pos hcalls] at hk ⊢
      refine Or.inl ⟨fun m' id' e' hm' hcb' he' => ?_, hi.set hk he rfl ?_ (Nat.le_refl 1) ?_ ?_⟩
      · rw [hm] at hm'
        cases hm'
        rw [hcb] at hcb'
        cases hcb'
        rw [he] at he'
        cases he'
        exact hcalls
      · simp [Exchange.doResponse]
      · intro hp
        exact ⟨hs, (hi.running e hmem hp).2⟩
      · simp [Exchange.unanswered, hs, hsent, Exchange.doResponse]
    · -- the callback was deleted by its first call
      refine Or.inr ⟨fun hr => hcalls (hr m id e hm hcb he), fun hret => ?_⟩
      rw [call, if_neg hcalls] at hret
      have hlt := (List.getElem?_eq_some_iff.mp he).1
      have htwice := hret.2.1 { e with calls := e.calls + 1 } (List.mem_set hlt _)
      simp only at htwice
      omega

theorem step_slots {d : Doubles} (s : State) (l : Label) (s' : State) (hi : Inv s)
    (h : step d s l = some s') :
    (Returns s l ∧ Inv s') ∨ (¬ Returns s l ∧ ¬ SlotsReturned s') := by
  obtain ⟨-, ⟨conn, req, env, start, rfl, -, hs⟩ | ⟨id, e, rfl, he, hphase, rfl⟩ |
    ⟨i, end_, rand, rfl, hrep⟩⟩ := step_cases h
  · exact request_slots hi h hs
  · exact respond_slots hi h he hphase
  · exact report_slots hi h hrep

/-- **The slots of the limiter.** In every state of a run the number in flight is the
number of admitted requests without a response and every callback was called once at
most, exactly if no admitted request of the run ends in its handler's error branch, none
comes to the end of `onRequest` before its callback was called, and no delivery report
comes with a callback that was called. -/
theorem slots_returned_iff (d : Doubles) (ls : List Label) (s : State)
    (hrun : run (step d) init ls = some s) :
    (∀ as bs t, ls = as ++ bs → run (step d) init as = some t → SlotsReturned t) ↔
      Guarded (step d) Returns init ls :=
  always_iff_guarded (fun _ => Inv.slotsReturned) step_slots ls init s inv_init hrun

/-! ## A run that returns its slot and one that does not -/

/-- A delivery report that overtakes the end of `onRequest`. -/
def reportFirst : List Label :=
  [.request 0 (pushSeven "1") twoGates 0, .report 0 5 0, .respond 0]

theorem pushSeven_passes : Handler.mids.Passes (pushSeven "1") := by
  refine ⟨⟨bytes "1", 1, ?_, ?_, ?_⟩, bytes "7", ?_, ?_⟩ <;> decide +kernel

/-- The calls of all callbacks, from the calls that a run shows. -/
theorem calls_eq_of_run {d : Doubles} {ls : List Label} {s : State} {n : Nat}
    (hrun : run (step d) init ls = some s)
    (hcalls : (run (step d) init ls).map (fun s => s.exchanges.map (·.calls)) = some [n]) {id : Nat}
    {e : Exchange} (he : s.exchanges[id]? = some e) : e.calls = n := by
  rw [hrun, Option.map_some, Option.some.injEq] at hcalls
  have hmem : e.calls ∈ s.exchanges.map (·.calls) :=
    List.mem_map_of_mem (List.mem_of_getElem? he)
  rwa [hcalls, List.mem_singleton] at hmem

theorem reportFirst_guarded : Guarded (step flat) Returns init reportFirst := by
  refine ⟨?_, fun s₁ h₁ => ⟨?_, fun s₂ h₂ => ⟨?_, fun _ _ => trivial⟩⟩⟩
  · intro h hpath _ _
    obtain rfl : h = .mids := by
      have hmids : handler_ (pushSeven "1").path_ = some .mids := by decide
      exact Option.some.inj (hpath.symm.trans hmids)
    exact pushSeven_passes
  · intro m id e _ _ he
    have hrun : run (step flat) init (reportFirst.take 1) = some s₁ :=
      (run_cons_eq_some _ _ _ _).mpr ⟨s₁, h₁, rfl⟩
    exact calls_eq_of_run hrun (by decide +kernel) he
  · intro e he
    have hrun : run (step flat) init (reportFirst.take 2) = some s₂ :=
      (run_cons_eq_some _ _ _ _).mpr ⟨s₁, h₁, (run_cons_eq_some _ _ _ _).mpr ⟨s₂, h₂, rfl⟩⟩
    rw [calls_eq_of_run hrun (n := 1) (by decide +kernel) he]
    exact Nat.one_ne_zero

theorem slots_returned_iff_report_first :
    ∃ s, run (step flat) init reportFirst = some s ∧
      ∀ as bs t, reportFirst = as ++ bs → run (step flat) init as = some t →
        SlotsReturned t := by
  have hsome : (run (step flat) init reportFirst).isSome = true := by decide +kernel
  obtain ⟨s, hs⟩ := Option.isSome_iff_exists.mp hsome
  exact ⟨s, hs, (slots_returned_iff flat reportFirst s hs).mpr reportFirst_guarded⟩

/-- `GET /push/all?operation=1&speed=1` -/
def pushAll : HttpRequest where
  method_ := .kGet
  version_ := .kHttp11
  path_ := bytes "/push/all"
  query_ := bytes "operation=1&speed=1"
  querys_ :=
    ((∅ : StringMap).insert (bytes "operation") (bytes "1")).insert (bytes "speed") (bytes "1")

/-- After eight pushes to all, each of them answered, the limiter is full. -/
theorem answered_pushes_fill_limiter :
    (run (step flat) init ((List.range 8).flatMap fun i =>
        [.request 0 pushAll twoGates 0, .respond i])).map
      (fun s => (s.vegas.inFlight_, unanswered s, (Allow s.vegas).2)) = some (8, 0, none) := by
  decide +kernel

end Cppim.Logic.System
