import Cppim.Lib.Transition
import Cppim.Logic.Push
import Cppim.Rate.Vegas
import Mathlib.Logic.Function.Basic

/-! `HttpServer::onRequest` with the push handlers, the limiter and the delivery
reports of Kafka (`ProduceCb::dr_cb`).

A run interleaves three kinds of steps: `onRequest` up to the return of the
handler, the rest of `onRequest`, and one delivery report. `Produce` only puts
messages into the queue of the Kafka library, so the calls of one handler are one
step; their reports may come before `onRequest` goes on. A request is named by
its number, and so is the `Callback` that is made for it. -/

namespace Cppim.Logic.System

open Cppim.Common Cppim.Http Cppim.Lib.Transition Cppim.Rate

/-- `threw` is a request whose handler did not return. -/
inductive Phase where
  | running | returned | threw
  deriving Repr, DecidableEq

/-- A request that came to `onRequest`. -/
structure Exchange where
  conn : Nat
  response : HttpResponse
  /-- what the limiter's closure captured for an admitted request: `inFlight`, `start` -/
  slot : Option (Int × Int)
  phase : Phase
  /-- the serialized responses handed to the session -/
  sent : List Bytes
  /-- how often the `Callback` was invoked; the first call ends with `delete cb` -/
  calls : Nat := 0
  deriving Repr, DecidableEq

structure State where
  vegas : Vegas := {}
  /-- `context_` of each session -/
  context : Nat → Option Nat := fun _ => none
  exchanges : List Exchange := []
  /-- produced messages without a delivery report -/
  outstanding : List Message := []
  closed : List Nat := []
  fault : Option Fault := none

inductive Label where
  | request (conn : Nat) (req : HttpRequest) (env : Env) (start : Int)
  | respond (id : Nat)
  | report (i : Nat) (end_ rand : Int)

def closes (req : HttpRequest) : Bool :=
  let connection := req.getHeader (bytes "Connection")
  connection = bytes "close" ∨ (req.version_ = .kHttp10 ∧ connection ≠ bytes "Keep-Alive")

def setStatus (response : HttpResponse) (code : HttpStatusCode) (message : String) :
    HttpResponse :=
  (response.setStatusCode code).setStatusMessage (bytes message)

/-- `doResponse(response)` -/
def Exchange.doResponse (e : Exchange) (response : HttpResponse) : Exchange :=
  { e with response := response, sent := e.sent ++ [response.appendToBuffer] }

/-- The end of `onRequest`. -/
def closeIf (response : HttpResponse) (conn : Nat) (closed : List Nat) : List Nat :=
  if response.closeConnection_ then closed ++ [conn] else closed

/-- A request that is not given to a handler is answered at once. -/
def State.refuse (s : State) (conn : Nat) (response : HttpResponse) : State :=
  { s with
    exchanges := s.exchanges ++
      [{ conn := conn, response := response, slot := none, phase := .returned,
         sent := [response.appendToBuffer] }]
    closed := closeIf response conn s.closed }

/-- The admitted request with the result of its handler. -/
def opened (conn : Nat) (response : HttpResponse) (slot : Int × Int) :
    Except Fault Handled → Exchange
  | .error _ =>
    { conn := conn, response := response, slot := some slot, phase := .threw, sent := [] }
  | .ok handled =>
    { conn := conn, response := handled.response, slot := some slot, phase := .running,
      sent := handled.sent }

theorem opened_slot (conn : Nat) (response : HttpResponse) (slot : Int × Int)
    (result : Except Fault Handled) : (opened conn response slot result).slot = some slot := by
  cases result <;> rfl

def State.accept (s : State) (conn : Nat) (response : HttpResponse) (slot : Int × Int)
    (result : Except Fault Handled) : State :=
  let s := { s with exchanges := s.exchanges ++ [opened conn response slot result] }
  match result with
  | .error e => { s with fault := some e }
  | .ok handled => { s with outstanding := s.outstanding ++ handled.produced }

@[simp] theorem accept_exchanges (s : State) (conn : Nat) (response : HttpResponse)
    (slot : Int × Int) (result : Except Fault Handled) :
    (s.accept conn response slot result).exchanges =
      s.exchanges ++ [opened conn response slot result] := by
  cases result <;> rfl

@[simp] theorem accept_vegas (s : State) (conn : Nat) (response : HttpResponse)
    (slot : Int × Int) (result : Except Fault Handled) :
    (s.accept conn response slot result).vegas = s.vegas := by
  cases result <;> rfl

/-- `onRequest` until the handler returns. -/
def onRequest (s : State) (conn : Nat) (req : HttpRequest) (env : Env) (start : Int) : State :=
  let response : HttpResponse := { closeConnection_ := closes req }
  match handler_ req.path_ with
  | none => s.refuse conn (setStatus response .k404NotFound "NotFound")
  | some h =>
    match Allow s.vegas with
    | (vegas, none) =>
      { s with vegas := vegas }.refuse conn (setStatus response .k200Ok "Too Frequency")
    | (vegas, some inFlight) =>
      let context := Function.update s.context conn (some s.exchanges.length)
      { s with vegas := vegas, context := context }.accept conn response (inFlight, start)
        (h.run env (context conn) req response)

/-- The rest of `onRequest`. -/
def respond (s : State) (id : Nat) (e : Exchange) : State :=
  let e := { e with phase := .returned }
  let e := if e.response.delay then e else e.doResponse (setStatus e.response .k200Ok "OK")
  { s with
    exchanges := s.exchanges.set id e
    closed := closeIf e.response e.conn s.closed }

/-- `(*cb)(); delete cb;` for the callback of request `id` -/
def call (d : Doubles) (s : State) (id : Nat) (e : Exchange) (slot : Int × Int)
    (end_ rand : Int) : State :=
  if e.calls = 0 then
    { s with
      vegas := s.vegas.done d slot.1 slot.2 .Success end_ rand
      exchanges := s.exchanges.set id
        { e.doResponse (setStatus e.response .k200Ok "OK") with calls := 1 } }
  else
    { s with
      exchanges := s.exchanges.set id { e with calls := e.calls + 1 }
      fault := some .useAfterFree }

/-- A session runs one `onRequest` at a time. -/
def idle (s : State) (conn : Nat) : Prop :=
  conn ∉ s.closed ∧ ∀ e ∈ s.exchanges, e.conn = conn → e.phase ≠ .running

instance (s : State) (conn : Nat) : Decidable (idle s conn) :=
  inferInstanceAs (Decidable (_ ∧ _))

def report (d : Doubles) (s : State) (i : Nat) (end_ rand : Int) : Option State :=
  match s.outstanding[i]? with
  | none => none
  | some m =>
    let s := { s with outstanding := s.outstanding.eraseIdx i }
    match m.cb with
    | none => some s
    | some id =>
      match s.exchanges[id]? with
      | some e => e.slot.map fun slot => call d s id e slot end_ rand
      | none => none

/-- Nothing happens after a fault. -/
def step (d : Doubles) (s : State) (l : Label) : Option State :=
  if s.fault ≠ none then none
  else
    match l with
    | .request conn req env start =>
      if idle s conn then some (onRequest s conn req env start) else none
    | .respond id =>
      match s.exchanges[id]? with
      | some e => if e.phase = .running then some (respond s id e) else none
      | none => none
    | .report i end_ rand => report d s i end_ rand

def init : State := {}

/-! ## What a step can do -/

/-- A request given to `onRequest` is refused at once, or given to its handler. -/
theorem onRequest_cases (s : State) (conn : Nat) (req : HttpRequest) (env : Env) (start : Int) :
    ((handler_ req.path_ = none ∨ ¬ s.vegas.inFlight_ < s.vegas.limit_) ∧
      ∃ response, onRequest s conn req env start = s.refuse conn response) ∨
    ∃ h vegas context, handler_ req.path_ = some h ∧ s.vegas.inFlight_ < s.vegas.limit_ ∧
      vegas.inFlight_ = s.vegas.inFlight_ + 1 ∧
      onRequest s conn req env start =
        { s with vegas := vegas, context := context }.accept conn
          { closeConnection_ := closes req } (s.vegas.inFlight_ + 1, start)
          (h.run env (some s.exchanges.length) req { closeConnection_ := closes req }) := by
  cases hpath : handler_ req.path_ with
  | none =>
    refine Or.inl ⟨Or.inl rfl,
      setStatus { closeConnection_ := closes req } .k404NotFound "NotFound", ?_⟩
    simp only [onRequest, hpath]
  | some h =>
    by_cases hlim : s.vegas.inFlight_ < s.vegas.limit_
    · refine Or.inr ⟨h, { s.vegas with inFlight_ := s.vegas.inFlight_ + 1 },
        Function.update s.context conn (some s.exchanges.length), rfl, hlim, rfl, ?_⟩
      simp only [onRequest, hpath, Allow_admitted _ hlim, Function.update_self]
    · refine Or.inl ⟨Or.inr hlim,
        setStatus { closeConnection_ := closes req } .k200Ok "Too Frequency", ?_⟩
      simp only [onRequest, hpath, Allow_refused _ hlim]

/-- A delivery report drops the message, and calls the callback it carries. -/
theorem report_cases {d : Doubles} {s s' : State} {i : Nat} {end_ rand : Int}
    (h : report d s i end_ rand = some s') :
    ∃ m, s.outstanding[i]? = some m ∧
      ((m.cb = none ∧ s' = { s with outstanding := s.outstanding.eraseIdx i }) ∨
      ∃ id e slot, m.cb = some id ∧ s.exchanges[id]? = some e ∧ e.slot = some slot ∧
        s' = call d { s with outstanding := s.outstanding.eraseIdx i } id e slot end_ rand) := by
  unfold report at h
  cases hm : s.outstanding[i]? with
  | none => simp [hm] at h
  | some m =>
    simp only [hm] at h
    refine ⟨m, rfl, ?_⟩
    cases hcb : m.cb with
    | none =>
      simp only [hcb] at h
      exact Or.inl ⟨rfl, (Option.some.inj h).symm⟩
    | some id =>
      simp only [hcb] at h
      cases he : s.exchanges[id]? with
      | none => simp [he] at h
      | some e =>
        simp only [he] at h
        obtain ⟨slot, hslot, rfl⟩ := Option.map_eq_some_iff.mp h
        exact Or.inr ⟨id, e, slot, rfl, he, hslot, rfl⟩

theorem step_cases {d : Doubles} {s s' : State} {l : Label} (h : step d s l = some s') :
    s.fault = none ∧
    ((∃ conn req env start, l = .request conn req env start ∧ idle s conn ∧
      s' = onRequest s conn req env start) ∨
    (∃ id e, l = .respond id ∧ s.exchanges[id]? = some e ∧ e.phase = .running ∧
      s' = respond s id e) ∨
    ∃ i end_ rand, l = .report i end_ rand ∧ report d s i end_ rand = some s') := by
  unfold step at h
  split at h
  · cases h
  · rename_i hf
    refine ⟨by simpa using hf, ?_⟩
    cases l with
    | request conn req env start =>
      simp only at h
      split at h
      · exact Or.inl ⟨conn, req, env, start, rfl, ‹_›, (Option.some.inj h).symm⟩
      · cases h
    | respond id =>
      cases he : s.exchanges[id]? with
      | none => simp [he] at h
      | some e =>
        simp only [he] at h
        split at h
        · exact Or.inr (Or.inl ⟨id, e, rfl, he, ‹_›, (Option.some.inj h).symm⟩)
        · cases h
    | report i end_ rand => exact Or.inr (Or.inr ⟨i, end_, rand, rfl, h⟩)

/-- A step that gives a request to its handler. -/
theorem step_request {d : Doubles} {s s' : State} {conn : Nat} {req : HttpRequest} {env : Env}
    {start : Int} {h : Handler} (hpath : handler_ req.path_ = some h)
    (hlimit : s.vegas.inFlight_ < s.vegas.limit_)
    (hstep : step d s (.request conn req env start) = some s') :
    s.fault = none ∧ ∃ vegas context, vegas.inFlight_ = s.vegas.inFlight_ + 1 ∧
      s' = { s with vegas := vegas, context := context }.accept conn
        { closeConnection_ := closes req } (s.vegas.inFlight_ + 1, start)
        (h.run env (some s.exchanges.length) req { closeConnection_ := closes req }) := by
  obtain ⟨hfault, ⟨conn', req', env', start', hl, -, rfl⟩ | ⟨_, _, hl, _⟩ | ⟨_, _, _, hl, _⟩⟩ :=
    step_cases hstep
  · cases hl
    rcases onRequest_cases s conn req env start with
      ⟨hno | hno, -⟩ | ⟨h', vegas, context, hpath', -, hin, hs⟩
    · simp [hpath] at hno
    · exact absurd hlimit hno
    · rw [hpath] at hpath'
      cases hpath'
      exact ⟨hfault, vegas, context, hin, hs⟩
  · cases hl
  · cases hl

theorem step_respond {d : Doubles} {s : State} {id : Nat} {e : Exchange} (hf : s.fault = none)
    (he : s.exchanges[id]? = some e) (hphase : e.phase = .running) :
    step d s (.respond id) = some (respond s id e) := by
  simp [step, hf, he, hphase]

theorem step_report {d : Doubles} {s : State} {i id : Nat} {m : Message} {e : Exchange}
    {slot : Int × Int} (hf : s.fault = none) (hm : s.outstanding[i]? = some m)
    (hcb : m.cb = some id) (he : s.exchanges[id]? = some e) (hslot : e.slot = some slot)
    (end_ rand : Int) :
    step d s (.report i end_ rand) =
      some (call d { s with outstanding := s.outstanding.eraseIdx i } id e slot end_ rand) := by
  simp [step, report, hf, hm, hcb, he, hslot]

/-! ## Callbacks that are on their way -/

/-- Every outstanding callback belongs to an admitted request. -/
def Known (s : State) : Prop :=
  ∀ m ∈ s.outstanding, ∀ id, m.cb = some id → ∃ e, s.exchanges[id]? = some e ∧ e.slot.isSome

theorem Known.fresh {s : State} (hk : Known s) :
    ∀ m ∈ s.outstanding, m.cb ≠ some s.exchanges.length := by
  intro m hm hcb
  obtain ⟨e, he, -⟩ := hk m hm _ hcb
  simp at he

theorem known_init : Known init := by
  intro m hm
  cases hm

theorem known_of_set {s s' : State} (hk : Known s) {id : Nat} {e e' : Exchange}
    (he : s.exchanges[id]? = some e) (hslot : e'.slot = e.slot)
    (hex : s'.exchanges = s.exchanges.set id e')
    (hout : ∀ m ∈ s'.outstanding, m ∈ s.outstanding) : Known s' := by
  intro m hm id' hcb
  obtain ⟨e₁, he₁, hs₁⟩ := hk m (hout m hm) id' hcb
  rw [hex]
  by_cases hid : id = id'
  · subst hid
    rw [he] at he₁
    cases he₁
    obtain ⟨hlt, -⟩ := List.getElem?_eq_some_iff.mp he
    exact ⟨e', by rw [List.getElem?_set_self hlt], by rw [hslot, hs₁]⟩
  · exact ⟨e₁, by rw [List.getElem?_set_ne hid, he₁], hs₁⟩

/-- The messages of an accepted request carry its id, or none. -/
theorem accept_outstanding {s : State} {conn id : Nat} {response : HttpResponse}
    {slot : Int × Int} {h : Handler} {env : Env} {req : HttpRequest} {m : Message}
    (hm : m ∈ (s.accept conn response slot (h.run env (some id) req response)).outstanding) :
    m ∈ s.outstanding ∨ m.cb = none ∨ m.cb = some id := by
  cases hrun : h.run env (some id) req response with
  | error err =>
    rw [hrun] at hm
    exact Or.inl hm
  | ok handled =>
    rw [hrun] at hm
    rcases List.mem_append.mp hm with hm | hm
    · exact Or.inl hm
    · exact Or.inr (Handler.run_cb hrun m hm)

theorem known_of_append {s s' : State} (hk : Known s) {e : Exchange}
    (hex : s'.exchanges = s.exchanges ++ [e]) (hout : ∀ m ∈ s'.outstanding,
      m ∈ s.outstanding ∨ (e.slot.isSome ∧ (m.cb = none ∨ m.cb = some s.exchanges.length))) :
    Known s' := by
  intro m hm id hcb
  rw [hex]
  rcases hout m hm with hold | ⟨hslot, hnone | hnew⟩
  · obtain ⟨e₁, he₁, hs₁⟩ := hk m hold id hcb
    obtain ⟨hlt, -⟩ := List.getElem?_eq_some_iff.mp he₁
    exact ⟨e₁, by rw [List.getElem?_append_left hlt, he₁], hs₁⟩
  · simp [hnone] at hcb
  · rw [hnew] at hcb
    cases hcb
    exact ⟨e, by simp, hslot⟩

theorem respond_slot (e : Exchange) (s : State) (id : Nat) :
    ∃ e', (respond s id e).exchanges = s.exchanges.set id e' ∧ e'.slot = e.slot := by
  refine ⟨_, rfl, ?_⟩
  split <;> rfl

theorem call_slot (d : Doubles) (s : State) (id : Nat) (e : Exchange) (slot : Int × Int)
    (end_ rand : Int) :
    ∃ e', (call d s id e slot end_ rand).exchanges = s.exchanges.set id e' ∧ e'.slot = e.slot ∧
      (call d s id e slot end_ rand).outstanding = s.outstanding := by
  unfold call
  split
  · exact ⟨_, rfl, rfl, rfl⟩
  · exact ⟨_, rfl, rfl, rfl⟩

theorem step_known {d : Doubles} {s s' : State} {l : Label} (hk : Known s)
    (h : step d s l = some s') : Known s' := by
  obtain ⟨-, ⟨conn, req, env, start, -, -, rfl⟩ | ⟨id, e, -, he, -, rfl⟩ |
    ⟨i, end_, rand, -, hrep⟩⟩ := step_cases h
  · rcases onRequest_cases s conn req env start with ⟨-, response, hs⟩ | ⟨hd, v, c, -, -, -, hs⟩
    · rw [hs]
      exact known_of_append hk rfl fun m hm => Or.inl hm
    · rw [hs]
      refine known_of_append hk (accept_exchanges _ _ _ _ _) fun m hm => ?_
      exact (accept_outstanding hm).imp_right fun hcb => ⟨by simp [opened_slot], hcb⟩
  · obtain ⟨e', hex, hslot⟩ := respond_slot e s id
    exact known_of_set hk he hslot hex fun m hm => hm
  · obtain ⟨m, hm, ⟨-, rfl⟩ | ⟨id, e, slot, -, he, hslot, rfl⟩⟩ := report_cases hrep
    · exact fun m hm => hk m (List.mem_of_mem_eraseIdx hm)
    · obtain ⟨e', hex, hslot', hout⟩ := call_slot d
        { s with outstanding := s.outstanding.eraseIdx i } id e slot end_ rand
      exact known_of_set hk he hslot' hex fun m hm =>
        List.mem_of_mem_eraseIdx (hout ▸ hm)

theorem run_known {d : Doubles} {ls : List Label} {s : State}
    (h : run (step d) init ls = some s) : Known s :=
  run_kept (fun _ _ _ => step_known) ls init s known_init h

end Cppim.Logic.System
