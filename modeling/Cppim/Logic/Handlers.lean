import Cppim.Http.Context
import Cppim.Logic.Push

/-! Bad parameters in the push requests of `logicserver/LogicServer.cc`.

A handler means to answer 404 to a request with a bad parameter. It does so where the
parameter can be read: `getQuery` dereferences `end()` for a parameter that is missing,
and `std::stoi` throws on a text that is not a number or too large for an `int`. -/

namespace Cppim.Logic

open Cppim.Common Cppim.Http HttpContext

/-- The parameter is missing, or empty. -/
def BadText (request : HttpRequest) (name : String) : Prop :=
  request.querys_[bytes name]? = none ∨ request.querys_[bytes name]? = some []

/-- The parameter is missing, empty, not a number, or zero. -/
def BadNumber (request : HttpRequest) (name : String) : Prop :=
  BadText request name ∨ ∃ text, request.querys_[bytes name]? = some text ∧
    ((∀ n, stoi text ≠ .ok n) ∨ stoi text = .ok 0)

/-- The parameter is missing, empty, or has an element that is not a number. -/
def BadNumbers (request : HttpRequest) (name : String) : Prop :=
  BadText request name ∨ ∃ text, request.querys_[bytes name]? = some text ∧
    ∃ elem ∈ split text (bytes ","), ∀ n, stoi elem ≠ .ok n

/-- A parameter that the handler needs is bad. A zero is bad for a parameter that is one
number; among the numbers of `mids` it is not. -/
def Handler.Bad : Handler → HttpRequest → Prop
  | .keys, request => BadNumber request "operation" ∨ BadText request "keys"
  | .mids, request => BadNumber request "operation" ∨ BadNumbers request "mids"
  | .room, request =>
    BadNumber request "operation" ∨ BadText request "type" ∨ BadText request "room"
  | .all, request => BadNumber request "operation" ∨ BadNumber request "speed"

theorem badText_iff (request : HttpRequest) (name : String) :
    BadText request name ↔ ¬ HasNonempty request name := by
  unfold BadText HasNonempty
  cases request.querys_[bytes name]? with
  | none => simp
  | some text => simp

theorem badNumber_iff (request : HttpRequest) (name : String) :
    BadNumber request name ↔ ¬ HasNonzero request name := by
  unfold BadNumber BadText HasNonzero
  cases request.querys_[bytes name]? with
  | none => simp
  | some text =>
    have hempty : stoi [] = .error .invalidArgument := rfl
    cases hn : stoi text with
    | error e => simp [hn]
    | ok n =>
      have hne : text ≠ [] := by
        rintro rfl
        simp [hempty] at hn
      simp [hn, hne]

theorem badNumbers_iff {request : HttpRequest} {name : String} (h : ListsNumbers request name) :
    BadNumbers request name ↔ ¬ HasNonempty request name := by
  obtain ⟨text, htext, hall⟩ := h
  rw [BadNumbers, badText_iff]
  constructor
  · rintro (hbad | ⟨text', htext', elem, helem, hno⟩)
    · exact hbad
    · rw [htext] at htext'
      cases htext'
      obtain ⟨n, hn⟩ := hall elem helem
      exact absurd hn (hno n)
  · exact Or.inl

/-- Where the parameters can be read, a request is bad exactly if it does not pass. -/
theorem Handler.bad_iff {h : Handler} {request : HttpRequest} (hreads : h.Reads request) :
    h.Bad request ↔ ¬ h.Passes request := by
  cases h with
  | keys => rw [Bad, Passes, badNumber_iff, badText_iff, not_and_or]
  | mids => rw [Bad, Passes, badNumber_iff, badNumbers_iff hreads.2, not_and_or]
  | room => rw [Bad, Passes, badNumber_iff, badText_iff, badText_iff, not_and_or, not_and_or]
  | all => rw [Bad, Passes, badNumber_iff, badNumber_iff, not_and_or]

/-- **When a handler returns.** It does exactly if it finds every parameter that it
reads, and `std::stoi` takes those that have to be numbers. It has then answered 404
exactly if one of them is bad. -/
theorem Handler.returns_iff_reads (h : Handler) (env : Env) (context : Option Nat)
    (request : HttpRequest) (response : HttpResponse) :
    ((∃ handled, h.run env context request response = .ok handled) ↔ h.Reads request) ∧
    (h.Reads request →
      (h.run env context request response = .ok (notFound response) ↔ h.Bad request)) := by
  have hcases := @Handler.run_cases env context request response h
  rcases hcases with ⟨hreads, e, he⟩ | ⟨hreads, hfails, hrun⟩ | ⟨hreads, hpasses, ms, hrun, -⟩
  · refine ⟨iff_of_false ?_ hreads, fun h => absurd h hreads⟩
    rintro ⟨handled, hrun⟩
    rw [he] at hrun
    cases hrun
  · exact ⟨iff_of_true ⟨_, hrun⟩ hreads,
      fun _ => iff_of_true hrun ((Handler.bad_iff hreads).mpr hfails)⟩
  · refine ⟨iff_of_true ⟨_, hrun⟩ hreads, fun _ => iff_of_false ?_ ?_⟩
    · -- the 404 is sent, the push sends nothing
      intro hnot
      rw [hrun] at hnot
      have hsent := congrArg Handled.sent (Except.ok.inj hnot)
      cases hsent
    · rw [Handler.bad_iff hreads]
      exact fun h => h hpasses

/-- A Redis that holds nothing. -/
def nobodyOnline : Env where
  redis := { strings := fun _ => none, hashes := fun _ => [], nodup := fun _ => List.nodup_nil }
  keyOrder := .sorted
  serverOrder := .sorted

/-- `operation=0&speed=5` -/
def zeroOperation : HttpRequest where
  querys_ := ((∅ : StringMap).insert (bytes "operation") (bytes "0")).insert (bytes "speed")
    (bytes "5")

/-- A zero is read and refused. -/
theorem zero_operation_refused :
    Handler.all.Reads zeroOperation ∧ ∀ response,
      Handler.all.run nobodyOnline none zeroOperation response = .ok (notFound response) := by
  have hop : zeroOperation.querys_[bytes "operation"]? = some (bytes "0") := by decide +kernel
  have hspeed : zeroOperation.querys_[bytes "speed"]? = some (bytes "5") := by decide +kernel
  have hreads : Handler.all.Reads zeroOperation :=
    ⟨⟨_, 0, hop, by decide +kernel⟩, ⟨_, 5, hspeed, by decide +kernel⟩⟩
  have hbad : Handler.all.Bad zeroOperation :=
    Or.inl (Or.inr ⟨_, hop, Or.inr (by decide +kernel)⟩)
  refine ⟨hreads, fun response => ?_⟩
  exact ((Handler.returns_iff_reads .all nobodyOnline none zeroOperation response).2 hreads).mpr
    hbad

/-- A request without parameters is accepted by the parser and crashes every handler. -/
theorem no_parameters_crash :
    ∃ request, (parseRequest ({}, ⟨bytes "........GET / HTTP/1.1\r\n\r\n", 8, 26, by decide,
        by decide, by decide⟩)).map view = .done [true] (⟨.kGotAll, request⟩, []) ∧
      ∀ (h : Handler) env context response,
        h.run env context request response = .error .endIterator := by
  refine ⟨{ method_ := .kGet, version_ := .kHttp11, path_ := bytes "/" }, by decide +kernel, ?_⟩
  intro h env context response
  cases h <;> rfl

end Cppim.Logic
