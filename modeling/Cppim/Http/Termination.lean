import Cppim.Http.RequestLine

/-! The `while` loop of `HttpContext::parseRequest` ends.

A turn that goes round again has consumed a line, except in the state `kGotAll`, for which
the loop has no branch: there it would go round for ever. `parseRequest` leaves in that
state when a request is complete, and `onMessage` then resets the context before it
returns, so the loop is never entered there. -/

namespace Cppim.Http.HttpServer

open Cppim.Common Cppim.Lib Cppim.Lib.Loop Cppim.Lib.Framing HttpContext

/-- The states in which the loop is entered. -/
def Unfinished (s : HttpContext × Buffer) : Prop := s.1.state_ ≠ .kGotAll

theorem readTurn_advances {p p' : HttpContext × Bytes} {o : List Bool}
    (hp : p.1.state_ ≠ .kGotAll) (h : readTurn p = .again o p') :
    p'.1.state_ ≠ .kGotAll ∧ p'.2.length < p.2.length := by
  cases read_of_eq h with
  | requestLine hcut _ => exact ⟨by simp, length_lt_of_line hcut⟩
  | header hcut hline =>
    refine ⟨?_, length_lt_of_line hcut⟩
    rcases parseHeaderLine_state hline with hstate | hstate <;> simp [hstate]
  | gotAll => exact absurd rfl hp

theorem turn_advances {s s' : HttpContext × Buffer} {o : List Bool} (hs : Unfinished s)
    (h : turn s = .again o s') :
    Unfinished s' ∧ s'.2.readable.length < s.2.readable.length := by
  have hview := turn_view s
  rw [h] at hview
  exact readTurn_advances (p := view s) hs hview.symm

theorem turn_gotAll (req : HttpRequest) (buf : Buffer) :
    turn (⟨.kGotAll, req⟩, buf) = .again [] (⟨.kGotAll, req⟩, buf) := rfl

theorem parseRequest_halts {s : HttpContext × Buffer} (hs : Unfinished s) :
    (parseRequest s).Halts fun _ => True :=
  run_halts (fun s => s.2.readable.length) (fun _ _ _ => turn_advances)
    (fun _ _ _ _ _ => trivial) _ s hs (Nat.lt_succ_self _)

/-! ## How the loop ends -/

theorem parseRequestLine_error {req : HttpRequest} {line : Bytes} {e : Fault}
    (h : parseRequestLine req line = .error e) : e = .assertion := by
  by_cases hm : req.method_ = .kInvalid
  · obtain ⟨ok, req', hok, -⟩ := parseRequestLine_refused hm line
    rw [hok] at h
    cases h
  · unfold parseRequestLine at h
    split at h
    · cases h
    · rw [HttpRequest.setMethod, assert, if_neg hm] at h
      cases h
      rfl

theorem readTurn_fault {p : HttpContext × Bytes} {e : Fault} (h : readTurn p = .fault e) :
    e = .assertion := by
  cases read_of_eq h with
  | fault _ hline => exact parseRequestLine_error hline

theorem turn_fault {s : HttpContext × Buffer} {e : Fault} (h : turn s = .fault e) :
    e = .assertion := by
  have hview := turn_view s
  rw [h] at hview
  exact readTurn_fault hview.symm

/-- The loop ends: `parseRequest` returns, or the `assert` of `setMethod` stops it. -/
theorem parseRequest_ends {s : HttpContext × Buffer} (hs : Unfinished s) :
    (∃ ok t, parseRequest s = .done [ok] t) ∨ ∃ o, parseRequest s = .fault o .assertion := by
  cases h : parseRequest s with
  | done o t =>
    have hview := parseRequest_view s
    rw [h] at hview
    obtain ⟨ok, rfl⟩ := readTurn_ends_one ((readRequest_done_iff _ _ _).mp hview.symm)
    exact Or.inl ⟨ok, t, rfl⟩
  | fault o e =>
    obtain ⟨t, ht⟩ := exists_fault_of_run h
    rw [turn_fault ht]
    exact Or.inr ⟨o, rfl⟩
  | spin o t => exact absurd h ((parseRequest_halts hs).ne_spin o t)

/-! ## The session -/

theorem onMessage_halts {s : HttpContext × Buffer} (hs : Unfinished s) :
    (onMessage s).Halts Unfinished := by
  rw [onMessage]
  rcases parseRequest_ends hs with ⟨ok, ⟨ctx, buf⟩, h⟩ | ⟨o, h⟩
  · rw [h, answer]
    by_cases hgot : ctx.gotAll = true
    · simp only [hgot, ↓reduceIte]
      exact HttpRequestParseState.noConfusion
    · have hstate : ctx.state_ ≠ .kGotAll := by simpa [gotAll] using hgot
      simp only [hgot]
      exact hstate
  · rw [h]
    trivial

theorem receive_unfinished {s s' : HttpContext × Buffer} {chunk : Bytes} (hs : Unfinished s)
    (h : receive s chunk = .ok s') : Unfinished s' := by
  obtain ⟨buf, hbuf, -⟩ := s.2.append_ok chunk
  rw [receive, hbuf] at h
  cases h
  exact hs

/-- **The parse loop ends.** On a new session every call of `onMessage` comes to an end
whatever arrives. Between the calls the context is never in the state `kGotAll`, and from
there `parseRequest` ends on every content of the buffer: it returns, or it stops at the
`assert` of `setMethod`. In the state `kGotAll` no number of turns would end it. -/
theorem parseRequest_terminates (buf : Buffer) (chunks : List Bytes) :
    (∀ o s, session ({}, buf) chunks ≠ .spin o s) ∧
    (∀ o ctx rest, session ({}, buf) chunks = .done o (ctx, rest) → ctx.state_ ≠ .kGotAll ∧
      ∀ buf', (∃ ok t, parseRequest (ctx, buf') = .done [ok] t) ∨
        ∃ o', parseRequest (ctx, buf') = .fault o' .assertion) ∧
    ∀ req buf' n, run turn n (⟨.kGotAll, req⟩, buf') = .spin [] (⟨.kGotAll, req⟩, buf') := by
  have hhalts : (session ({}, buf) chunks).Halts Unfinished :=
    feed_halts (fun _ _ _ => receive_unfinished) (fun _ => onMessage_halts) chunks _
      HttpRequestParseState.noConfusion
  refine ⟨hhalts.ne_spin, fun o ctx rest h => ?_, fun req buf' n => ?_⟩
  · rw [h] at hhalts
    exact ⟨hhalts, fun buf' => parseRequest_ends (s := (ctx, buf')) hhalts⟩
  · exact run_of_still (turn_gotAll req buf') n

/-- A request in three chunks; the last one brings the start of another request. -/
theorem parseRequest_terminates_chunks :
    ∃ o ctx rest, session ({}, Buffer.ofSize 16)
        [bytes "GET /a HTTP/1.1\r", bytes "\nHost: b\r\n", bytes "\r\nGET"] =
          .done o (ctx, rest) ∧
      ctx.state_ ≠ .kGotAll ∧
      ∀ buf', (∃ ok t, parseRequest (ctx, buf') = .done [ok] t) ∨
        ∃ o', parseRequest (ctx, buf') = .fault o' .assertion := by
  have hreturns : (session ({}, Buffer.ofSize 16)
      [bytes "GET /a HTTP/1.1\r", bytes "\nHost: b\r\n", bytes "\r\nGET"]).map (·.1.state_) =
      .done [.onRequest {
        method_ := .kGet, version_ := .kHttp11, path_ := bytes "/a"
        headers_ := (∅ : StringMap).insert (bytes "Host") (bytes "b") }] .kExpectRequestLine := by
    decide +kernel
  obtain ⟨⟨ctx, rest⟩, hdone, -⟩ := map_eq_done hreturns
  exact ⟨_, ctx, rest, hdone, (parseRequest_terminates _ _).2.1 _ ctx rest hdone⟩

end Cppim.Http.HttpServer
