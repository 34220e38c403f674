import Cppim.Http.Context

/-! `HttpServer::onMessage` of `http/HttpServer.cc`: what arrives on one session,
chunk after chunk, and the requests that are handed to `onRequest`. -/

namespace Cppim.Http.HttpServer

open Cppim.Common Cppim.Lib Cppim.Lib.Loop Cppim.Lib.Framing Cppim.Lib.Incremental
open HttpContext

inductive Event where
  /-- `conn->send` of these bytes -/
  | send (text : Bytes)
  | onRequest (req : HttpRequest)
  deriving Repr, DecidableEq

def badRequest : Bytes := bytes "HTTP/1.1 400 Bad Request\r\n\r\n"

/-- What `onMessage` does once `parseRequest` has returned. The store is a parameter:
`onMessage` has the buffer in it and `readMessage` the unread bytes. -/
def answer {β : Type} : Outcome (HttpContext × β) Bool Fault → Outcome (HttpContext × β) Event Fault
  | .done ok (ctx, store) =>
    let sent := if ok = [true] then [] else [Event.send badRequest]
    if ctx.gotAll then .done (sent ++ [.onRequest ctx.request_]) (ctx.reset, store)
    else .done sent (ctx, store)
  | .fault _ e => .fault [] e
  | .spin _ s => .spin [] s

def onMessage (s : HttpContext × Buffer) : Outcome (HttpContext × Buffer) Event Fault :=
  answer (parseRequest s)

/-- A chunk arrives in the session's buffer. -/
def receive (s : HttpContext × Buffer) (chunk : Bytes) : Except Fault (HttpContext × Buffer) := do
  return (s.1, ← s.2.append chunk)

/-- A session: every chunk is received and `onMessage` called. -/
def session : HttpContext × Buffer → List Bytes → Outcome (HttpContext × Buffer) Event Fault :=
  feed onMessage receive

/-! ## The session over the unread bytes -/

def readMessage (p : HttpContext × Bytes) : Outcome (HttpContext × Bytes) Event Fault :=
  answer (readRequest p)

def readSession : HttpContext × Bytes → List Bytes → Outcome (HttpContext × Bytes) Event Fault :=
  feed readMessage fun p chunk => .ok (more chunk p)

theorem answer_view (x : Outcome (HttpContext × Buffer) Bool Fault) :
    (answer x).map view = answer (x.map view) := by
  cases x with
  | done ok s =>
    obtain ⟨ctx, buf⟩ := s
    by_cases hg : ctx.gotAll = true <;> simp [answer, Outcome.map, view, hg]
  | fault ok e => rfl
  | spin ok s => rfl

theorem receive_view (s : HttpContext × Buffer) (chunk : Bytes) :
    (receive s chunk).map view = .ok (more chunk (view s)) := by
  obtain ⟨buf, hbuf, hread, _⟩ := s.2.append_ok chunk
  simp [receive, hbuf, Except.map, view, more, hread]

theorem onMessage_view (s : HttpContext × Buffer) :
    (onMessage s).map view = readMessage (view s) := by
  rw [onMessage, answer_view, parseRequest_view]
  rfl

theorem session_view (s : HttpContext × Buffer) (cs : List Bytes) :
    (session s cs).map view = readSession (view s) cs :=
  feed_map onMessage_view receive_view cs s

/-- A loop that ends with the whole request, or waits for more of it. -/
theorem readMessage_got {p : HttpContext × Bytes} {req : HttpRequest} {unread : Bytes}
    (h : Ends readTurn p [true] (⟨.kGotAll, req⟩, unread)) :
    readMessage p = .done [.onRequest req] (reset ⟨.kGotAll, req⟩, unread) := by
  rw [readMessage, (readRequest_done_iff _ _ _).mpr h]
  rfl

theorem readMessage_wait {p : HttpContext × Bytes} {ctx : HttpContext} {unread : Bytes}
    (h : Ends readTurn p [true] (ctx, unread)) (hctx : ctx.gotAll = false) :
    readMessage p = .done [] (ctx, unread) := by
  rw [readMessage, (readRequest_done_iff _ _ _).mpr h]
  simp [answer, hctx]

theorem readSession_cons {p q : HttpContext × Bytes} {c : Bytes} {o : List Event}
    (h : readMessage (more c p) = .done o q) (cs : List Bytes) :
    readSession p (c :: cs) = (readSession q cs).emit o := by
  simp only [readSession, feed, h]

/-- Between two requests a session with nothing unread stays as it is. -/
theorem readSession_idle (ctx : HttpContext) (hctx : ctx.state_ = .kExpectRequestLine)
    (cs : List Bytes) (hcs : cs.flatten = []) : readSession (ctx, []) cs = .done [] (ctx, []) := by
  induction cs with
  | nil => rfl
  | cons c cs ih =>
    obtain ⟨rfl, hcs⟩ : c = [] ∧ cs.flatten = [] := by simpa using hcs
    have hwait : readTurn (ctx, []) = .leave [true] (ctx, []) := by
      simp [readTurn, hctx, Cut.cut, Buffer.kCRLF, bytes]
    have hidle : readMessage (more [] (ctx, [])) = .done [] (ctx, []) := by
      rw [more_nil]
      exact readMessage_wait (.leave hwait) (by simp [gotAll, hctx])
    rw [readSession_cons hidle, ih hcs]
    rfl

/-- The loop stands still once everything is there, so it waits elsewhere. -/
theorem not_gotAll_of_wait {ctx : HttpContext} {unread : Bytes} {o : List Bool}
    {t : HttpContext × Bytes} (h : readTurn (ctx, unread) = .leave o t) : ctx.gotAll = false := by
  by_contra hg
  have hs : ctx.state_ = .kGotAll := by simpa [gotAll] using hg
  simp [readTurn, hs] at h

/-- **One request in any chunks.** A request that the parser takes whole is
handed over once, when its last byte is there, and the context is reset. -/
theorem readSession_request (cs : List Bytes) (p : HttpContext × Bytes) (req : HttpRequest)
    (hwait : readTurn p = .leave [true] p)
    (h : Ends readTurn (more cs.flatten p) [true] (⟨.kGotAll, req⟩, [])) :
    readSession p cs = .done [.onRequest req] (reset ⟨.kGotAll, req⟩, []) := by
  induction cs generalizing p with
  | nil =>
    rw [List.flatten_nil, more_nil] at h
    obtain ⟨-, rfl⟩ := ends_of_leave hwait h
    cases not_gotAll_of_wait hwait
  | cons c cs ih =>
    rw [List.flatten_cons, ← more_more] at h
    rcases ends_more readTurn_resumes h with ⟨⟨ctx, unread⟩, he, ht⟩ | ⟨o₁, o₂, q, ho, he, hq, hgo⟩
    · -- the chunk completes the request; what follows it is empty
      simp only [more, Prod.mk.injEq] at ht
      obtain ⟨rfl, hunread⟩ := ht
      obtain ⟨rfl, hcs⟩ := List.append_eq_nil_iff.mp hunread.symm
      rw [readSession_cons (readMessage_got he), readSession_idle _ rfl cs hcs]
      rfl
    · -- the loop waits in `q`
      obtain rfl := eq_nil_of_ends_append he
      obtain ⟨ctx, unread⟩ := q
      rw [List.nil_append] at he ho
      rw [readSession_cons (readMessage_wait he (not_gotAll_of_wait hq)), ih _ hq (ho ▸ hgo)]
      rfl

end Cppim.Http.HttpServer
