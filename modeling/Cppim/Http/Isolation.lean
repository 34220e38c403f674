import Cppim.Http.Server

/-! What one request on a keep-alive connection leaves to the next.

`HttpRequest::swap` does not swap `body_`, `querys_` and `closeConnection_`, so
`reset` keeps them. `overlay old r` is the request `r` parsed into a context
that still holds what `old` left; `readTurn_overlay` says that the leftover
changes nothing else about the parsing. From this `requests_isolated_iff`
decides which sequences of requests are dispatched as if each had come alone. -/

namespace Cppim.Http.HttpServer

open Cppim.Common Cppim.Lib Cppim.Lib.Cut Cppim.Lib.Loop Cppim.Lib.Framing
open Cppim.Lib.Incremental HttpContext

/-! ## A request over the leftover of another one -/

def overlay (old req : HttpRequest) : HttpRequest :=
  { req with
    body_ := if req.body_ = [] then old.body_ else req.body_
    closeConnection_ := old.closeConnection_
    querys_ := req.querys_ ∪ old.querys_ }

def onLeftover (old : HttpRequest) (p : HttpContext × Bytes) : HttpContext × Bytes :=
  ({ p.1 with request_ := overlay old p.1.request_ }, p.2)

theorem overlay_empty : overlay {} {} = {} := by
  have hq : (∅ : StringMap) ∪ ∅ = ∅ := by
    apply Std.ExtTreeMap.ext_getElem?
    intro k
    simp
  simp [overlay, hq]

/-- `reset` keeps what `swap` leaves behind. -/
theorem reset_eq (ctx : HttpContext) : (ctx.reset, []) = onLeftover ctx.request_ ({}, []) := by
  have hq : (∅ : StringMap) ∪ ctx.request_.querys_ = ctx.request_.querys_ := by
    apply Std.ExtTreeMap.ext_getElem?
    intro k
    simp [Std.ExtTreeMap.getElem?_union]
  simp [reset, onLeftover, overlay, HttpRequest.swap, hq]

/-- A parameter that an earlier request left is not overwritten. -/
theorem overlay_addQuery (old req : HttpRequest) (parm value : Bytes) :
    (overlay old req).addQuery parm value = overlay old (req.addQuery parm value) := by
  have hq : (req.querys_ ∪ old.querys_).insertIfNew parm value =
      req.querys_.insertIfNew parm value ∪ old.querys_ := by
    apply Std.ExtTreeMap.ext_getElem?
    intro k
    simp only [Std.ExtTreeMap.getElem?_insertIfNew, Std.ExtTreeMap.getElem?_union,
      Std.ExtTreeMap.mem_union_iff, Std.LawfulEqCmp.compare_eq_iff_eq]
    by_cases hk : parm = k
    · subst hk
      by_cases ho : parm ∈ old.querys_
      · simp [ho]
      · simp [ho]
    · simp [hk]
  exact congrArg (fun q => { overlay old req with querys_ := q }) hq

theorem addParm_overlay (old req : HttpRequest) (parm : Bytes) :
    addParm (overlay old req) parm = overlay old (addParm req parm) := by
  unfold addParm
  split
  · exact overlay_addQuery old req _ _
  · rfl

theorem foldl_addParm_overlay (old req : HttpRequest) (parms : List Bytes) :
    parms.foldl addParm (overlay old req) = overlay old (parms.foldl addParm req) := by
  induction parms generalizing req with
  | nil => rfl
  | cons parm parms ih => rw [List.foldl_cons, addParm_overlay, ih, List.foldl_cons]

theorem setTarget_overlay (old req : HttpRequest) (target : Bytes) :
    setTarget (overlay old req) target = overlay old (setTarget req target) := by
  unfold setTarget
  cases cut [questionMark] target with
  | none => rfl
  | some p => exact foldl_addParm_overlay old ((req.setPath p.1).setQuery p.2) _

theorem setVersionFrom_overlay (old req : HttpRequest) (text : Bytes) :
    setVersionFrom (overlay old req) text =
      ((setVersionFrom req text).1, overlay old (setVersionFrom req text).2) := by
  unfold setVersionFrom
  split
  · split
    · rfl
    · split <;> rfl
  · rfl

theorem parseRequestLine_overlay (old req : HttpRequest) (line : Bytes) :
    parseRequestLine (overlay old req) line =
      (parseRequestLine req line).map fun p => (p.1, overlay old p.2) := by
  unfold parseRequestLine
  cases cut [space] line with
  | none => rfl
  | some p =>
    obtain ⟨method, rest⟩ := p
    by_cases hm : req.method_ = .kInvalid
    · have hset : ∀ r : HttpRequest, r.method_ = .kInvalid → r.setMethod method =
          .ok (HttpRequest.methodOf method ≠ .kInvalid,
            { r with method_ := HttpRequest.methodOf method }) := by
        intro r hr
        simp [HttpRequest.setMethod, hr]
      simp only [hset req hm, hset (overlay old req) hm, ok_bind]
      split
      · cases cut [space] rest with
        | none => rfl
        | some q =>
          have ht := setTarget_overlay old
            { req with method_ := HttpRequest.methodOf method } q.1
          have hv := setVersionFrom_overlay old
            (setTarget { req with method_ := HttpRequest.methodOf method } q.1) q.2
          exact congrArg Except.ok ((congrArg (setVersionFrom · q.2) ht).trans hv)
      · rfl
    · simp [HttpRequest.setMethod, assert, overlay, hm, Except.map]

theorem parseHeaderLine_overlay (old : HttpRequest) (state : HttpRequestParseState)
    (req : HttpRequest) (line : Bytes) :
    parseHeaderLine ⟨state, overlay old req⟩ line =
      ((parseHeaderLine ⟨state, req⟩ line).1,
        { (parseHeaderLine ⟨state, req⟩ line).2 with
          request_ := overlay old (parseHeaderLine ⟨state, req⟩ line).2.request_ }) := by
  unfold parseHeaderLine
  split
  · rfl
  · split <;> rfl

theorem setBody_overlay (old req : HttpRequest) (body : Bytes) (h : body ≠ []) :
    (overlay old req).setBody body = overlay old (req.setBody body) := by
  simp [overlay, HttpRequest.setBody, h]

/-- **The leftover does not steer the parser.** -/
theorem readTurn_overlay (old : HttpRequest) (p : HttpContext × Bytes) :
    (readTurn p).map (onLeftover old) = readTurn (onLeftover old p) := by
  obtain ⟨⟨state, req⟩, unread⟩ := p
  cases state with
  | kExpectRequestLine =>
    simp only [readTurn, onLeftover]
    cases cut Buffer.kCRLF unread with
    | none => rfl
    | some p =>
      simp only [parseRequestLine_overlay]
      rcases parseRequestLine req p.1 with e | ⟨_ | _, req'⟩ <;> rfl
  | kExpectHeaders =>
    simp only [readTurn, onLeftover]
    cases cut Buffer.kCRLF unread with
    | none => rfl
    | some p =>
      simp only [parseHeaderLine_overlay]
      rcases parseHeaderLine ⟨.kExpectHeaders, req⟩ p.1 with ⟨_ | _, ctx'⟩ <;> rfl
  | kExpectBody =>
    have hlen : contentLength (overlay old req) = contentLength req := rfl
    simp only [readTurn, onLeftover, hlen]
    by_cases hpos : 0 < contentLength req
    · by_cases hle : contentLength req ≤ unread.length
      · have hne : unread.take (contentLength req).toNat ≠ [] := by
          rw [ne_eq, List.take_eq_nil_iff, ← List.length_eq_zero_iff]
          omega
        simp only [hpos, hle, ↓reduceIte, setBody_overlay old req _ hne]
        rfl
      · simp only [hpos, hle, ↓reduceIte]
        rfl
    · simp only [hpos, ↓reduceIte]
      rfl
  | kGotAll => rfl

theorem ends_overlay {p t : HttpContext × Bytes} {o : List Bool} (old : HttpRequest)
    (h : Ends readTurn p o t) : Ends readTurn (onLeftover old p) o (onLeftover old t) := by
  induction h with
  | leave ht => exact .leave (by rw [← readTurn_overlay, ht]; rfl)
  | again ht _ ih => exact .again (by rw [← readTurn_overlay, ht]; rfl) ih

/-! ## Requests alone and on one session -/

/-- The request that a fresh context parses from exactly these bytes. -/
def parseAlone (w : Bytes) : Option HttpRequest :=
  match (Buffer.ofSize kInitialSize).append w with
  | .error _ => none
  | .ok buf =>
    match parseRequest ({}, buf) with
    | .done [true] (ctx, rest) =>
      if ctx.gotAll ∧ rest.readable = [] then some ctx.request_ else none
    | _ => none

theorem ends_of_parseAlone {w : Bytes} {req : HttpRequest} (h : parseAlone w = some req) :
    Ends readTurn ({}, w) [true] (⟨.kGotAll, req⟩, []) := by
  have hempty := Buffer.readable_ofSize kInitialSize
  unfold parseAlone at h
  generalize Buffer.ofSize kInitialSize = empty at hempty h
  obtain ⟨buf, hbuf, hread, _⟩ := empty.append_ok w
  rw [hempty, List.nil_append] at hread
  have hview := parseRequest_view ({}, buf)
  simp only [hbuf] at h
  split at h
  · rename_i ctx rest hdone
    split at h
    · rename_i hall
      obtain ⟨state, r⟩ := ctx
      cases h
      have hs : state = .kGotAll := by simpa [gotAll] using hall.1
      rw [hdone] at hview
      simp only [Outcome.map, view, hall.2, hread, hs] at hview
      exact (readRequest_done_iff _ _ _).mp hview.symm
    · cases h
  · cases h

/-- The requests that a session hands over when `old` was the last one before. -/
def dispatched (old : HttpRequest) : List HttpRequest → List HttpRequest
  | [] => []
  | req :: reqs => overlay old req :: dispatched (overlay old req) reqs

theorem dispatched_length (old : HttpRequest) (reqs : List HttpRequest) :
    (dispatched old reqs).length = reqs.length := by
  induction reqs generalizing old with
  | nil => rfl
  | cons req reqs ih => simp [dispatched, ih]

theorem readSession_dispatched (css : List (List Bytes)) (reqs : List HttpRequest)
    (h : List.Forall₂ (fun cs req => parseAlone cs.flatten = some req) css reqs)
    (old : HttpRequest) :
    ∃ p, readSession (onLeftover old ({}, [])) css.flatten =
      .done ((dispatched old reqs).map .onRequest) p := by
  induction h generalizing old with
  | nil => exact ⟨_, rfl⟩
  | @cons cs req css reqs hreq _ ih =>
    have hends := ends_overlay old (ends_of_parseAlone hreq)
    have hwait : readTurn (onLeftover old ({}, [])) = .leave [true] (onLeftover old ({}, [])) := rfl
    have hone := readSession_request cs (onLeftover old ({}, [])) (overlay old req) hwait hends
    rw [reset_eq] at hone
    obtain ⟨p, hp⟩ := ih (overlay old req)
    refine ⟨p, ?_⟩
    rw [List.flatten_cons]
    refine (feed_append hone css.flatten).trans ?_
    exact congrArg (Outcome.emit [.onRequest (overlay old req)]) hp

/-! ## When nothing is left over -/

/-- What `old` leaves does not show in `req`: each of its parameters occurs in
`req` with the same value, and `req` has a body if `old` has one. -/
def Compatible (old req : HttpRequest) : Prop :=
  (∀ k v : Bytes, old.querys_[k]? = some v → req.querys_[k]? = some v) ∧
  (old.body_ ≠ [] → req.body_ ≠ [])

theorem querys_union_eq_iff (m old : StringMap) :
    m ∪ old = m ↔ ∀ k v : Bytes, old[k]? = some v → m[k]? = some v := by
  constructor
  · intro h k v hv
    rw [← h, Std.ExtTreeMap.getElem?_union, hv, Option.some_or]
  · intro h
    apply Std.ExtTreeMap.ext_getElem?
    intro k
    rw [Std.ExtTreeMap.getElem?_union]
    cases hv : old[k]? with
    | none => rfl
    | some v => rw [h k v hv, Option.some_or]

theorem overlay_eq_self_iff (old req : HttpRequest)
    (hclose : req.closeConnection_ = old.closeConnection_) :
    overlay old req = req ↔ Compatible old req := by
  obtain ⟨method, version, path, query, body, close, querys, headers⟩ := req
  simp only at hclose
  simp only [overlay, Compatible, HttpRequest.mk.injEq, true_and, and_true, hclose,
    querys_union_eq_iff]
  by_cases hb : body = [] <;> simp [hb, and_comm]

/-- No request closes the connection by itself: `closeConnection_` has no setter. -/
theorem closeConnection_of_parseAlone {w : Bytes} {req : HttpRequest}
    (h : parseAlone w = some req) : req.closeConnection_ = false := by
  have hends := ends_of_parseAlone h
  have hover := ends_overlay {} hends
  have hfresh : onLeftover {} (({} : HttpContext), w) = ({}, w) := by
    simp only [onLeftover, overlay_empty]
  rw [hfresh] at hover
  have h₁ := (readRequest_done_iff _ _ _).mpr hends
  rw [(readRequest_done_iff _ _ _).mpr hover] at h₁
  simp only [onLeftover, Outcome.done.injEq, Prod.mk.injEq, HttpContext.mk.injEq, true_and,
    and_true] at h₁
  rw [← h₁]
  rfl

theorem dispatched_eq_iff (old : HttpRequest) (hold : old.closeConnection_ = false)
    (reqs : List HttpRequest) (hreqs : ∀ req ∈ reqs, req.closeConnection_ = false) :
    dispatched old reqs = reqs ↔ List.IsChain Compatible (old :: reqs) := by
  induction reqs generalizing old with
  | nil => simp [dispatched]
  | cons req reqs ih =>
    have hreq : req.closeConnection_ = false := hreqs req (by simp)
    have hone := overlay_eq_self_iff old req (hreq.trans hold.symm)
    have hrest := ih req hreq fun r hr => hreqs r (by simp [hr])
    rw [List.isChain_cons_cons, ← hone, ← hrest, dispatched, List.cons.injEq]
    constructor
    · rintro ⟨h₁, h₂⟩
      exact ⟨h₁, h₁ ▸ h₂⟩
    · rintro ⟨h₁, h₂⟩
      exact ⟨h₁, by rw [h₁, h₂]⟩

/-- **Isolation on a keep-alive connection.** Each list of chunks of `css` carries
one request, which parses alone to the request of `reqs` at its place. The
session hands over one request for each; they are the requests of `reqs` exactly
when no request shows what the one before it left. -/
theorem requests_isolated_iff (css : List (List Bytes)) (reqs : List HttpRequest)
    (h : List.Forall₂ (fun cs req => parseAlone cs.flatten = some req) css reqs)
    (buf : Buffer) (hbuf : buf.readable = []) :
    ∃ ds s, session ({}, buf) css.flatten = .done (ds.map .onRequest) s ∧
      ds.length = reqs.length ∧ (ds = reqs ↔ List.IsChain Compatible reqs) := by
  have hfresh : view (({} : HttpContext), buf) = onLeftover {} ({}, []) := by
    simp only [view, onLeftover, overlay_empty, hbuf]
  obtain ⟨p, hp⟩ := readSession_dispatched css reqs h {}
  rw [← hfresh, ← session_view] at hp
  obtain ⟨s, hs, -⟩ := map_eq_done hp
  refine ⟨dispatched {} reqs, s, hs, dispatched_length {} reqs, ?_⟩
  have hclose : ∀ req ∈ reqs, req.closeConnection_ = false := by
    clear hp hs
    induction h with
    | nil => simp
    | cons hreq _ ih =>
      intro r hr
      rcases List.mem_cons.mp hr with rfl | hr
      · exact closeConnection_of_parseAlone hreq
      · exact ih r hr
  rw [dispatched_eq_iff {} rfl reqs hclose]
  cases reqs with
  | nil => simp
  | cons req reqs =>
    rw [List.isChain_cons_cons]
    simp [Compatible]

/-- `GET /a?x=n HTTP/1.1` without headers, and the request it parses to. -/
def getX (n : String) : Bytes := bytes "GET /a?x=" ++ bytes n ++ bytes " HTTP/1.1\r\n\r\n"

def requestX (n : String) : HttpRequest where
  method_ := .kGet
  version_ := .kHttp11
  path_ := bytes "/a"
  query_ := bytes "x=" ++ bytes n
  querys_ := (∅ : StringMap).insert (bytes "x") (bytes n)

theorem requests_isolated_iff_two_chunks :
    List.Forall₂ (fun cs req => parseAlone cs.flatten = some req)
      [[bytes "GET /a?x", bytes "=1 HTTP/1.1\r\n\r\n"], [getX "2"]] [requestX "1", requestX "2"] ∧
    ∃ ds s, session ({}, Buffer.ofSize 16)
        [bytes "GET /a?x", bytes "=1 HTTP/1.1\r\n\r\n", getX "2"] = .done (ds.map .onRequest) s ∧
      ds.length = 2 ∧
      (ds = [requestX "1", requestX "2"] ↔
        List.IsChain Compatible [requestX "1", requestX "2"]) := by
  have h : List.Forall₂ (fun cs req => parseAlone cs.flatten = some req)
      [[bytes "GET /a?x", bytes "=1 HTTP/1.1\r\n\r\n"], [getX "2"]]
      [requestX "1", requestX "2"] :=
    .cons (by decide +kernel) (.cons (by decide +kernel) .nil)
  exact ⟨h, requests_isolated_iff _ _ h (Buffer.ofSize 16) (Buffer.readable_ofSize 16)⟩

/-- The second of two requests for the same path is handed over with the
parameter of the first. -/
theorem parameter_of_earlier_request_wins :
    parseAlone (getX "1") = some (requestX "1") ∧ parseAlone (getX "2") = some (requestX "2") ∧
    (session ({}, Buffer.ofSize kInitialSize) [getX "1", getX "2"]).out =
      [.onRequest (requestX "1"),
       .onRequest { requestX "2" with querys_ := (requestX "1").querys_ }] ∧
    (requestX "2").getQuery (bytes "x") ≠ (requestX "1").getQuery (bytes "x") := by
  refine ⟨?_, ?_, ?_, ?_⟩ <;> decide +kernel

end Cppim.Http.HttpServer
