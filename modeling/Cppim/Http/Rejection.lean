import Cppim.Http.RequestLine

/-! What becomes of a request after `parseRequest` has returned false and 400 was sent.

A request line that is refused stays in front and is refused again, or trips the assertion
of `setMethod`. A header line that is refused is dropped, and the request goes on behind
it: `finishes_headers` says how it is brought to `onRequest`. -/

namespace Cppim.Http.HttpServer

open Cppim.Common Cppim.Lib Cppim.Lib.Cut Cppim.Lib.Loop Cppim.Lib.Framing
open Cppim.Lib.Incremental HttpContext

/-! ## A refused request line -/

/-- A line that was refused once is not taken later. -/
theorem parseRequestLine_again {req req' : HttpRequest} {line : Bytes}
    (h : parseRequestLine req line = .ok (false, req')) (r : HttpRequest) :
    parseRequestLine req' line ≠ .ok (true, r) := by
  unfold parseRequestLine at h ⊢
  cases hcut : cut [space] line with
  | none => simp
  | some q =>
    obtain ⟨method, rest⟩ := q
    simp only [hcut] at h ⊢
    by_cases hreq : req.method_ = .kInvalid
    · by_cases hm : HttpRequest.methodOf method = .kInvalid
      · -- no method is stored
        simp only [setMethod_ok hreq, ok_bind, hm] at h
        cases h
        rw [setMethod_ok rfl]
        simp [hm]
      · -- a method is stored, so that the assertion fails
        have hmethod : req'.method_ = HttpRequest.methodOf method := by
          simp only [setMethod_ok hreq, ok_bind, ne_eq, hm, not_false_eq_true, decide_true,
            ↓reduceIte] at h
          split at h
          · cases h
            rfl
          · rename_i target version _
            have heq : (setVersionFrom (setTarget
                { req with method_ := HttpRequest.methodOf method } target) version).2 = req' :=
              congrArg Prod.snd (Except.ok.inj h)
            rw [← heq, setVersionFrom_method, setTarget_method]
        simp [HttpRequest.setMethod, assert, hmethod, hm]
    · simp [HttpRequest.setMethod, assert, hreq] at h

/-- The line in front will not be taken as a request line. -/
def Stuck (p : HttpContext × Bytes) : Prop :=
  p.1.state_ = .kExpectRequestLine ∧ ∃ line rest, cut Buffer.kCRLF p.2 = some (line, rest) ∧
    ∀ req, parseRequestLine p.1.request_ line ≠ .ok (true, req)

theorem Stuck.call {p : HttpContext × Bytes} (h : Stuck p) (chunk : Bytes) :
    (∃ e, readMessage (more chunk p) = .fault [] e) ∨
      ∃ q, readMessage (more chunk p) = .done [.send badRequest] q ∧ Stuck q := by
  obtain ⟨⟨state, req⟩, unread⟩ := p
  obtain ⟨hstate, line, rest, hcut, hno⟩ := h
  simp only at hstate hcut hno
  subst hstate
  have hmore : cut Buffer.kCRLF (unread ++ chunk) = some (line, rest ++ chunk) :=
    cut_append hcut chunk
  cases hparse : parseRequestLine req line with
  | error e =>
    have hturn : readTurn (more chunk (⟨.kExpectRequestLine, req⟩, unread)) = .fault e := by
      simp only [more, readTurn, hmore, hparse]
    refine Or.inl ⟨e, ?_⟩
    rw [readMessage, readRequest, drain, run_fault hturn]
    rfl
  | ok result =>
    obtain ⟨ok, req'⟩ := result
    cases ok with
    | true => exact absurd hparse (hno req')
    | false =>
      exact Or.inr ⟨_, readMessage_badLine hmore hparse, rfl, line, rest ++ chunk, hmore,
        parseRequestLine_again hparse⟩

/-- Nothing is handed over any more. -/
theorem Stuck.session {p : HttpContext × Bytes} (h : Stuck p) (ds : List Bytes)
    (r : HttpRequest) : .onRequest r ∉ (readSession p ds).out := by
  induction ds generalizing p with
  | nil => simp [readSession, feed, Outcome.out]
  | cons c ds ih =>
    rcases h.call c with ⟨e, hfault⟩ | ⟨q, hdone, hq⟩
    · simp [readSession, feed, hfault, Outcome.out]
    · rw [readSession_cons hdone]
      simp [ih hq]

/-! ## A refused header line -/

/-- The same request, further on: the request line and the header fields that were stored
are in it. -/
structure Continues (req r : HttpRequest) : Prop where
  method : r.method_ = req.method_
  version : r.version_ = req.version_
  path : r.path_ = req.path_
  query : r.query_ = req.query_
  querys : r.querys_ = req.querys_
  headers : ∀ field, field ∈ req.headers_ → field ∈ r.headers_

namespace Continues

theorem refl (req : HttpRequest) : Continues req req := ⟨rfl, rfl, rfl, rfl, rfl, fun _ h => h⟩

theorem trans {req r r' : HttpRequest} (h : Continues req r) (h' : Continues r r') :
    Continues req r' where
  method := h'.method.trans h.method
  version := h'.version.trans h.version
  path := h'.path.trans h.path
  query := h'.query.trans h.query
  querys := h'.querys.trans h.querys
  headers := fun field hf => h'.headers field (h.headers field hf)

theorem setBody (req : HttpRequest) (body : Bytes) : Continues req (req.setBody body) :=
  ⟨rfl, rfl, rfl, rfl, rfl, fun _ h => h⟩

theorem parseHeaderLine {ctx ctx' : HttpContext} {line : Bytes} {ok : Bool}
    (h : parseHeaderLine ctx line = (ok, ctx')) : Continues ctx.request_ ctx'.request_ := by
  unfold HttpContext.parseHeaderLine at h
  split at h
  · cases h
    refine ⟨rfl, rfl, rfl, rfl, rfl, fun field hf => ?_⟩
    exact Std.ExtTreeMap.mem_insert.mpr (Or.inr hf)
  · split at h <;> cases h <;> exact refl _

end Continues

/-- More chunks bring a request to `onRequest`: one call gets all of it, or does not and
leaves a state from which it is brought there. -/
inductive Finishes : HttpContext × Bytes → HttpRequest → Prop
  | got {p : HttpContext × Bytes} {r : HttpRequest} {rest : Bytes} (c : Bytes) :
      Ends readTurn (more c p) [true] (⟨.kGotAll, r⟩, rest) → Finishes p r
  | call {p q : HttpContext × Bytes} {r : HttpRequest} {ok : Bool} (c : Bytes) :
      Ends readTurn (more c p) [ok] q → q.1.gotAll = false → Finishes q r → Finishes p r

namespace Finishes

/-- A turn that goes on comes to the same. -/
theorem of_again {p p' : HttpContext × Bytes} {r : HttpRequest}
    (hturn : readTurn p = .again [] p') (h : Finishes p' r) : Finishes p r := by
  have hmore (c : Bytes) : readTurn (more c p) = .again [] (more c p') := by
    rcases readTurn_resumes p c with hw | hm
    · rw [hw] at hturn
      cases hturn
    · rw [hm, hturn]
      rfl
  cases h with
  | got c hends => exact .got c (.again (hmore c) hends)
  | call c hends hq hrest => exact .call c (.again (hmore c) hends) hq hrest

/-- The session that hands the request over, as the first one. -/
theorem session {p : HttpContext × Bytes} {r : HttpRequest} (h : Finishes p r) :
    ∃ cs o t, readSession p cs = .done (o ++ [.onRequest r]) t ∧ ∀ r', .onRequest r' ∉ o := by
  induction h with
  | @got p r rest c hends =>
    refine ⟨[c], [], (reset ⟨.kGotAll, r⟩, rest), ?_, by simp⟩
    rw [readSession_cons (readMessage_got hends)]
    rfl
  | @call p q r ok c hends hq _ ih =>
    obtain ⟨cs, o, t, hrun, ho⟩ := ih
    obtain ⟨ctx, unread⟩ := q
    have hcall : readMessage (more c p) =
        .done (if [ok] = [true] then [] else [.send badRequest]) (ctx, unread) := by
      rw [readMessage, (readRequest_done_iff _ _ _).mpr hends]
      simp only [answer, hq]
      rfl
    refine ⟨c :: cs, (if [ok] = [true] then [] else [.send badRequest]) ++ o, t, ?_, ?_⟩
    · rw [readSession_cons hcall, hrun]
      simp [Outcome.emit]
    · intro r'
      cases ok <;> simp [ho r']

end Finishes

/-- A body is completed by more bytes than it has. -/
theorem finishes_body (req : HttpRequest) (u : Bytes) :
    ∃ r, Finishes (⟨.kExpectBody, req⟩, u) r ∧ Continues req r := by
  have hread := read_readTurn
    (more (List.replicate ((contentLength req).toNat + 1) 0) (⟨.kExpectBody, req⟩, u))
  generalize hx : readTurn _ = x at hread
  cases hread with
  | noBody _ => exact ⟨req, .got _ (.leave hx), Continues.refl req⟩
  | body _ _ => exact ⟨_, .got _ (.leave hx), Continues.setBody req _⟩
  | shortBody _ hshort =>
    rw [List.length_append, List.length_replicate] at hshort
    omega
  | noLine hstate _ => simp at hstate

/-- The empty line behind the headers. -/
theorem finishes_blank (req : HttpRequest) :
    ∃ r, Finishes (⟨.kExpectHeaders, req⟩, []) r ∧ Continues req r := by
  have hline : readTurn (more Buffer.kCRLF (⟨.kExpectHeaders, req⟩, [])) =
      .again [] (⟨.kExpectBody, req⟩, []) := rfl
  by_cases hpos : 0 < contentLength req
  · obtain ⟨r, hr, hreq⟩ := finishes_body req []
    have hshort : readTurn (⟨.kExpectBody, req⟩, []) = .leave [true] (⟨.kExpectBody, req⟩, []) := by
      have hle : ¬ contentLength req ≤ (([] : Bytes).length : Int) := by simpa using hpos
      simp only [readTurn, hpos, hle, ↓reduceIte]
    exact ⟨r, .call _ (.again hline (.leave hshort)) rfl hr, hreq⟩
  · have hnone : readTurn (⟨.kExpectBody, req⟩, []) = .leave [true] (⟨.kGotAll, req⟩, []) := by
      simp only [readTurn, hpos, ↓reduceIte]
    exact ⟨req, .got _ (.again hline (.leave hnone)), Continues.refl req⟩

/-- A header line keeps the parser among the headers unless it is empty. -/
theorem parseHeaderLine_cases {req : HttpRequest} {line : Bytes} {ok : Bool} {ctx : HttpContext}
    (h : parseHeaderLine ⟨.kExpectHeaders, req⟩ line = (ok, ctx)) :
    line = [] ∧ ok = true ∧ ctx = ⟨.kExpectBody, req⟩ ∨
      line ≠ [] ∧ ctx.state_ = .kExpectHeaders := by
  unfold parseHeaderLine at h
  split at h
  · rename_i field text hcut
    cases h
    refine Or.inr ⟨?_, rfl⟩
    rintro rfl
    simp [cut] at hcut
  · split at h
    · rename_i hline
      cases h
      exact Or.inl ⟨hline, rfl, rfl⟩
    · rename_i hline
      cases h
      exact Or.inr ⟨hline, rfl⟩

/-- The end of a line arrives, then the empty line. -/
theorem finishes_cut_line (req : HttpRequest) (u : Bytes) (hcut : cut Buffer.kCRLF u = none)
    (hu : u ≠ []) : ∃ r, Finishes (⟨.kExpectHeaders, req⟩, u) r ∧ Continues req r := by
  have hline : cut Buffer.kCRLF (u ++ Buffer.kCRLF) = some (u, []) := cut_pair (by decide) hcut
  rcases hp : parseHeaderLine ⟨.kExpectHeaders, req⟩ u with ⟨ok, ctx⟩
  have hreq := Continues.parseHeaderLine hp
  obtain ⟨-, hctx⟩ := (parseHeaderLine_cases hp).resolve_left fun h => hu h.1
  obtain ⟨state, req'⟩ := ctx
  obtain rfl : state = .kExpectHeaders := hctx
  obtain ⟨r, hr, hreq'⟩ := finishes_blank req'
  have hends : Ends readTurn (more Buffer.kCRLF (⟨.kExpectHeaders, req⟩, u)) [ok]
      (⟨.kExpectHeaders, req'⟩, []) := by
    cases ok with
    | true =>
      have hnext : readTurn (more Buffer.kCRLF (⟨.kExpectHeaders, req⟩, u)) =
          .again [] (⟨.kExpectHeaders, req'⟩, []) := by
        simp only [more, readTurn, hline, hp]
      exact .again hnext (.leave rfl)
    | false => exact .leave (by simp only [more, readTurn, hline, hp])
  exact ⟨r, .call Buffer.kCRLF hends rfl hr, hreq.trans hreq'⟩

/-- **Behind the request line** every request can be brought to its end. -/
theorem finishes_headers (n : Nat) (req : HttpRequest) (u : Bytes) (hn : u.length < n) :
    ∃ r, Finishes (⟨.kExpectHeaders, req⟩, u) r ∧ Continues req r := by
  induction n generalizing req u with
  | zero => omega
  | succ n ih =>
    cases hcut : cut Buffer.kCRLF u with
    | some q =>
      obtain ⟨line, rest⟩ := q
      have hlen : rest.length + 2 + line.length = u.length := by
        rw [eq_of_cut hcut]
        simp [Buffer.kCRLF, bytes]
        omega
      rcases hp : parseHeaderLine ⟨.kExpectHeaders, req⟩ line with ⟨ok, ctx⟩
      have hreq := Continues.parseHeaderLine hp
      rcases parseHeaderLine_cases hp with ⟨rfl, rfl, rfl⟩ | ⟨hline, hctx⟩
      · obtain ⟨r, hr, hreq'⟩ := finishes_body req rest
        refine ⟨r, hr.of_again ?_, hreq'⟩
        simp only [readTurn, hcut, hp]
      · obtain ⟨state, req'⟩ := ctx
        obtain rfl : state = .kExpectHeaders := hctx
        cases ok with
        | true =>
          obtain ⟨r, hr, hreq'⟩ := ih req' rest (by omega)
          refine ⟨r, hr.of_again ?_, hreq.trans hreq'⟩
          simp only [readTurn, hcut, hp]
        | false =>
          -- the line is dropped; the next chunk finds the parser behind it
          have hpos : 0 < line.length := List.length_pos_iff.mpr hline
          obtain ⟨r, hr, hreq'⟩ := ih req' (rest ++ [0]) (by simp; omega)
          have hdrop : readTurn (more [0] (⟨.kExpectHeaders, req⟩, u)) =
              .leave [false] (⟨.kExpectHeaders, req'⟩, rest ++ [0]) := by
            simp only [more, readTurn, cut_append hcut, hp]
          exact ⟨r, .call [0] (.leave hdrop) rfl hr, hreq.trans hreq'⟩
    | none =>
      by_cases hu : u = []
      · subst hu
        exact finishes_blank req
      · exact finishes_cut_line req u hcut hu

/-! ## A call that answers 400 -/

/-- Where the loop stands when it is left with false. -/
theorem ends_refused {p t : HttpContext × Bytes} (h : Ends readTurn p [false] t) :
    Stuck t ∨ t.1.state_ = .kExpectHeaders := by
  generalize ho : [false] = o at h
  induction h with
  | leave ht =>
    subst ho
    cases read_of_eq ht with
    | badRequestLine hcut hparse =>
      exact Or.inl ⟨rfl, _, _, hcut, parseRequestLine_again hparse⟩
    | badHeader _ hline =>
      rcases parseHeaderLine_cases hline with ⟨-, hok, -⟩ | ⟨-, hstate⟩
      · cases hok
      · exact Or.inr hstate
  | again ht _ ih =>
    rw [readTurn_again_out ht] at ho
    exact ih ho

theorem readMessage_refused {p q : HttpContext × Bytes} {o : List Event}
    (h : readMessage p = .done o q) (hbad : .send badRequest ∈ o) :
    Stuck q ∨ q.1.state_ = .kExpectHeaders := by
  unfold readMessage at h
  cases hr : readRequest p with
  | done ok t =>
    obtain ⟨ctx, unread⟩ := t
    have hends := (readRequest_done_iff _ _ _).mp hr
    obtain ⟨b, rfl⟩ := readTurn_ends_one hends
    rw [hr] at h
    cases b with
    | true =>
      by_cases hg : ctx.gotAll = true
      · simp only [answer, hg, ↓reduceIte, Outcome.done.injEq] at h
        simp [← h.1] at hbad
      · simp only [answer, hg, ↓reduceIte] at h
        cases h
        simp at hbad
    | false =>
      have hwhere := ends_refused hends
      have hg : ctx.gotAll = false := by
        rcases hwhere with ⟨hs, -⟩ | hs
        · simp [gotAll, show ctx.state_ = .kExpectRequestLine from hs]
        · simp [gotAll, show ctx.state_ = .kExpectHeaders from hs]
      simp [answer, hg] at h
      rw [← h.2]
      exact hwhere
  | fault ok e => simp [hr, answer] at h
  | spin ok t => simp [hr, answer] at h

/-! ## Whether the request is executed -/

/-- Whatever arrives later, the request in the context is not the next one that is handed
to `onRequest`. -/
def NeverExecuted (s : HttpContext × Buffer) : Prop :=
  ∀ ds before r after, (session s ds).out = before ++ .onRequest r :: after →
    (∀ r', .onRequest r' ∉ before) → ¬ Continues s.1.request_ r

/-- **A request that was answered by 400.** It is never handed to `onRequest` if and only
if the line that was refused is the request line. -/
theorem rejected_never_executed_iff (s s' : HttpContext × Buffer) (chunk : Bytes)
    (o : List Event) (hcall : arrive onMessage receive s chunk = .done o s')
    (hbad : .send badRequest ∈ o) :
    NeverExecuted s' ↔ s'.1.state_ = .kExpectRequestLine := by
  have hread : readMessage (more chunk (view s)) = .done o (view s') := by
    rw [← arrive_view, hcall]
    rfl
  have hout (ds : List Bytes) : (session s' ds).out = (readSession (view s') ds).out := by
    rw [← session_view, out_map]
  constructor
  · intro hnever
    rcases readMessage_refused hread hbad with hstuck | hheaders
    · exact hstuck.1
    · obtain ⟨⟨state, req⟩, buf⟩ := s'
      obtain rfl : state = .kExpectHeaders := hheaders
      obtain ⟨r, hr, hreq⟩ := finishes_headers _ req buf.readable (Nat.lt_succ_self _)
      obtain ⟨cs, before, t, hrun, hfirst⟩ := hr.session
      refine absurd hreq (hnever cs before r [] ?_ hfirst)
      rw [hout, view, hrun]
      rfl
  · intro hstate ds before r after hds _ _
    rcases readMessage_refused hread hbad with hstuck | hheaders
    · apply hstuck.session ds r
      rw [← hout, hds]
      simp
    · cases hstate.symm.trans hheaders

theorem rejected_never_executed_iff_line :
    ∃ s', arrive onMessage receive ({}, Buffer.ofSize kInitialSize) (bytes "x\r\n") =
        .done [.send badRequest] s' ∧ s'.1.state_ = .kExpectRequestLine ∧ NeverExecuted s' := by
  have hview : (arrive onMessage receive ({}, Buffer.ofSize kInitialSize) (bytes "x\r\n")).map
      view = .done [.send badRequest] ({}, bytes "x\r\n") := by
    rw [arrive_view]
    decide +kernel
  obtain ⟨s', hcall, hs'⟩ := map_eq_done hview
  have hstate : s'.1.state_ = .kExpectRequestLine := by
    rw [show s'.1 = {} from congrArg Prod.fst hs']
  exact ⟨s', hcall, hstate,
    (rejected_never_executed_iff _ s' _ _ hcall (by simp)).mpr hstate⟩

/-- A header line without a colon is answered by 400; the next byte has the request
handed to `onRequest`, with the header that came before. -/
theorem executed_after_bad_header :
    (session ({}, Buffer.ofSize kInitialSize)
      [bytes "GET /a HTTP/1.1\r\nHost:b\r\nbad\r\n\r\n"]).out = [.send badRequest] ∧
    (session ({}, Buffer.ofSize kInitialSize)
      [bytes "GET /a HTTP/1.1\r\nHost:b\r\nbad\r\n\r\n", bytes "x"]).out =
      [.send badRequest, .onRequest
        { method_ := .kGet, version_ := .kHttp11, path_ := bytes "/a",
          headers_ := Std.ExtTreeMap.ofList [(bytes "Host", bytes "b")] }] := by
  refine ⟨?_, ?_⟩ <;> decide +kernel

end Cppim.Http.HttpServer
