import Cppim.Http.Isolation

/-! Several requests on one connection, sent without waiting for the answers.

`onMessage` parses one request for each chunk that arrives and leaves the rest of
the buffer to the next chunk. `pipelined_dispatched_iff` says which ways of cutting
a sequence of requests into chunks get all of them dispatched. -/

namespace Cppim.Http.HttpServer

open Cppim.Common Cppim.Lib Cppim.Lib.Cut Cppim.Lib.Loop Cppim.Lib.Framing
open Cppim.Lib.Incremental HttpContext

/-! ## How far a call reads -/

theorem readTurn_leave_unread {p t : HttpContext × Bytes} {o : List Bool}
    (h : readTurn p = .leave o t) : t.2.length ≤ p.2.length := by
  cases read_of_eq h with
  | badHeader hcut _ => exact Nat.le_of_lt (length_lt_of_line hcut)
  | body _ _ => simp
  | noLine _ _ => exact Nat.le_refl _
  | badRequestLine _ _ => exact Nat.le_refl _
  | noBody _ => exact Nat.le_refl _
  | shortBody _ _ => exact Nat.le_refl _

theorem ends_unread_le {p t : HttpContext × Bytes} {o : List Bool} (h : Ends readTurn p o t) :
    t.2.length ≤ p.2.length := by
  induction h with
  | leave hp => exact readTurn_leave_unread hp
  | again hp _ ih =>
    rcases readTurn_progress _ _ _ hp with hlt | rfl
    · omega
    · exact ih

/-- The input that a waiting turn lacked is read when more is there. -/
theorem unread_lt_of_turn {p t : HttpContext × Bytes} (hwait : readTurn p = .leave [true] p)
    {ys : Bytes} (hmore : readTurn (more ys p) = .again [] t ∨
      readTurn (more ys p) = .leave [true] t ∧ t.1.gotAll = true) : t.2.length < ys.length := by
  cases read_of_eq hwait with
  | @noLine ctx u hstate hnone =>
    have hlate {line rest : Bytes} (h : cut Buffer.kCRLF (u ++ ys) = some (line, rest)) :
        rest.length < ys.length := cut_late hnone h
    rcases hmore with ht | ⟨ht, hgot⟩
    · cases read_of_eq ht with
      | requestLine hcut _ => exact hlate hcut
      | header hcut _ => exact hlate hcut
      | gotAll => simp at hstate
    · cases read_of_eq ht with
      | noLine _ _ =>
        rcases hstate with hs | hs <;> simp [HttpContext.gotAll, hs] at hgot
      | noBody _ => simp at hstate
      | body _ _ => simp at hstate
      | shortBody _ _ => simp at hstate
  | @shortBody req u hpos hshort =>
    rcases hmore with ht | ⟨ht, hgot⟩
    · cases read_of_eq ht
    · cases read_of_eq ht with
      | noLine hstate _ => simp at hstate
      | noBody hn => exact absurd hpos hn
      | body _ hle =>
        have hle' : contentLength req ≤ (u ++ ys).length := hle
        show ((u ++ ys).drop (contentLength req).toNat).length < ys.length
        rw [List.length_append] at hle'
        rw [List.length_drop, List.length_append]
        omega
      | shortBody _ _ => cases hgot

/-- A call that has to wait for a request reads into what comes later before it has
got it. -/
theorem unread_lt_of_wait {p : HttpContext × Bytes} (hwait : readTurn p = .leave [true] p)
    {ys unread : Bytes} {req : HttpRequest}
    (h : Ends readTurn (more ys p) [true] (⟨.kGotAll, req⟩, unread)) :
    unread.length < ys.length := by
  generalize ho : [true] = o at h
  cases h with
  | leave ht => exact unread_lt_of_turn hwait (Or.inr ⟨ho ▸ ht, rfl⟩)
  | again ht hrest =>
    obtain rfl := readTurn_again_out ht
    exact (ends_unread_le hrest).trans_lt (unread_lt_of_turn hwait (Or.inl ht))

/-! ## Chunks and requests -/

/-- The length of the last `k` byte strings. -/
def lengthOfLast (k : Nat) (xs : List Bytes) : Nat := (xs.drop (xs.length - k)).flatten.length

theorem lengthOfLast_cons {k : Nat} {x : Bytes} {xs : List Bytes} (h : k ≤ xs.length) :
    lengthOfLast k (x :: xs) = lengthOfLast k xs := by
  have hsucc : (x :: xs).length - k = xs.length - k + 1 := by
    rw [List.length_cons]
    omega
  rw [lengthOfLast, hsucc, List.drop_succ_cons]
  rfl

theorem lengthOfLast_le (k : Nat) (xs : List Bytes) : lengthOfLast k xs ≤ xs.flatten.length := by
  have hsplit := congrArg (fun l => l.flatten.length) (List.take_append_drop (xs.length - k) xs)
  simp only [List.flatten_append, List.length_append] at hsplit
  rw [lengthOfLast]
  omega

@[simp] theorem lengthOfLast_length (xs : List Bytes) :
    lengthOfLast xs.length xs = xs.flatten.length := by
  simp [lengthOfLast]

/-- The chunks `cs` keep up with the requests `ws`: for each number of requests, the
last chunks of that number hold no more than these requests. A chunk that completes
a request then has at least as many chunks behind it as the request has requests. -/
def KeepsUp (ws cs : List Bytes) : Prop :=
  ∀ k < ws.length, k < cs.length ∧ lengthOfLast k cs ≤ lengthOfLast k ws

/-- A chunk that completes a request takes it out of the count. -/
theorem keepsUp_cons_of_le {w c : Bytes} {ws cs : List Bytes}
    (h : cs.flatten.length ≤ ws.flatten.length) :
    KeepsUp (w :: ws) (c :: cs) ↔ KeepsUp ws cs := by
  constructor
  · intro hk k hlt
    have hnext := (hk (k + 1) (by simpa using hlt)).1
    have hcs : k < cs.length := by simpa using hnext
    refine ⟨hcs, ?_⟩
    have hlen := (hk k (by rw [List.length_cons]; omega)).2
    rwa [lengthOfLast_cons (by omega), lengthOfLast_cons (by omega)] at hlen
  · intro hk k hlt
    have hle : k ≤ ws.length := by simpa [Nat.lt_succ_iff] using hlt
    rcases Nat.lt_or_eq_of_le hle with hws | rfl
    · obtain ⟨hcs, hlen⟩ := hk k hws
      rw [lengthOfLast_cons (by omega), lengthOfLast_cons (by omega)]
      exact ⟨by rw [List.length_cons]; omega, hlen⟩
    · -- all the other requests: they are no shorter than the other chunks
      have hcs : ws.length ≤ cs.length := by
        cases hn : ws.length with
        | zero => omega
        | succ n => exact (hk n (by omega)).1
      rw [lengthOfLast_cons hcs, lengthOfLast_cons (Nat.le_refl _), lengthOfLast_length]
      exact ⟨by rw [List.length_cons]; omega, (lengthOfLast_le _ _).trans h⟩

/-- A chunk that completes no request does not count. -/
theorem keepsUp_cons_of_lt {w c : Bytes} {ws cs : List Bytes}
    (h : ws.flatten.length < cs.flatten.length) :
    KeepsUp (w :: ws) (c :: cs) ↔ KeepsUp (w :: ws) cs := by
  constructor
  · intro hk k hlt
    obtain ⟨hcs, hlen⟩ := hk k hlt
    have hle : k ≤ cs.length := by simpa [Nat.lt_succ_iff] using hcs
    rw [lengthOfLast_cons hle] at hlen
    refine ⟨Nat.lt_of_le_of_ne hle fun heq => ?_, hlen⟩
    rw [lengthOfLast_cons (by simpa [Nat.lt_succ_iff] using hlt), heq, lengthOfLast_length] at hlen
    have := lengthOfLast_le cs.length ws
    omega
  · intro hk k hlt
    obtain ⟨hcs, hlen⟩ := hk k hlt
    rw [lengthOfLast_cons (by omega)]
    exact ⟨by rw [List.length_cons]; omega, hlen⟩

/-! ## The session -/

/-- A session that has the bytes `r` still to come hands over `reqs`: from `p` on
the parser gets the first request and leaves the bytes `ws` of the others. -/
def Serves (old : HttpRequest) (p : HttpContext × Bytes) (r : Bytes) :
    List Bytes → List HttpRequest → Prop
  | _ :: ws, req :: _ => Ends readTurn (more r p) [true] (⟨.kGotAll, overlay old req⟩, ws.flatten)
  | _, _ => more r p = onLeftover old ({}, [])

/-- A context that has just been reset serves the requests that are buffered and to
come. -/
theorem serves_reset {ws : List Bytes} {reqs : List HttpRequest}
    (h : List.Forall₂ (fun w req => parseAlone w = some req) ws reqs) (old : HttpRequest)
    {u r : Bytes} (hu : u ++ r = ws.flatten) : Serves old (onLeftover old ({}, u)) r ws reqs := by
  have hmore : more r (onLeftover old ({}, u)) = onLeftover old ({}, ws.flatten) := by
    simp only [more, onLeftover, hu]
  cases h with
  | nil => exact hmore
  | @cons w req ws reqs hreq _ =>
    have halone := ends_of_less readTurn_resumes (ends_overlay old (ends_of_parseAlone hreq))
      (by simp [onLeftover, readTurn]) ws.flatten
    simp only [Serves, hmore]
    exact halone

theorem reset_unread (req : HttpRequest) (u : Bytes) :
    (reset ⟨.kGotAll, req⟩, u) = onLeftover req ({}, u) :=
  congrArg (fun p => (p.1, u)) (reset_eq ⟨.kGotAll, req⟩)

/-- **Which requests a session hands over.** The first ones, in order, each over the
leftover of the one before; all of them exactly when the chunks keep up. -/
theorem readSession_pipelined (cs : List Bytes) (ws : List Bytes) (reqs : List HttpRequest)
    (h : List.Forall₂ (fun w req => parseAlone w = some req) ws reqs) (old : HttpRequest)
    (p : HttpContext × Bytes) (hserves : Serves old p cs.flatten ws reqs) :
    ∃ ds q, readSession p cs = .done (ds.map .onRequest) q ∧ ds <+: dispatched old reqs ∧
      (ds = dispatched old reqs ↔ KeepsUp ws cs) := by
  induction cs generalizing ws reqs old p with
  | nil =>
    refine ⟨[], p, rfl, List.nil_prefix, ?_⟩
    cases h with
    | nil => simp [dispatched, KeepsUp]
    | cons =>
      refine iff_of_false (by simp [dispatched]) fun hk => ?_
      exact Nat.not_lt_zero 0 (hk 0 (by simp)).1
  | cons c cs ih =>
    cases h with
    | nil =>
      -- nothing is left to serve, so the chunks are empty
      simp only [Serves, more, onLeftover, Prod.mk.injEq, List.append_eq_nil_iff] at hserves
      obtain ⟨hctx, hunread, hcs⟩ := hserves
      obtain ⟨ctx, unread⟩ := p
      simp only at hctx hunread
      subst hctx hunread
      refine ⟨[], _, readSession_idle _ rfl _ hcs, List.nil_prefix, ?_⟩
      simp [dispatched, KeepsUp]
    | @cons w req ws reqs hreq hrest =>
      simp only [Serves, List.flatten_cons] at hserves
      rw [← more_more] at hserves
      rcases ends_more readTurn_resumes hserves with
        ⟨⟨ctx, u⟩, he, ht⟩ | ⟨o₁, o₂, q, ho, he, hq, hgo⟩
      · -- the chunk completes the request
        simp only [more, Prod.mk.injEq] at ht
        obtain ⟨rfl, hu⟩ := ht
        have hserves' := serves_reset hrest (overlay old req) hu.symm
        obtain ⟨ds, q, hds, hpre, hiff⟩ := ih ws reqs hrest _ _ hserves'
        have hle : cs.flatten.length ≤ ws.flatten.length := by
          rw [hu, List.length_append]
          omega
        refine ⟨overlay old req :: ds, q, ?_, ?_, ?_⟩
        · rw [readSession_cons (readMessage_got he), reset_unread, hds]
          rfl
        · exact (List.prefix_cons_inj _).mpr hpre
        · rw [keepsUp_cons_of_le hle, dispatched, List.cons.injEq]
          simpa using hiff
      · -- the request goes on in the next chunk
        obtain rfl := eq_nil_of_ends_append he
        rw [List.nil_append] at he ho
        subst ho
        obtain ⟨ctx, u⟩ := q
        have hlt := unread_lt_of_wait hq hgo
        obtain ⟨ds, q, hds, hpre, hiff⟩ := ih (w :: ws) (req :: reqs) (.cons hreq hrest) old _ hgo
        refine ⟨ds, q, ?_, hpre, ?_⟩
        · rw [readSession_cons (readMessage_wait he (not_gotAll_of_wait hq)), hds]
          rfl
        · rw [keepsUp_cons_of_lt hlt]
          exact hiff

/-- What a request is for. -/
def methodAndPath (req : HttpRequest) : Method × Bytes := (req.method_, req.path_)

/-- The leftover of other requests touches neither method nor path. -/
theorem dispatched_methodAndPath (old : HttpRequest) (reqs : List HttpRequest) :
    (dispatched old reqs).map methodAndPath = reqs.map methodAndPath := by
  induction reqs generalizing old with
  | nil => rfl
  | cons req reqs ih =>
    rw [dispatched, List.map_cons, List.map_cons, ih]
    rfl

/-- **Pipelined requests.** The requests `ws` arrive one behind the other in the
chunks `cs`. What the session has handed over after the last chunk are the first
of them, in order and with their own method and path; it is all of them exactly
when the chunks keep up with the requests. -/
theorem pipelined_dispatched_iff (ws : List Bytes) (reqs : List HttpRequest)
    (h : List.Forall₂ (fun w req => parseAlone w = some req) ws reqs)
    (cs : List Bytes) (hcs : cs.flatten = ws.flatten) (buf : Buffer) (hbuf : buf.readable = []) :
    ∃ (ds : List HttpRequest) (s : HttpContext × Buffer),
      session ({}, buf) cs = .done (ds.map .onRequest) s ∧
      ds.map methodAndPath <+: reqs.map methodAndPath ∧
      (ds.map methodAndPath = reqs.map methodAndPath ↔ KeepsUp ws cs) := by
  have hfresh : view (({} : HttpContext), buf) = onLeftover {} ({}, []) := by
    simp only [view, onLeftover, overlay_empty, hbuf]
  have hserves := serves_reset h {} (u := []) hcs
  obtain ⟨ds, p, hds, hpre, hiff⟩ := readSession_pipelined cs ws reqs h {} _ hserves
  rw [← hfresh, ← session_view] at hds
  obtain ⟨s, hs, -⟩ := map_eq_done hds
  refine ⟨ds, s, hs, ?_, ?_⟩
  · rw [← dispatched_methodAndPath {} reqs]
    exact hpre.map methodAndPath
  · rw [← hiff]
    constructor
    · intro heq
      have hlen := congrArg List.length heq
      exact hpre.eq_of_length (by simpa [dispatched_length] using hlen)
    · intro heq
      rw [heq, dispatched_methodAndPath]

/-- Two requests, the first cut in its line end. -/
theorem pipelined_dispatched_iff_two_chunks :
    List.Forall₂ (fun w req => parseAlone w = some req) [getX "1", getX "2"]
      [requestX "1", requestX "2"] ∧
    ∃ (ds : List HttpRequest) (s : HttpContext × Buffer), session ({}, Buffer.ofSize 16)
        [bytes "GET /a?x=1 HTTP/1.1\r\n\r", bytes "\nGET /a?x=2 HTTP/1.1\r\n\r\n"] =
        .done (ds.map .onRequest) s ∧
      ds.map methodAndPath <+: [requestX "1", requestX "2"].map methodAndPath ∧
      (ds.map methodAndPath = [requestX "1", requestX "2"].map methodAndPath ↔
        KeepsUp [getX "1", getX "2"]
          [bytes "GET /a?x=1 HTTP/1.1\r\n\r", bytes "\nGET /a?x=2 HTTP/1.1\r\n\r\n"]) := by
  have h : List.Forall₂ (fun w req => parseAlone w = some req) [getX "1", getX "2"]
      [requestX "1", requestX "2"] :=
    .cons (by decide +kernel) (.cons (by decide +kernel) .nil)
  exact ⟨h, pipelined_dispatched_iff _ _ h _ (by decide) (Buffer.ofSize 16)
    (Buffer.readable_ofSize 16)⟩

/-- Of two requests that arrive together only the first is handed over. -/
theorem second_request_of_chunk_waits :
    parseAlone (getX "1") = some (requestX "1") ∧ parseAlone (getX "2") = some (requestX "2") ∧
    (session ({}, Buffer.ofSize kInitialSize) [getX "1" ++ getX "2"]).out =
      [.onRequest (requestX "1")] := by
  refine ⟨?_, ?_, ?_⟩ <;> decide +kernel

end Cppim.Http.HttpServer
