import Cppim.Http.Server
import Cppim.Lib.Transition

/-! Request lines that `parseRequestLine` refuses.

The line stays in the buffer and is parsed again when the next chunk arrives. By
then a line that names a method has stored it in the request, and the `assert` of
`setMethod` fails. `session_asserts_iff` says on which chunks this happens; on all
others every call of `onMessage` returns. -/

namespace Cppim.Http.HttpServer

open Cppim.Common Cppim.Lib Cppim.Lib.Cut Cppim.Lib.Loop Cppim.Lib.Framing
open Cppim.Lib.Incremental Cppim.Lib.Transition HttpContext

/-! ## One line -/

/-- The text behind the target of a request line. -/
def IsVersion (text : Bytes) : Prop := text = bytes "HTTP/1.0" ∨ text = bytes "HTTP/1.1"

instance (text : Bytes) : Decidable (IsVersion text) := inferInstanceAs (Decidable (_ ∨ _))

/-- A line that starts with a method and a space and is no request line. -/
def HalfLine (line : Bytes) : Prop :=
  ∃ method rest, cut [space] line = some (method, rest) ∧
    HttpRequest.methodOf method ≠ .kInvalid ∧
    ∀ target text, cut [space] rest = some (target, text) → ¬ IsVersion text

theorem setVersionFrom_fst (req : HttpRequest) (text : Bytes) :
    (setVersionFrom req text).1 = true ↔ IsVersion text := by
  constructor
  · intro h
    unfold setVersionFrom at h
    split at h
    · rename_i hshape
      obtain ⟨last, hlast⟩ : ∃ last, text = bytes "HTTP/1." ++ [last] := by
        have hdrop : (text.drop 7).length = 1 := by simp [hshape.1]
        obtain ⟨last, hlast⟩ := List.length_eq_one_iff.mp hdrop
        exact ⟨last, by rw [← hshape.2, ← hlast, List.take_append_drop]⟩
      rw [hlast, List.getLast?_append_of_ne_nil _ (by simp)] at h
      rw [hlast]
      split at h
      · rename_i h1
        obtain rfl : last = 49 := by simpa using h1
        exact Or.inr rfl
      · split at h
        · rename_i h0
          obtain rfl : last = 48 := by simpa using h0
          exact Or.inl rfl
        · cases h
    · cases h
  · rintro (rfl | rfl) <;> rfl

theorem setVersionFrom_method (req : HttpRequest) (text : Bytes) :
    (setVersionFrom req text).2.method_ = req.method_ := by
  unfold setVersionFrom
  repeat' split
  all_goals rfl

theorem foldl_addParm_method (parms : List Bytes) (req : HttpRequest) :
    (parms.foldl addParm req).method_ = req.method_ := by
  induction parms generalizing req with
  | nil => rfl
  | cons parm parms ih =>
    rw [List.foldl_cons, ih]
    unfold addParm
    split <;> rfl

theorem setTarget_method (req : HttpRequest) (target : Bytes) :
    (setTarget req target).method_ = req.method_ := by
  unfold setTarget
  split
  · exact foldl_addParm_method _ _
  · rfl

theorem setMethod_ok {req : HttpRequest} (h : req.method_ = .kInvalid) (m : Bytes) :
    req.setMethod m = .ok (HttpRequest.methodOf m ≠ .kInvalid,
      { req with method_ := HttpRequest.methodOf m }) := by
  simp [HttpRequest.setMethod, h]

/-- A line that is refused leaves a method behind exactly if it is half a line. -/
theorem parseRequestLine_refused {req : HttpRequest} (h : req.method_ = .kInvalid) (line : Bytes) :
    ∃ ok req', parseRequestLine req line = .ok (ok, req') ∧
      (HalfLine line ↔ ok = false ∧ req'.method_ ≠ .kInvalid) := by
  unfold parseRequestLine
  cases hcut : cut [space] line with
  | none =>
    refine ⟨false, req, rfl, iff_of_false ?_ (by simp [h])⟩
    rintro ⟨method, rest, hc, -⟩
    rw [hcut] at hc
    cases hc
  | some q =>
    obtain ⟨method, rest⟩ := q
    have hhalf : HalfLine line ↔ HttpRequest.methodOf method ≠ .kInvalid ∧
        ∀ target text, cut [space] rest = some (target, text) → ¬ IsVersion text := by
      simp [HalfLine, hcut]
    simp only [setMethod_ok h, ok_bind]
    by_cases hm : HttpRequest.methodOf method = .kInvalid
    · exact ⟨false, _, by simp [hm]; rfl, by simp [hhalf, hm]⟩
    · cases hrest : cut [space] rest with
      | none => exact ⟨false, _, by simp [hm]; rfl, by simp [hhalf, hm, hrest]⟩
      | some r =>
        obtain ⟨target, text⟩ := r
        have hfst := setVersionFrom_fst
          (setTarget { req with method_ := HttpRequest.methodOf method } target) text
        have hmethod : (setVersionFrom (setTarget
            { req with method_ := HttpRequest.methodOf method } target) text).2.method_ =
            HttpRequest.methodOf method := by
          rw [setVersionFrom_method, setTarget_method]
        generalize hv : setVersionFrom
          (setTarget { req with method_ := HttpRequest.methodOf method } target) text = v at *
        refine ⟨v.1, v.2, by simp [hm, hv], ?_⟩
        simp [hhalf, hm, hrest, hmethod, ← hfst]

/-! ## One call -/

/-- A context between two calls from which a request line can be parsed. -/
def Clean (ctx : HttpContext) : Prop :=
  ctx.state_ ≠ .kGotAll ∧ (ctx.state_ = .kExpectRequestLine → ctx.request_.method_ = .kInvalid)

/-- A context with a method already, and a line in front that will be parsed for
another one. -/
def Poisoned (p : HttpContext × Bytes) : Prop :=
  p.1.state_ = .kExpectRequestLine ∧ p.1.request_.method_ ≠ .kInvalid ∧
    ∃ line rest, cut Buffer.kCRLF p.2 = some (line, rest) ∧ cut [space] line ≠ none

/-- The chunk does not complete half a request line. -/
def Clear (p : HttpContext × Bytes) (chunk : Bytes) : Prop :=
  p.1.state_ = .kExpectRequestLine →
    ∀ line rest, cut Buffer.kCRLF (p.2 ++ chunk) = some (line, rest) → ¬ HalfLine line

theorem parseHeaderLine_state {req : HttpRequest} {line : Bytes} {ok : Bool} {ctx : HttpContext}
    (h : parseHeaderLine ⟨.kExpectHeaders, req⟩ line = (ok, ctx)) :
    ctx.state_ = .kExpectHeaders ∨ ctx.state_ = .kExpectBody := by
  unfold parseHeaderLine at h
  repeat' split at h
  all_goals cases h
  all_goals simp

/-- Behind the request line the loop always ends, and not in front of another one. -/
theorem ends_behind_line (n : Nat) (p : HttpContext × Bytes) (hn : p.2.length < n)
    (hp : p.1.state_ = .kExpectHeaders ∨ p.1.state_ = .kExpectBody) :
    ∃ ok t, Ends readTurn p [ok] t ∧ t.1.state_ ≠ .kExpectRequestLine := by
  induction n generalizing p with
  | zero => omega
  | succ n ih =>
    have hread := read_readTurn p
    generalize hx : readTurn p = x at hread
    cases hread with
    | noLine _ _ =>
      refine ⟨true, _, .leave hx, fun h => ?_⟩
      rcases hp with h' | h' <;> cases h.symm.trans h'
    | @header req ctx u line rest hcut hline =>
      have hlt : rest.length < n :=
        Nat.lt_of_lt_of_le (length_lt_of_line hcut) (Nat.lt_succ_iff.mp hn)
      obtain ⟨ok, t, hends, ht⟩ := ih (ctx, rest) hlt (parseHeaderLine_state hline)
      exact ⟨ok, t, .again hx hends, ht⟩
    | badHeader _ hline =>
      refine ⟨false, _, .leave hx, ?_⟩
      rcases parseHeaderLine_state hline with h | h <;> simp [h]
    | noBody _ => exact ⟨true, _, .leave hx, by simp⟩
    | body _ _ => exact ⟨true, _, .leave hx, by simp⟩
    | shortBody _ _ => exact ⟨true, _, .leave hx, by simp⟩
    | requestLine _ _ => simp at hp
    | badRequestLine _ _ => simp at hp
    | fault _ _ => simp at hp
    | gotAll => simp at hp

/-- A call that got behind a request line leaves a clean context. -/
theorem readMessage_behind {p t : HttpContext × Bytes} {ok : Bool} (h : Ends readTurn p [ok] t)
    (ht : t.1.state_ ≠ .kExpectRequestLine) : ∃ o q, readMessage p = .done o q ∧ Clean q.1 := by
  obtain ⟨ctx, unread⟩ := t
  rw [readMessage, (readRequest_done_iff _ _ _).mpr h]
  by_cases hg : ctx.gotAll = true
  · refine ⟨_, _, by simp only [answer, hg, ↓reduceIte]; rfl, ?_⟩
    exact ⟨by simp [reset], fun _ => rfl⟩
  · refine ⟨_, _, by simp only [answer, hg]; rfl, ?_⟩
    exact ⟨by simpa [gotAll] using hg, fun hs => absurd hs ht⟩

section Line

variable {req req' : HttpRequest} {unread chunk line rest : Bytes}

/-- A call that takes a request line goes on behind it. -/
theorem readMessage_line (hcut : cut Buffer.kCRLF (unread ++ chunk) = some (line, rest))
    (hparse : parseRequestLine req line = .ok (true, req')) :
    ∃ o q, readMessage (more chunk (⟨.kExpectRequestLine, req⟩, unread)) = .done o q ∧
      Clean q.1 := by
  have hagain : readTurn (more chunk (⟨.kExpectRequestLine, req⟩, unread)) =
      .again [] (⟨.kExpectHeaders, req'⟩, rest) := by
    simp only [more, readTurn, hcut, hparse]
  obtain ⟨ok, t, hends, ht⟩ := ends_behind_line _ (⟨.kExpectHeaders, req'⟩, rest)
    (Nat.lt_succ_self _) (Or.inl rfl)
  exact readMessage_behind (.again hagain hends) ht

/-- A call that refuses a request line keeps it, and what was stored of it. -/
theorem readMessage_badLine (hcut : cut Buffer.kCRLF (unread ++ chunk) = some (line, rest))
    (hparse : parseRequestLine req line = .ok (false, req')) :
    readMessage (more chunk (⟨.kExpectRequestLine, req⟩, unread)) =
      .done [.send badRequest] (⟨.kExpectRequestLine, req'⟩, unread ++ chunk) := by
  have hleave : readTurn (more chunk (⟨.kExpectRequestLine, req⟩, unread)) =
      .leave [false] (⟨.kExpectRequestLine, req'⟩, unread ++ chunk) := by
    simp only [more, readTurn, hcut, hparse]
  rw [readMessage, (readRequest_done_iff _ _ _).mpr (.leave hleave)]
  rfl

end Line

/-- **One call.** From a clean context a call returns. It leaves a clean context,
unless the chunk completed half a request line. -/
theorem readMessage_clean {p : HttpContext × Bytes} (hp : Clean p.1) (chunk : Bytes) :
    ∃ o q, readMessage (more chunk p) = .done o q ∧
      (Clear p chunk ∧ Clean q.1 ∨ ¬ Clear p chunk ∧ Poisoned q) := by
  obtain ⟨⟨state, req⟩, unread⟩ := p
  by_cases hstate : state = .kExpectRequestLine
  · subst hstate
    have hinv : req.method_ = .kInvalid := hp.2 rfl
    cases hcut : cut Buffer.kCRLF (unread ++ chunk) with
    | none =>
      have hwait : readTurn (more chunk (⟨.kExpectRequestLine, req⟩, unread)) =
          .leave [true] (more chunk (⟨.kExpectRequestLine, req⟩, unread)) := by
        simp only [more, readTurn, hcut]
      refine ⟨_, _, readMessage_wait (.leave hwait) rfl, Or.inl ⟨?_, hp⟩⟩
      intro _ line rest hc
      simp [hcut] at hc
    | some q =>
      obtain ⟨line, rest⟩ := q
      have hclear : Clear (⟨.kExpectRequestLine, req⟩, unread) chunk ↔ ¬ HalfLine line := by
        simp [Clear, hcut]
      obtain ⟨ok, req', hparse, hhalf⟩ := parseRequestLine_refused hinv line
      cases ok with
      | true =>
        obtain ⟨o, q, hdone, hclean⟩ := readMessage_line hcut hparse
        refine ⟨o, q, hdone, Or.inl ⟨hclear.mpr ?_, hclean⟩⟩
        simp [hhalf]
      | false =>
        refine ⟨_, _, readMessage_badLine hcut hparse, ?_⟩
        rw [hclear, hhalf]
        by_cases hm : req'.method_ = .kInvalid
        · exact Or.inl ⟨by simp [hm], by simp, fun _ => hm⟩
        · refine Or.inr ⟨by simp [hm], rfl, hm, line, rest, hcut, ?_⟩
          obtain ⟨method, text, hspace, -⟩ := hhalf.mpr ⟨rfl, hm⟩
          simp [hspace]
  · have hbehind : state = .kExpectHeaders ∨ state = .kExpectBody := by
      cases state with
      | kExpectRequestLine => exact absurd rfl hstate
      | kExpectHeaders => exact Or.inl rfl
      | kExpectBody => exact Or.inr rfl
      | kGotAll => exact absurd rfl hp.1
    obtain ⟨ok, t, hends, ht⟩ := ends_behind_line _ (more chunk (⟨state, req⟩, unread))
      (Nat.lt_succ_self _) hbehind
    obtain ⟨o, q, hdone, hclean⟩ := readMessage_behind hends ht
    exact ⟨o, q, hdone, Or.inl ⟨fun hs => absurd hs hstate, hclean⟩⟩

/-- The next call on a poisoned context does not return. -/
theorem readMessage_poisoned {p : HttpContext × Bytes} (hp : Poisoned p) (chunk : Bytes) :
    readMessage (more chunk p) = .fault [] .assertion := by
  obtain ⟨⟨state, req⟩, unread⟩ := p
  obtain ⟨hstate, hm, line, rest, hcut, hspace⟩ := hp
  simp only at hstate hm hcut
  subst hstate
  obtain ⟨⟨method, text⟩, hspace⟩ := Option.ne_none_iff_exists'.mp hspace
  have hfault : parseRequestLine req line = .error .assertion := by
    simp [parseRequestLine, hspace, HttpRequest.setMethod, assert, hm]
  have hturn : readTurn (more chunk (⟨.kExpectRequestLine, req⟩, unread)) = .fault .assertion := by
    simp only [more, readTurn, cut_append hcut, hfault]
  rw [readMessage, readRequest, drain, run_fault hturn]
  rfl

/-! ## The session -/

/-- A chunk arrives and `onMessage` returns. -/
def arrived (s : HttpContext × Buffer) (chunk : Bytes) : Option (HttpContext × Buffer) :=
  match arrive onMessage receive s chunk with
  | .done _ s' => some s'
  | _ => none

theorem arrive_view (s : HttpContext × Buffer) (chunk : Bytes) :
    (arrive onMessage receive s chunk).map view = readMessage (more chunk (view s)) := by
  show _ = arrive readMessage (fun p c => .ok (more c p)) (view s) chunk
  exact arrive_map onMessage_view receive_view s chunk

/-- What a session does from a clean context on. -/
theorem session_cases (cs : List Bytes) (s : HttpContext × Buffer) (hclean : Clean s.1) :
    Guarded arrived (fun s chunk => Clear (view s) chunk) s cs.dropLast ∧
      (∃ o t, session s cs = .done o t) ∨
    ¬ Guarded arrived (fun s chunk => Clear (view s) chunk) s cs.dropLast ∧
      ∃ o, session s cs = .fault o .assertion := by
  induction cs generalizing s with
  | nil => exact Or.inl ⟨trivial, [], s, rfl⟩
  | cons c cs ih =>
    obtain ⟨o, q, hdone, hq⟩ := readMessage_clean (p := view s) hclean c
    rw [← arrive_view] at hdone
    obtain ⟨s', harrive, rfl⟩ := map_eq_done hdone
    have hsession : session s (c :: cs) = (session s' cs).emit o := by
      rw [session, feed_cons, harrive]
    rw [hsession]
    cases cs with
    | nil => exact Or.inl ⟨trivial, _, _, rfl⟩
    | cons d cs =>
      rw [List.dropLast_cons_cons]
      rcases hq with ⟨hclear, hclean'⟩ | ⟨hnot, hpoison⟩
      · -- the context stays clean
        have hguard : Guarded arrived (fun s chunk => Clear (view s) chunk) s
            (c :: (d :: cs).dropLast) ↔
            Guarded arrived (fun s chunk => Clear (view s) chunk) s' (d :: cs).dropLast := by
          simp [Guarded, arrived, harrive, hclear]
        rw [hguard]
        rcases ih s' hclean' with ⟨hg, o', t, ht⟩ | ⟨hg, o', ht⟩
        · exact Or.inl ⟨hg, o ++ o', t, by rw [ht]; rfl⟩
        · exact Or.inr ⟨hg, o ++ o', by rw [ht]; rfl⟩
      · -- the next call does not return
        refine Or.inr ⟨fun h => hnot h.1, o, ?_⟩
        have hfault := readMessage_poisoned hpoison d
        rw [← arrive_view] at hfault
        have harrive' : arrive onMessage receive s' d = .fault [] .assertion := by
          cases ha : arrive onMessage receive s' d with
          | fault o' e => simpa [ha, Outcome.map] using hfault
          | done o' t => simp [ha, Outcome.map] at hfault
          | spin o' t => simp [ha, Outcome.map] at hfault
        rw [session, feed_cons, harrive']
        simp [Outcome.emit]

/-- **When the assertion of `setMethod` holds.** It fails on no call of a session
if and only if no chunk but the last completes a line that is parsed as a
request line, starts with a method and a space, and does not end in a space and a
version. Then every call returns. -/
theorem session_asserts_iff (cs : List Bytes) (buf : Buffer) :
    ((∀ o, session ({}, buf) cs ≠ .fault o .assertion) ↔
      Guarded arrived (fun s chunk => Clear (view s) chunk) ({}, buf) cs.dropLast) ∧
    (Guarded arrived (fun s chunk => Clear (view s) chunk) ({}, buf) cs.dropLast →
      ∃ o s, session ({}, buf) cs = .done o s) := by
  have hclean : Clean (({} : HttpContext), buf).1 := ⟨by simp, fun _ => rfl⟩
  rcases session_cases cs _ hclean with ⟨hg, o, t, ht⟩ | ⟨hg, o, ht⟩
  · exact ⟨iff_of_true (by simp [ht]) hg, fun _ => ⟨o, t, ht⟩⟩
  · exact ⟨iff_of_false (fun h => h o ht) hg, fun h => absurd h hg⟩

/-- A request line without version is answered by 400; the next byte trips the
assertion. -/
theorem assertion_after_half_line :
    (session ({}, Buffer.ofSize kInitialSize) [bytes "GET /\r\n"]).out = [.send badRequest] ∧
    (session ({}, Buffer.ofSize kInitialSize) [bytes "GET /\r\n", bytes "x"]).map view =
      .fault [.send badRequest] .assertion := by
  refine ⟨?_, ?_⟩ <;> decide +kernel

end Cppim.Http.HttpServer
