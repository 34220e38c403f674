import Cppim.Common.Buffer
import Cppim.Common.Util
import Cppim.Http.Request
import Cppim.Lib.Framing
import Cppim.Lib.Incremental

/-! `http/HttpContext.h`, `http/HttpContext.cc`: one request parsed from a buffer
that fills as bytes arrive.

`turn` is the body of the `while` loop of `parseRequest`. `readTurn` is the same
loop over the unread bytes alone; `turn_view` says that the buffer adds nothing
to it, and `readTurn_resumes` that it reads its input as it arrives. -/

namespace Cppim.Http

open Cppim.Common Cppim.Lib Cppim.Lib.Cut Cppim.Lib.Loop Cppim.Lib.Framing
open Cppim.Lib.Incremental

inductive HttpRequestParseState where
  | kExpectRequestLine | kExpectHeaders | kExpectBody | kGotAll
  deriving Repr, DecidableEq

structure HttpContext where
  state_ : HttpRequestParseState := .kExpectRequestLine
  request_ : HttpRequest := {}
  deriving Repr, DecidableEq

namespace HttpContext

def gotAll (ctx : HttpContext) : Bool := ctx.state_ = .kGotAll

def reset (ctx : HttpContext) : HttpContext where
  state_ := .kExpectRequestLine
  request_ := (ctx.request_.swap {}).1

/-! ## The request line -/

def space : UInt8 := 32
def colon : UInt8 := 58
def equals : UInt8 := 61
def questionMark : UInt8 := 63

/-- One turn of the loop over the parameters of a query. -/
def addParm (req : HttpRequest) (parm : Bytes) : HttpRequest :=
  match cut [equals] parm with
  | some (name, value) => req.addQuery name value
  | none => req

/-- The target of a request line: path and query. -/
def setTarget (req : HttpRequest) (target : Bytes) : HttpRequest :=
  match cut [questionMark] target with
  | some (path, query) =>
    (split query (bytes "&")).foldl addParm ((req.setPath path).setQuery query)
  | none => req.setPath target

/-- The end of a request line: `HTTP/1.0` or `HTTP/1.1`. -/
def setVersionFrom (req : HttpRequest) (text : Bytes) : Bool × HttpRequest :=
  if text.length = 8 ∧ text.take 7 = bytes "HTTP/1." then
    if text.getLast? = some 49 then (true, req.setVersion .kHttp11)
    else if text.getLast? = some 48 then (true, req.setVersion .kHttp10)
    else (false, req)
  else (false, req)

/-- What was stored before an error was found stays in the request. -/
def parseRequestLine (req : HttpRequest) (line : Bytes) : Except Fault (Bool × HttpRequest) :=
  match cut [space] line with
  | none => return (false, req)
  | some (method, rest) => do
    let (valid, req) ← req.setMethod method
    if valid then
      match cut [space] rest with
      | none => return (false, req)
      | some (target, version) => return setVersionFrom (setTarget req target) version
    else
      return (false, req)

/-! ## The loop -/

/-- A header line, or the empty line behind the headers. -/
def parseHeaderLine (ctx : HttpContext) (line : Bytes) : Bool × HttpContext :=
  match cut [colon] line with
  | some (field, text) => (true, { ctx with request_ := ctx.request_.addHeader field text })
  | none => if line = [] then (true, { ctx with state_ := .kExpectBody }) else (false, ctx)

def contentLength (req : HttpRequest) : Int := atoi (req.getHeader (bytes "Content-Length"))

/-- One turn of the `while` loop of `parseRequest`; the output is the value of `ok`
when the loop is left. -/
def turn : HttpContext × Buffer → Turn (HttpContext × Buffer) Bool Fault
  | (ctx, buf) => Turn.ofExcept do
    match ctx.state_ with
    | .kExpectRequestLine =>
      match buf.findCRLF with
      | some crlf =>
        let (ok, req) ← parseRequestLine ctx.request_ (buf.peek.take crlf)
        if ok then
          let buf ← buf.retrieveUntil (crlf + 2)
          return .again [] (⟨.kExpectHeaders, req⟩, buf)
        else
          return .leave [false] ({ ctx with request_ := req }, buf)
      | none => return .leave [true] (ctx, buf)
    | .kExpectHeaders =>
      match buf.findCRLF with
      | some crlf =>
        let (ok, ctx) := parseHeaderLine ctx (buf.peek.take crlf)
        let buf ← buf.retrieveUntil (crlf + 2)
        if ok then return .again [] (ctx, buf) else return .leave [false] (ctx, buf)
      | none => return .leave [true] (ctx, buf)
    | .kExpectBody =>
      let contentlength := contentLength ctx.request_
      if 0 < contentlength then
        if contentlength ≤ buf.readableBytes then
          let req := ctx.request_.setBody (buf.peek.take contentlength.toNat)
          let buf ← buf.retrieve contentlength.toNat
          return .leave [true] (⟨.kGotAll, req⟩, buf)
        else
          return .leave [true] (ctx, buf)
      else
        return .leave [true] ({ ctx with state_ := .kGotAll }, buf)
    | .kGotAll => return .again [] (ctx, buf)

def view (s : HttpContext × Buffer) : HttpContext × Bytes := (s.1, s.2.readable)

def parseRequest : HttpContext × Buffer → Outcome (HttpContext × Buffer) Bool Fault :=
  drain turn fun s => s.2.readable

/-! ## The loop over the unread bytes -/

def readTurn : HttpContext × Bytes → Turn (HttpContext × Bytes) Bool Fault
  | (ctx, unread) =>
    match ctx.state_ with
    | .kExpectRequestLine =>
      match cut Buffer.kCRLF unread with
      | some (line, rest) =>
        match parseRequestLine ctx.request_ line with
        | .ok (true, req) => .again [] (⟨.kExpectHeaders, req⟩, rest)
        | .ok (false, req) => .leave [false] ({ ctx with request_ := req }, unread)
        | .error e => .fault e
      | none => .leave [true] (ctx, unread)
    | .kExpectHeaders =>
      match cut Buffer.kCRLF unread with
      | some (line, rest) =>
        match parseHeaderLine ctx line with
        | (true, ctx) => .again [] (ctx, rest)
        | (false, ctx) => .leave [false] (ctx, rest)
      | none => .leave [true] (ctx, unread)
    | .kExpectBody =>
      if 0 < contentLength ctx.request_ then
        if contentLength ctx.request_ ≤ unread.length then
          .leave [true]
            (⟨.kGotAll, ctx.request_.setBody (unread.take (contentLength ctx.request_).toNat)⟩,
              unread.drop (contentLength ctx.request_).toNat)
        else .leave [true] (ctx, unread)
      else .leave [true] ({ ctx with state_ := .kGotAll }, unread)
    | .kGotAll => .again [] (ctx, unread)

def readRequest : HttpContext × Bytes → Outcome (HttpContext × Bytes) Bool Fault :=
  drain readTurn Prod.snd

/-- **The buffer adds nothing.** A turn on a buffer is the turn on its readable
bytes; no `assert` of the buffer fails. -/
theorem turn_view (s : HttpContext × Buffer) : (turn s).map view = readTurn (view s) := by
  obtain ⟨⟨state, req⟩, buf⟩ := s
  cases state with
  | kExpectRequestLine =>
    rcases buf.line_cases with
      ⟨hfind, hcut⟩ | ⟨line, rest, buf', hfind, hcut, hline, hbuf, hrest⟩
    · simp only [turn, readTurn, view, hfind, hcut]
      rfl
    · simp only [turn, readTurn, view, hfind, hcut, hline]
      rcases parseRequestLine req line with e | ⟨_ | _, req'⟩
      · rfl
      · rfl
      · simp [hbuf, Turn.ofExcept, Turn.map, view, hrest]
  | kExpectHeaders =>
    rcases buf.line_cases with
      ⟨hfind, hcut⟩ | ⟨line, rest, buf', hfind, hcut, hline, hbuf, hrest⟩
    · simp only [turn, readTurn, view, hfind, hcut]
      rfl
    · simp only [turn, readTurn, view, hfind, hcut, hline]
      rcases parseHeaderLine ⟨.kExpectHeaders, req⟩ line with ⟨_ | _, ctx'⟩
      · simp [hbuf, Turn.ofExcept, Turn.map, view, hrest]
      · simp [hbuf, Turn.ofExcept, Turn.map, view, hrest]
  | kExpectBody =>
    simp only [turn, readTurn, view, Buffer.readable_length]
    by_cases hpos : 0 < contentLength req
    · by_cases hle : contentLength req ≤ buf.readableBytes
      · have hn : (contentLength req).toNat ≤ buf.readableBytes := by omega
        obtain ⟨buf', hbuf, hrest⟩ := buf.retrieve_ok _ hn
        simp [hpos, hle, hbuf, Turn.ofExcept, Turn.map, view, hrest, buf.peek_take _ hn]
      · simp [hpos, hle, Turn.ofExcept, Turn.map, view]
    · simp [hpos, Turn.ofExcept, Turn.map, view]
  | kGotAll => rfl

theorem parseRequest_view (s : HttpContext × Buffer) :
    (parseRequest s).map view = readRequest (view s) := by
  exact run_map turn_view (s.2.readable.length + 1) s

/-- What one turn can do, and when. -/
inductive Read : HttpContext × Bytes → Turn (HttpContext × Bytes) Bool Fault → Prop
  | noLine {ctx : HttpContext} {u : Bytes} :
      ctx.state_ = .kExpectRequestLine ∨ ctx.state_ = .kExpectHeaders →
      cut Buffer.kCRLF u = none → Read (ctx, u) (.leave [true] (ctx, u))
  | requestLine {req req' : HttpRequest} {u line rest : Bytes} :
      cut Buffer.kCRLF u = some (line, rest) → parseRequestLine req line = .ok (true, req') →
      Read (⟨.kExpectRequestLine, req⟩, u) (.again [] (⟨.kExpectHeaders, req'⟩, rest))
  | badRequestLine {req req' : HttpRequest} {u line rest : Bytes} :
      cut Buffer.kCRLF u = some (line, rest) → parseRequestLine req line = .ok (false, req') →
      Read (⟨.kExpectRequestLine, req⟩, u) (.leave [false] (⟨.kExpectRequestLine, req'⟩, u))
  | fault {req : HttpRequest} {u line rest : Bytes} {e : Fault} :
      cut Buffer.kCRLF u = some (line, rest) → parseRequestLine req line = .error e →
      Read (⟨.kExpectRequestLine, req⟩, u) (.fault e)
  | header {req : HttpRequest} {ctx' : HttpContext} {u line rest : Bytes} :
      cut Buffer.kCRLF u = some (line, rest) →
      parseHeaderLine ⟨.kExpectHeaders, req⟩ line = (true, ctx') →
      Read (⟨.kExpectHeaders, req⟩, u) (.again [] (ctx', rest))
  | badHeader {req : HttpRequest} {ctx' : HttpContext} {u line rest : Bytes} :
      cut Buffer.kCRLF u = some (line, rest) →
      parseHeaderLine ⟨.kExpectHeaders, req⟩ line = (false, ctx') →
      Read (⟨.kExpectHeaders, req⟩, u) (.leave [false] (ctx', rest))
  | noBody {req : HttpRequest} {u : Bytes} : ¬ 0 < contentLength req →
      Read (⟨.kExpectBody, req⟩, u) (.leave [true] (⟨.kGotAll, req⟩, u))
  | body {req : HttpRequest} {u : Bytes} :
      0 < contentLength req → contentLength req ≤ u.length →
      Read (⟨.kExpectBody, req⟩, u) (.leave [true]
        (⟨.kGotAll, req.setBody (u.take (contentLength req).toNat)⟩,
          u.drop (contentLength req).toNat))
  | shortBody {req : HttpRequest} {u : Bytes} :
      0 < contentLength req → ¬ contentLength req ≤ u.length →
      Read (⟨.kExpectBody, req⟩, u) (.leave [true] (⟨.kExpectBody, req⟩, u))
  | gotAll {req : HttpRequest} {u : Bytes} :
      Read (⟨.kGotAll, req⟩, u) (.again [] (⟨.kGotAll, req⟩, u))

theorem read_readTurn (p : HttpContext × Bytes) : Read p (readTurn p) := by
  obtain ⟨⟨state, req⟩, u⟩ := p
  cases state with
  | kExpectRequestLine =>
    cases hcut : cut Buffer.kCRLF u with
    | none =>
      simp only [readTurn, hcut]
      exact .noLine (Or.inl rfl) hcut
    | some q =>
      obtain ⟨line, rest⟩ := q
      rcases hp : parseRequestLine req line with e | ⟨_ | _, req'⟩
      · simpa only [readTurn, hcut, hp] using Read.fault hcut hp
      · simpa only [readTurn, hcut, hp] using Read.badRequestLine hcut hp
      · simpa only [readTurn, hcut, hp] using Read.requestLine hcut hp
  | kExpectHeaders =>
    cases hcut : cut Buffer.kCRLF u with
    | none =>
      simp only [readTurn, hcut]
      exact .noLine (Or.inr rfl) hcut
    | some q =>
      obtain ⟨line, rest⟩ := q
      rcases hp : parseHeaderLine ⟨.kExpectHeaders, req⟩ line with ⟨_ | _, ctx'⟩
      · simpa only [readTurn, hcut, hp] using Read.badHeader hcut hp
      · simpa only [readTurn, hcut, hp] using Read.header hcut hp
  | kExpectBody =>
    by_cases hpos : 0 < contentLength req
    · by_cases hle : contentLength req ≤ u.length
      · simpa only [readTurn, hpos, hle, ↓reduceIte] using Read.body hpos hle
      · simpa only [readTurn, hpos, hle, ↓reduceIte] using Read.shortBody hpos hle
    · simpa only [readTurn, hpos, ↓reduceIte] using Read.noBody hpos
  | kGotAll => exact .gotAll

theorem read_of_eq {p : HttpContext × Bytes} {x : Turn (HttpContext × Bytes) Bool Fault}
    (h : readTurn p = x) : Read p x :=
  h ▸ read_readTurn p

theorem length_lt_of_line {u line rest : Bytes} (h : cut Buffer.kCRLF u = some (line, rest)) :
    rest.length < u.length := by
  rw [eq_of_cut h]
  simp [Buffer.kCRLF, bytes]
  omega

/-- Only lines are consumed by a turn that goes round again, except that the
loop stands still once everything is there. -/
theorem readTurn_progress (p : HttpContext × Bytes) (o : List Bool) (p' : HttpContext × Bytes)
    (h : readTurn p = .again o p') : p'.2.length < p.2.length ∨ p' = p := by
  cases read_of_eq h with
  | requestLine hcut _ => exact Or.inl (length_lt_of_line hcut)
  | header hcut _ => exact Or.inl (length_lt_of_line hcut)
  | gotAll => exact Or.inr rfl

/-- **The parser reads its input as it arrives.** -/
theorem readTurn_resumes : Resumes readTurn [true] := by
  rintro ⟨⟨state, req⟩, unread⟩ ys
  cases state with
  | kExpectRequestLine =>
    simp only [readTurn, more]
    cases hc : cut Buffer.kCRLF unread with
    | none => exact Or.inl rfl
    | some p =>
      obtain ⟨line, rest⟩ := p
      simp only [cut_append hc]
      rcases parseRequestLine req line with e | ⟨_ | _, req'⟩ <;> exact Or.inr rfl
  | kExpectHeaders =>
    simp only [readTurn, more]
    cases hc : cut Buffer.kCRLF unread with
    | none => exact Or.inl rfl
    | some p =>
      obtain ⟨line, rest⟩ := p
      simp only [cut_append hc]
      rcases parseHeaderLine ⟨.kExpectHeaders, req⟩ line with ⟨_ | _, ctx'⟩ <;> exact Or.inr rfl
  | kExpectBody =>
    simp only [readTurn, more]
    by_cases hpos : 0 < contentLength req
    · by_cases hle : contentLength req ≤ unread.length
      · have hle' : contentLength req ≤ (unread ++ ys).length := by
          rw [List.length_append]
          omega
        have hn : (contentLength req).toNat ≤ unread.length := by omega
        simp only [hpos, hle, hle', ↓reduceIte, List.take_append_of_le_length hn,
          List.drop_append_of_le_length hn]
        exact Or.inr rfl
      · simp only [hpos, hle, ↓reduceIte, true_or]
    · simp only [hpos, ↓reduceIte]
      exact Or.inr rfl
  | kGotAll => exact Or.inr rfl

theorem readTurn_again_out {p p' : HttpContext × Bytes} {o : List Bool}
    (h : readTurn p = .again o p') : o = [] := by
  cases read_of_eq h <;> rfl

/-- `ok` is put out once, when the loop is left. -/
theorem readTurn_ends_one {p t : HttpContext × Bytes} {o : List Bool}
    (h : Ends readTurn p o t) : ∃ ok, o = [ok] := by
  induction h with
  | leave ht => cases read_of_eq ht <;> exact ⟨_, rfl⟩
  | again ht _ ih => simpa [readTurn_again_out ht] using ih

/-- A loop that is left with `[true]` puts nothing out before. -/
theorem eq_nil_of_ends_append {p t : HttpContext × Bytes} {o : List Bool}
    (h : Ends readTurn p (o ++ [true]) t) : o = [] := by
  obtain ⟨ok, hok⟩ := readTurn_ends_one h
  cases o with
  | nil => rfl
  | cons a o => simp at hok

theorem readRequest_done_iff (p t : HttpContext × Bytes) (o : List Bool) :
    readRequest p = .done o t ↔ Ends readTurn p o t := by
  constructor
  · exact ends_of_run
  · intro h
    exact run_of_ends readTurn_progress h _ (Nat.lt_succ_self _)

end HttpContext

end Cppim.Http
