import Cppim.Http.Grammar

/-! `HttpRequest::appendToBuffer` and the parser: what the one writes the other reads back.

`Serializable` names the texts that the format can carry. For such a request the
parser takes exactly the bytes that were written, and makes the same request of them,
with a `Connection` header where there was none. -/

namespace Cppim.Http.HttpContext

open Cppim.Common Cppim.Lib Cppim.Lib.Cut Cppim.Lib.Loop HttpServer

/-! ## The text of a request -/

def queryText (querys : List (Bytes × Bytes)) : Bytes :=
  querys.flatMap fun query => query.1 ++ equals :: query.2 ++ [ampersand]

def headerText (headers : List (Bytes × Bytes)) : Bytes :=
  headers.flatMap fun header => header.1 ++ colon :: space :: header.2 ++ Buffer.kCRLF

/-- The value that `appendToBuffer` gives to the `Connection` header. -/
def connection (req : HttpRequest) : Bytes :=
  if req.closeConnection_ then bytes "close" else bytes "Keep-Alive"

/-- The headers in the order in which they are written. -/
def written (req : HttpRequest) : List (Bytes × Bytes) :=
  (bytes "Connection", connection req) :: req.headers_.toList

def targetText (req : HttpRequest) : Bytes :=
  req.path_ ++ questionMark :: queryText req.querys_.toList

def lineText (req : HttpRequest) : Bytes :=
  req.methodString ++ [space] ++ targetText req ++ [space] ++ bytes "HTTP/1." ++ [49]

def requestText (req : HttpRequest) : Bytes :=
  lineText req ++ (Buffer.kCRLF ++ (headerText (written req) ++ (Buffer.kCRLF ++ req.body_)))

theorem appends_query (query : Bytes × Bytes) : Buffer.Appends (HttpRequest.appendQuery · query)
    (query.1 ++ equals :: query.2 ++ [ampersand]) := by
  intro b
  have h := ((Buffer.appends_append query.1).bind ((Buffer.appends_append (bytes "=")).bind
    ((Buffer.appends_append query.2).bind (Buffer.appends_append (bytes "&"))))) b
  have htext : query.1 ++ (bytes "=" ++ (query.2 ++ bytes "&")) =
      query.1 ++ equals :: query.2 ++ [ampersand] := by
    simp [bytes, equals, ampersand]
  rw [htext] at h
  exact h

theorem appends_header (header : Bytes × Bytes) :
    Buffer.Appends (HttpRequest.appendHeader · header)
      (header.1 ++ colon :: space :: header.2 ++ Buffer.kCRLF) := by
  intro b
  have h := ((Buffer.appends_append header.1).bind ((Buffer.appends_append (bytes ": ")).bind
    ((Buffer.appends_append header.2).bind (Buffer.appends_append (bytes "\r\n"))))) b
  have htext : header.1 ++ (bytes ": " ++ (header.2 ++ bytes "\r\n")) =
      header.1 ++ colon :: space :: header.2 ++ Buffer.kCRLF := by
    simp [bytes, colon, space, Buffer.kCRLF]
  rw [htext] at h
  exact h

theorem appends_connection (req : HttpRequest) : Buffer.Appends req.appendConnection
    (headerText [(bytes "Connection", connection req)]) := by
  intro b
  rw [HttpRequest.appendConnection]
  cases hclose : req.closeConnection_ with
  | false =>
    have htext : headerText [(bytes "Connection", connection req)] =
        bytes "Connection: Keep-Alive\r\n" := by
      simp only [connection, hclose]
      decide
    rw [htext]
    exact b.append_readable (bytes "Connection: Keep-Alive\r\n")
  | true =>
    have htext : headerText [(bytes "Connection", connection req)] =
        bytes "Connection: close\r\n" := by
      simp only [connection, hclose]
      decide
    rw [htext]
    exact b.append_readable (bytes "Connection: close\r\n")

/-- `appendToBuffer` appends the text of the request. -/
theorem appends_request (req : HttpRequest) :
    Buffer.Appends req.appendToBuffer (requestText req) := by
  intro b
  have h := ((Buffer.appends_append req.methodString).bind
    ((Buffer.appends_append (bytes " ")).bind ((Buffer.appends_append req.path_).bind
    ((Buffer.appends_append (bytes "?")).bind
    ((Buffer.appends_foldlM appends_query req.querys_.toList).bind
    ((Buffer.appends_append (bytes " ")).bind ((Buffer.appends_append (bytes "HTTP/1.1")).bind
    ((Buffer.appends_append (bytes "\r\n")).bind ((appends_connection req).bind
    ((Buffer.appends_foldlM appends_header req.headers_.toList).bind
    ((Buffer.appends_append (bytes "\r\n")).bind (Buffer.appends_append req.body_)))))))))))) b
  have htext : req.methodString ++ (bytes " " ++ (req.path_ ++ (bytes "?" ++
      ((req.querys_.toList.flatMap fun query => query.1 ++ equals :: query.2 ++ [ampersand]) ++
      (bytes " " ++ (bytes "HTTP/1.1" ++ (bytes "\r\n" ++
      (headerText [(bytes "Connection", connection req)] ++
      ((req.headers_.toList.flatMap fun header =>
        header.1 ++ colon :: space :: header.2 ++ Buffer.kCRLF) ++
      (bytes "\r\n" ++ req.body_)))))))))) = requestText req := by
    simp [requestText, lineText, targetText, queryText, headerText, written, Buffer.kCRLF, bytes,
      space, questionMark]
  rw [htext] at h
  exact h

/-! ## What the format can carry -/

/-- None of these characters is in the text. -/
def Free (chars : String) (text : Bytes) : Prop := ∀ c ∈ bytes chars, c ∉ text

instance (chars : String) (text : Bytes) : Decidable (Free chars text) :=
  inferInstanceAs (Decidable (∀ c ∈ bytes chars, c ∉ text))

/-- No white space at either end. -/
def Trimmed (value : Bytes) : Prop :=
  (∀ c, value.head? = some c → isspace c = false) ∧
    ∀ c, value.getLast? = some c → isspace c = false

/-- The texts of the request can be told apart in the format, and the length of the body
is announced. -/
structure Serializable (req : HttpRequest) : Prop where
  method : req.method_ ≠ .kInvalid
  path : Free " ?\r\n" req.path_
  querys : ∀ name value, req.querys_[name]? = some value →
    Free "=& \r\n" name ∧ Free "& \r\n" value
  headers : ∀ name value, req.headers_[name]? = some value →
    Free ":\r\n" name ∧ Free "\r\n" value ∧ Trimmed value
  body : req.body_ = [] ∧ (req.headers_[bytes "Content-Length"]? = none ∨
      req.headers_[bytes "Content-Length"]? = some (bytes "0")) ∨
    req.body_.length < 2 ^ 31 ∧
      req.headers_[bytes "Content-Length"]? = some (Decimal.decimal req.body_.length)

def cr : UInt8 := 13

/-- A line without carriage return ends at the CRLF behind it. -/
theorem cut_line {line : Bytes} (h : cr ∉ line) (rest : Bytes) :
    cut Buffer.kCRLF (line ++ (Buffer.kCRLF ++ rest)) = some (line, rest) := by
  have hnone : cut [cr, 10] line = none :=
    cut_eq_none_iff.mpr fun hin => h (hin.subset List.mem_cons_self)
  have hcut := cut_append (cut_pair (by decide) hnone) rest
  rw [List.append_assoc] at hcut
  exact hcut

/-! ## The request line -/

theorem methodString_mem {req : HttpRequest} (h : req.method_ ≠ .kInvalid) :
    (req.methodString, req.method_) ∈ methods := by
  unfold HttpRequest.methodString
  cases hm : req.method_ with
  | kInvalid => exact absurd hm h
  | _ => decide

theorem cr_not_mem_method {name : Bytes} {method : Method} (h : (name, method) ∈ methods) :
    cr ∉ name := by
  simp only [methods, List.mem_cons, Prod.mk.injEq, List.not_mem_nil, or_false] at h
  rcases h with ⟨rfl, -⟩ | ⟨rfl, -⟩ | ⟨rfl, -⟩ | ⟨rfl, -⟩ | ⟨rfl, -⟩ <;> decide

/-- A character that no name and no value has, and that is no separator, is not in the
text of the query. -/
theorem not_mem_queryText {c : UInt8} {querys : List (Bytes × Bytes)} (heq : c ≠ equals)
    (hand : c ≠ ampersand) (h : ∀ query ∈ querys, c ∉ query.1 ∧ c ∉ query.2) :
    c ∉ queryText querys := by
  intro hc
  obtain ⟨query, hquery, hc⟩ := List.mem_flatMap.mp hc
  obtain ⟨hname, hvalue⟩ := h query hquery
  simp [heq, hand, hname, hvalue] at hc

section Line

variable {req : HttpRequest} (hreq : Serializable req)
include hreq

theorem Serializable.of_mem {query : Bytes × Bytes} (h : query ∈ req.querys_.toList) :
    Free "=& \r\n" query.1 ∧ Free "& \r\n" query.2 :=
  hreq.querys query.1 query.2 (Std.ExtTreeMap.mem_toList_iff_getElem?_eq_some.mp h)

theorem isRequestLine_lineText :
    IsRequestLine (lineText req) req.method_ (targetText req) .kHttp11 := by
  refine ⟨req.methodString, 49, methodString_mem hreq.method, by decide, ?_, rfl⟩
  have hquery : space ∉ queryText req.querys_.toList :=
    not_mem_queryText (by decide) (by decide) fun query hquery =>
      ⟨(hreq.of_mem hquery).1 space (by decide), (hreq.of_mem hquery).2 space (by decide)⟩
  simp only [targetText, List.mem_append, List.mem_cons, not_or]
  exact ⟨hreq.path space (by decide), by decide, hquery⟩

theorem cr_not_mem_lineText : cr ∉ lineText req := by
  have hquery : cr ∉ queryText req.querys_.toList :=
    not_mem_queryText (by decide) (by decide) fun query hquery =>
      ⟨(hreq.of_mem hquery).1 cr (by decide), (hreq.of_mem hquery).2 cr (by decide)⟩
  simp only [lineText, targetText, List.mem_append, List.mem_cons, not_or]
  refine ⟨⟨⟨⟨⟨?_, by decide⟩, hreq.path cr (by decide), by decide, hquery⟩, by decide⟩,
    by decide⟩, by decide⟩
  exact cr_not_mem_method (methodString_mem hreq.method)

end Line

/-- The query is cut where it was put together. -/
theorem splitOn_queryText (querys : List (Bytes × Bytes))
    (h : ∀ query ∈ querys, ampersand ∉ query.1 ++ equals :: query.2) :
    (queryText querys).splitOn ampersand =
      querys.map (fun query => query.1 ++ equals :: query.2) ++ [[]] := by
  induction querys with
  | nil => rfl
  | cons query querys ih =>
    have hone : (query.1 ++ equals :: query.2).splitOn ampersand =
        [query.1 ++ equals :: query.2] := by
      refine List.splitOnP_eq_singleton fun c hc => ?_
      have hne : c ≠ ampersand := fun heq => h query (by simp) (heq ▸ hc)
      simpa using hne
    have htext : queryText (query :: querys) =
        (query.1 ++ equals :: query.2) ++ ampersand :: queryText querys := by
      simp [queryText]
    rw [htext, List.splitOn, List.splitOnP_append_cons _ _ (by simp)]
    rw [List.splitOn] at hone
    rw [hone, ← List.splitOn, ih fun q hq => h q (by simp [hq])]
    rfl

/-- Its segments are inserted one by one. -/
theorem foldl_insertParm_map (querys : List (Bytes × Bytes)) (m : StringMap)
    (h : ∀ query ∈ querys, equals ∉ query.1) :
    (querys.map fun query => query.1 ++ equals :: query.2).foldl insertParm m =
      querys.foldl (fun m query => m.insertIfNew query.1 query.2) m := by
  induction querys generalizing m with
  | nil => rfl
  | cons query querys ih =>
    have hone : insertParm m (query.1 ++ equals :: query.2) = m.insertIfNew query.1 query.2 := by
      rw [insertParm, cut_singleton (h query (by simp))]
    rw [List.map_cons, List.foldl_cons, hone, List.foldl_cons,
      ih _ fun q hq => h q (by simp [hq])]

theorem nodup_toList (m : StringMap) : (m.toList.map Prod.fst).Nodup := by
  rw [Std.ExtTreeMap.map_fst_toList_eq_keys]
  exact m.nodup_keys

/-- The query map is read back. -/
theorem querys_queryText {req : HttpRequest} (hreq : Serializable req) :
    (split (queryText req.querys_.toList) (bytes "&")).foldl insertParm ∅ = req.querys_ := by
  have hsegs : ∀ query ∈ req.querys_.toList, ampersand ∉ query.1 ++ equals :: query.2 := by
    intro query hquery
    obtain ⟨hname, hvalue⟩ := hreq.of_mem hquery
    simp only [List.mem_append, List.mem_cons, not_or]
    exact ⟨hname ampersand (by decide), by decide, hvalue ampersand (by decide)⟩
  have hnames : ∀ query ∈ req.querys_.toList, equals ∉ query.1 := fun query hquery =>
    (hreq.of_mem hquery).1 equals (by decide)
  rw [foldl_insertParm_split, splitOn_queryText _ hsegs, List.foldl_append,
    foldl_insertParm_map _ _ hnames]
  show req.querys_.toList.foldl (fun m query => m.insertIfNew query.1 query.2) ∅ = req.querys_
  apply Std.ExtTreeMap.ext_getElem?
  intro name
  apply Option.ext
  intro value
  rw [getElem?_foldl_insertIfNew _ (nodup_toList _) ∅ (by simp),
    Std.ExtTreeMap.mem_toList_iff_getElem?_eq_some]
  simp

/-! ## The headers -/

/-- A header that a line can carry. -/
structure HeaderLine (header : Bytes × Bytes) : Prop where
  colon : colon ∉ header.1
  name : cr ∉ header.1
  value : cr ∉ header.2
  trimmed : Trimmed header.2

theorem dropWhile_of_head {value : Bytes} (h : ∀ c, value.head? = some c → isspace c = false) :
    value.dropWhile isspace = value := by
  cases value with
  | nil => rfl
  | cons c cs => simp [h c rfl]

theorem addHeader_trimmed (req : HttpRequest) (name : Bytes) {value : Bytes} (h : Trimmed value) :
    req.addHeader name (space :: value) =
      { req with headers_ := req.headers_.insert name value } := by
  have hfront : (space :: value).dropWhile isspace = value := by
    rw [List.dropWhile_cons_of_pos (by decide)]
    exact dropWhile_of_head h.1
  have hback : value.reverse.dropWhile isspace = value.reverse := by
    apply dropWhile_of_head
    simpa using h.2
  simp only [HttpRequest.addHeader, hfront, hback, List.reverse_reverse]

theorem readTurn_header (req : HttpRequest) {header : Bytes × Bytes} (h : HeaderLine header)
    (rest : Bytes) :
    readTurn (⟨.kExpectHeaders, req⟩,
        header.1 ++ colon :: space :: header.2 ++ Buffer.kCRLF ++ rest) =
      .again [] (⟨.kExpectHeaders,
        { req with headers_ := req.headers_.insert header.1 header.2 }⟩, rest) := by
  have hline : cr ∉ header.1 ++ colon :: space :: header.2 := by
    simp only [List.mem_append, List.mem_cons, not_or]
    exact ⟨h.name, by decide, by decide, h.value⟩
  simp only [readTurn, List.append_assoc _ Buffer.kCRLF rest, cut_line hline, parseHeaderLine,
    cut_singleton h.colon, addHeader_trimmed req header.1 h.trimmed]

/-- The loop goes through the header lines. -/
theorem ends_headers (headers : List (Bytes × Bytes)) (h : ∀ header ∈ headers, HeaderLine header)
    (req : HttpRequest) (rest : Bytes) {o : List Bool} {t : HttpContext × Bytes}
    (hrest : Ends readTurn (⟨.kExpectHeaders, { req with
      headers_ := headers.foldl (fun m header => m.insert header.1 header.2) req.headers_ }⟩,
        rest) o t) :
    Ends readTurn (⟨.kExpectHeaders, req⟩, headerText headers ++ rest) o t := by
  induction headers generalizing req with
  | nil => exact hrest
  | cons header headers ih =>
    have hturn := readTurn_header req (h header (by simp)) (headerText headers ++ rest)
    have htail := ih (fun q hq => h q (by simp [hq]))
      { req with headers_ := req.headers_.insert header.1 header.2 } hrest
    have htext : headerText (header :: headers) ++ rest =
        header.1 ++ colon :: space :: header.2 ++ Buffer.kCRLF ++ (headerText headers ++ rest) := by
      simp [headerText]
    rw [htext]
    exact .again hturn htail

theorem headerLine_written {req : HttpRequest} (hreq : Serializable req) :
    ∀ header ∈ written req, HeaderLine header := by
  intro header hheader
  rcases List.mem_cons.mp hheader with rfl | hmem
  · unfold connection
    cases req.closeConnection_ with
    | false => exact ⟨by decide, by decide, by decide, by decide +kernel, by decide +kernel⟩
    | true => exact ⟨by decide, by decide, by decide, by decide +kernel, by decide +kernel⟩
  · have hget := Std.ExtTreeMap.mem_toList_iff_getElem?_eq_some.mp hmem
    obtain ⟨hname, hvalue, htrimmed⟩ := hreq.headers header.1 header.2 hget
    exact ⟨hname colon (by decide), hname cr (by decide), hvalue cr (by decide), htrimmed⟩

/-- The headers are read back, with a `Connection` where there was none. -/
theorem headers_written (req : HttpRequest) :
    (written req).foldl (fun m header => m.insert header.1 header.2) ∅ =
      req.headers_.insertIfNew (bytes "Connection") (connection req) := by
  apply Std.ExtTreeMap.ext_getElem?
  intro name
  apply Option.ext
  intro value
  rw [written, List.foldl_cons, getElem?_foldl_insert _ (nodup_toList _),
    Std.ExtTreeMap.mem_toList_iff_getElem?_eq_some, Std.ExtTreeMap.map_fst_toList_eq_keys,
    Std.ExtTreeMap.mem_keys, Std.ExtTreeMap.getElem?_insertIfNew, Std.ExtTreeMap.getElem?_insert]
  by_cases hname : bytes "Connection" = name
  · subst hname
    by_cases hmem : bytes "Connection" ∈ req.headers_
    · simp [hmem]
    · simp [hmem]
  · simp [hname]

/-! ## The body -/

theorem ends_body {req : HttpRequest} {body : Bytes} (hlen : contentLength req = body.length)
    (hfresh : req.body_ = []) (more : Bytes) :
    Ends readTurn (⟨.kExpectBody, req⟩, body ++ more) [true]
      (⟨.kGotAll, { req with body_ := body }⟩, more) := by
  by_cases hbody : body = []
  · subst hbody
    have hreq : { req with body_ := [] } = req := by rw [← hfresh]
    rw [hreq]
    refine .leave ?_
    simp [readTurn, hlen]
  · have hpos : 0 < contentLength req := by
      have := List.length_pos_of_ne_nil hbody
      omega
    have hle : contentLength req ≤ (body ++ more).length := by
      rw [hlen, List.length_append]
      omega
    refine .leave ?_
    simp only [readTurn, hpos, hle, ↓reduceIte]
    simp [hlen, HttpRequest.setBody]

/-- The length that was announced is that of the body; `Connection` does not get in its
way. -/
theorem contentLength_written {req r : HttpRequest} (hreq : Serializable req)
    (h : r.headers_ = req.headers_.insertIfNew (bytes "Connection") (connection req)) :
    contentLength r = req.body_.length := by
  have hget : r.headers_[bytes "Content-Length"]? = req.headers_[bytes "Content-Length"]? := by
    have hne : bytes "Connection" ≠ bytes "Content-Length" := by decide
    rw [h, Std.ExtTreeMap.getElem?_insertIfNew]
    simp [hne]
  rw [contentLength, HttpRequest.getHeader, hget]
  rcases hreq.body with ⟨hbody, hnone | hzero⟩ | ⟨hlt, hlen⟩
  · rw [hnone, hbody]
    rfl
  · rw [hzero, hbody]
    rfl
  · rw [hlen, Option.getD_some, atoi_decimal hlt]

/-! ## The whole request -/

/-- What the parser makes of the text of a request. -/
def parsed (req : HttpRequest) : HttpRequest where
  method_ := req.method_
  version_ := .kHttp11
  path_ := req.path_
  query_ := queryText req.querys_.toList
  body_ := req.body_
  querys_ := req.querys_
  headers_ := req.headers_.insertIfNew (bytes "Connection") (connection req)

theorem ends_requestText {req : HttpRequest} (hreq : Serializable req) (more : Bytes) :
    Ends readTurn ({}, requestText req ++ more) [true] (⟨.kGotAll, parsed req⟩, more) := by
  have hpath : questionMark ∉ req.path_ := hreq.path questionMark (by decide)
  have hline : parseRequestLine {} (lineText req) =
      .ok (true, { parsed req with body_ := [], headers_ := ∅ }) := by
    rw [parseRequestLine_of (isRequestLine_lineText hreq), targetText, setTarget_query _ hpath,
      querys_queryText hreq]
    rfl
  have htext : requestText req ++ more = lineText req ++ (Buffer.kCRLF ++
      (headerText (written req) ++ (Buffer.kCRLF ++ (req.body_ ++ more)))) := by
    simp [requestText]
  have hfirst : readTurn ({}, requestText req ++ more) =
      .again [] (⟨.kExpectHeaders, { parsed req with body_ := [], headers_ := ∅ }⟩,
        headerText (written req) ++ (Buffer.kCRLF ++ (req.body_ ++ more))) := by
    simp only [readTurn, htext, cut_line (cr_not_mem_lineText hreq), hline]
  have hempty : readTurn (⟨.kExpectHeaders, { parsed req with body_ := [] }⟩,
      Buffer.kCRLF ++ (req.body_ ++ more)) =
      .again [] (⟨.kExpectBody, { parsed req with body_ := [] }⟩, req.body_ ++ more) := by
    have hcut := cut_line (List.not_mem_nil (a := cr)) (req.body_ ++ more)
    simp only [List.nil_append] at hcut
    simp only [readTurn, hcut]
    rfl
  refine .again hfirst (ends_headers _ (headerLine_written hreq) _ _ ?_)
  rw [headers_written]
  exact .again hempty (ends_body (contentLength_written hreq rfl) rfl more)

/-- **Round trip.** What `appendToBuffer` writes, followed by anything, is taken by a fresh
parser up to the last byte written. The request is the same again; its version is 1.1,
and it has a `Connection` header. -/
theorem parseRequest_appendToBuffer (req : HttpRequest) (hreq : Serializable req)
    (output : Buffer) (hout : output.readable = []) :
    ∃ b, req.appendToBuffer output = .ok b ∧
      ∀ (buf : Buffer) more, buf.readable = b.readable ++ more →
        ∃ ctx buf', parseRequest ({}, buf) = .done [true] (ctx, buf') ∧
          ctx.state_ = .kGotAll ∧ buf'.readable = more ∧
          ctx.request_.method_ = req.method_ ∧ ctx.request_.path_ = req.path_ ∧
          ctx.request_.querys_ = req.querys_ ∧ ctx.request_.body_ = req.body_ ∧
          ctx.request_.version_ = .kHttp11 ∧
          ctx.request_.headers_ = req.headers_.insertIfNew (bytes "Connection")
            (if req.closeConnection_ then bytes "close" else bytes "Keep-Alive") := by
  obtain ⟨b, hb, hread⟩ := appends_request req output
  rw [hout, List.nil_append] at hread
  refine ⟨b, hb, fun buf more hbuf => ?_⟩
  have hends := (readRequest_done_iff _ _ _).mpr (ends_requestText hreq more)
  rw [← hread, ← hbuf] at hends
  have hview : (parseRequest ({}, buf)).map view = .done [true] (⟨.kGotAll, parsed req⟩, more) :=
    (parseRequest_view ({}, buf)).trans hends
  obtain ⟨⟨ctx, buf'⟩, hdone, heq⟩ := map_eq_done hview
  obtain ⟨rfl, rfl⟩ := Prod.mk.inj heq
  exact ⟨_, buf', hdone, rfl, rfl, rfl, rfl, rfl, rfl, rfl, rfl⟩

/-- A request with a parameter and a body. -/
def postHi : HttpRequest where
  method_ := .kPost
  path_ := bytes "/a"
  body_ := bytes "hi"
  closeConnection_ := true
  querys_ := (∅ : StringMap).insert (bytes "k") (bytes "v")
  headers_ := (∅ : StringMap).insert (bytes "Content-Length") (bytes "2")

theorem eq_of_getElem?_singleton {name value field text : Bytes}
    (h : ((∅ : StringMap).insert field text)[name]? = some value) :
    name = field ∧ value = text := by
  rw [Std.ExtTreeMap.getElem?_insert] at h
  by_cases hname : field = name
  · simp only [hname, Std.ReflCmp.compare_self, ↓reduceIte, Option.some.injEq] at h
    exact ⟨hname.symm, h.symm⟩
  · simp [hname] at h

theorem postHi_serializable : Serializable postHi where
  method := by decide
  path := by decide +kernel
  querys name value h := by
    obtain ⟨rfl, rfl⟩ := eq_of_getElem?_singleton h
    decide +kernel
  headers name value h := by
    obtain ⟨rfl, rfl⟩ := eq_of_getElem?_singleton h
    exact ⟨by decide +kernel, by decide +kernel, by decide +kernel, by decide +kernel⟩
  body := Or.inr ⟨by decide, by decide +kernel⟩

/-- The request is read back in front of other bytes. -/
theorem postHi_round_trip :
    ∃ b, postHi.appendToBuffer (Buffer.ofSize 0) = .ok b ∧
      ∀ buf : Buffer, buf.readable = b.readable ++ bytes "GET" →
        ∃ ctx buf', parseRequest ({}, buf) = .done [true] (ctx, buf') ∧
          buf'.readable = bytes "GET" ∧ ctx.request_.body_ = bytes "hi" := by
  obtain ⟨b, hb, hparse⟩ := parseRequest_appendToBuffer postHi postHi_serializable (Buffer.ofSize 0)
    (Buffer.readable_ofSize 0)
  refine ⟨b, hb, fun buf hbuf => ?_⟩
  obtain ⟨ctx, buf', hdone, -, hrest, -, -, -, hbody, -⟩ := hparse buf _ hbuf
  exact ⟨ctx, buf', hdone, hrest, hbody⟩

end Cppim.Http.HttpContext
