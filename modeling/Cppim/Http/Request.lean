import Cppim.Common.Buffer
import Cppim.Common.Number
import Cppim.Lib.Cut

/-! `http/HttpRequest.h`. -/

namespace Cppim.Http

open Cppim.Common Cppim.Lib.Cut

inductive Method where
  | kInvalid | kGet | kPost | kHead | kPut | kDelete
  deriving Repr, DecidableEq

inductive Version where
  | kUnknown | kHttp10 | kHttp11
  deriving Repr, DecidableEq

structure HttpRequest where
  method_ : Method := .kInvalid
  version_ : Version := .kUnknown
  path_ : Bytes := []
  query_ : Bytes := []
  body_ : Bytes := []
  closeConnection_ : Bool := false
  querys_ : StringMap := ∅
  headers_ : StringMap := ∅
  deriving Repr, DecidableEq

namespace HttpRequest

def methodOf (m : Bytes) : Method :=
  if m = bytes "GET" then .kGet
  else if m = bytes "POST" then .kPost
  else if m = bytes "HEAD" then .kHead
  else if m = bytes "PUT" then .kPut
  else if m = bytes "DELETE" then .kDelete
  else .kInvalid

def setMethod (req : HttpRequest) (m : Bytes) : Except Fault (Bool × HttpRequest) := do
  assert (req.method_ = .kInvalid)
  return (methodOf m ≠ .kInvalid, { req with method_ := methodOf m })

def methodString (req : HttpRequest) : Bytes :=
  match req.method_ with
  | .kGet => bytes "GET"
  | .kPost => bytes "POST"
  | .kHead => bytes "HEAD"
  | .kPut => bytes "PUT"
  | .kDelete => bytes "DELETE"
  | .kInvalid => bytes "UNKNOWN"

def setVersion (req : HttpRequest) (v : Version) : HttpRequest := { req with version_ := v }
def setPath (req : HttpRequest) (path : Bytes) : HttpRequest := { req with path_ := path }
def setQuery (req : HttpRequest) (query : Bytes) : HttpRequest := { req with query_ := query }
def setBody (req : HttpRequest) (body : Bytes) : HttpRequest := { req with body_ := body }

/-- `querys().insert({parm, value})`: a parameter that is there keeps its value. -/
def addQuery (req : HttpRequest) (parm value : Bytes) : HttpRequest :=
  { req with querys_ := req.querys_.insertIfNew parm value }

/-- `addHeader(start, colon, end)` with the text before and behind the colon. -/
def addHeader (req : HttpRequest) (field text : Bytes) : HttpRequest :=
  let value := ((text.dropWhile isspace).reverse.dropWhile isspace).reverse
  { req with headers_ := req.headers_.insert field value }

def getHeader (req : HttpRequest) (field : Bytes) : Bytes := (req.headers_[field]?).getD []

/-- The iterator is compared with the end of the other map, so that a missing
parameter is dereferenced past the end. -/
def getQuery (req : HttpRequest) (field : Bytes) : Except Fault Bytes :=
  match req.querys_[field]? with
  | some value => .ok value
  | none => .error .endIterator

/-- `swap` leaves `body_`, `querys_` and `closeConnection_` where they are. -/
def swap (a b : HttpRequest) : HttpRequest × HttpRequest :=
  ({ a with
      method_ := b.method_
      version_ := b.version_
      path_ := b.path_
      query_ := b.query_
      headers_ := b.headers_ },
   { b with
      method_ := a.method_
      version_ := a.version_
      path_ := a.path_
      query_ := a.query_
      headers_ := a.headers_ })

/-- A turn of the loop over `querys_`. -/
def appendQuery (output : Buffer) (query : Bytes × Bytes) : Except Fault Buffer := do
  let output ← output.append query.1
  let output ← output.append (bytes "=")
  let output ← output.append query.2
  output.append (bytes "&")

/-- A turn of the loop over `headers_`. -/
def appendHeader (output : Buffer) (header : Bytes × Bytes) : Except Fault Buffer := do
  let output ← output.append header.1
  let output ← output.append (bytes ": ")
  let output ← output.append header.2
  output.append (bytes "\r\n")

/-- The `Connection` header, in front of those of `headers_`. -/
def appendConnection (req : HttpRequest) (output : Buffer) : Except Fault Buffer :=
  if req.closeConnection_ then output.append (bytes "Connection: close\r\n")
  else output.append (bytes "Connection: Keep-Alive\r\n")

def appendToBuffer (req : HttpRequest) (output : Buffer) : Except Fault Buffer := do
  let output ← output.append req.methodString
  let output ← output.append (bytes " ")
  let output ← output.append req.path_
  let output ← output.append (bytes "?")
  let output ← req.querys_.toList.foldlM appendQuery output
  let output ← output.append (bytes " ")
  let output ← output.append (bytes "HTTP/1.1")
  let output ← output.append (bytes "\r\n")
  let output ← req.appendConnection output
  let output ← req.headers_.toList.foldlM appendHeader output
  let output ← output.append (bytes "\r\n")
  output.append req.body_

end HttpRequest

end Cppim.Http
