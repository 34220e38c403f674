import Cppim.Common.Number

/-! `http/HttpResponse.h`, `http/HttpResponse.cc`. -/

namespace Cppim.Http

open Cppim.Common Cppim.Lib

inductive HttpStatusCode where
  | kUnknown | k200Ok | k301MovedPermanently | k400BadRequest | k404NotFound
  deriving Repr, DecidableEq

def HttpStatusCode.code : HttpStatusCode → Nat
  | .kUnknown => 0
  | .k200Ok => 200
  | .k301MovedPermanently => 301
  | .k400BadRequest => 400
  | .k404NotFound => 404

structure HttpResponse where
  headers_ : StringMap := ∅
  statusCode_ : HttpStatusCode := .kUnknown
  statusMessage_ : Bytes := []
  closeConnection_ : Bool
  body_ : Bytes := []
  delay_ : Bool := false
  deriving Repr, DecidableEq

namespace HttpResponse

def setStatusCode (r : HttpResponse) (code : HttpStatusCode) : HttpResponse :=
  { r with statusCode_ := code }

def setStatusMessage (r : HttpResponse) (message : Bytes) : HttpResponse :=
  { r with statusMessage_ := message }

/-- The getter. The setter `setDelay` is never called. -/
def delay (r : HttpResponse) : Bool := r.delay_

/-- `snprintf(buf, sizeof buf, ...)` with a buffer of 32 bytes -/
def snprintf32 (text : Bytes) : Bytes := text.take 31

def headerLines (headers : StringMap) : Bytes :=
  headers.toList.flatMap fun header => header.1 ++ bytes ": " ++ header.2 ++ bytes "\r\n"

/-- What `appendToBuffer` appends. -/
def appendToBuffer (r : HttpResponse) : Bytes :=
  snprintf32 (bytes "HTTP/1.1 " ++ Decimal.decimal r.statusCode_.code ++ bytes " ") ++
  r.statusMessage_ ++ bytes "\r\n" ++
  (if r.closeConnection_ then bytes "Connection: close\r\n"
   else snprintf32 (bytes "Content-Length: " ++ Decimal.decimal r.body_.length ++ bytes "\r\n") ++
     bytes "Connection: Keep-Alive\r\n") ++
  headerLines r.headers_ ++ bytes "\r\n" ++ r.body_

end HttpResponse

end Cppim.Http
