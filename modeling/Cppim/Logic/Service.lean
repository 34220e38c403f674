import Cppim.Common.Protocol
import Cppim.Logic.Push
import Cppim.Redis.Commands

/-! `logicserver/LogicServiceImpl.cc`: how a client's token is looked at, and the key that
`LogicServer::generateKey` issues for it. The parser of the JSON library is a parameter;
what `Connect` asks of a parsed value is in `Json`. -/

namespace Cppim.Logic

open Cppim.Common Cppim.Protocol
open Cppim.Redis (text)

/-! ## JSON values -/

/-- `nlohmann::json`. A number is known by the `int` that it converts to. -/
inductive Json where
  | null
  | boolean (b : Bool)
  | number (n : BitVec 32)
  | string (str : Bytes)
  | array (elements : List Json)
  | object (fields : List (Bytes × Json))

/-- The exceptions that `Connect` catches. -/
inductive JsonError where
  | parse_error
  | type_error
  deriving Repr, DecidableEq

namespace Json

/-- What `find` points to; only an object has it. -/
def find (j : Json) (name : Bytes) : Option Json :=
  match j with
  | .object fields => fields.lookup name
  | _ => none

/-- `j[name]` on a value that is not `const`: an absent field becomes a null one, and
null becomes an object. -/
def index (j : Json) (name : Bytes) : Except JsonError Json :=
  match j with
  | .null => .ok .null
  | .object fields => .ok ((fields.lookup name).getD .null)
  | _ => .error .type_error

def toInt : Json → Except JsonError (BitVec 32)
  | .number n => .ok n
  | .boolean b => .ok (if b then 1 else 0)
  | _ => .error .type_error

def toText : Json → Except JsonError Bytes
  | .string str => .ok str
  | _ => .error .type_error

def toInts : Json → Except JsonError (List (BitVec 32))
  | .array elements => elements.mapM toInt
  | _ => .error .type_error

/-- `j[name]`, converted to the type of what it is assigned to -/
def get {α : Type} (convert : Json → Except JsonError α) (j : Json) (name : Bytes) :
    Except JsonError α :=
  j.index name >>= convert

/-! ### Which conversions succeed -/

def isText : Json → Bool
  | .string _ => true
  | _ => false

def isInt : Json → Bool
  | .number _ => true
  | .boolean _ => true
  | _ => false

def isInts : Json → Bool
  | .array elements => elements.all isInt
  | _ => false

theorem toText_ok_iff (j : Json) : (∃ str, j.toText = .ok str) ↔ j.isText = true := by
  cases j <;> simp [toText, isText]

theorem toInt_ok_iff (j : Json) : (∃ n, j.toInt = .ok n) ↔ j.isInt = true := by
  cases j <;> simp [toInt, isInt]

theorem toInts_ok_iff (j : Json) : (∃ ns, j.toInts = .ok ns) ↔ j.isInts = true := by
  cases j with
  | array elements =>
    simp only [toInts, isInts, List.all_eq_true, ← toInt_ok_iff]
    rcases mapM_cases toInt elements with ⟨⟨ns, hns, -⟩, hall⟩ | ⟨⟨e, he⟩, hnot⟩
    · exact iff_of_true ⟨ns, hns⟩ hall
    · exact iff_of_false (fun ⟨ns, hns⟩ => by simp [he] at hns) hnot
  | _ => simp [toInts, isInts]

/-- A conversion that refuses null succeeds on the fields of an object only. -/
theorem get_ok_iff {α : Type} {convert : Json → Except JsonError α} {p : Json → Bool}
    (hp : ∀ j, (∃ a, convert j = .ok a) ↔ p j = true) (hnull : p .null = false) (j : Json)
    (name : Bytes) : (∃ a, j.get convert name = .ok a) ↔ (j.find name).any p = true := by
  have hno : ¬ ∃ a, convert .null = .ok a := by
    rw [hp, hnull]
    exact Bool.false_ne_true
  cases j with
  | null => exact iff_of_false hno Bool.false_ne_true
  | object fields =>
    show (∃ a, convert ((fields.lookup name).getD .null) = .ok a) ↔
      (fields.lookup name).any p = true
    cases fields.lookup name with
    | none => exact iff_of_false hno Bool.false_ne_true
    | some v => exact hp v
  | _ => exact iff_of_false (fun ⟨a, ha⟩ => by cases ha) Bool.false_ne_true

end Json

/-! ## Keys -/

/-- The static variables of `generateKey`. -/
structure KeyGen where
  lastTimestamp : BitVec 64
  seqID : BitVec 16
  deriving Repr, DecidableEq

def KeyGen.key (gen : KeyGen) (serverid_ : BitVec 32) : Bytes :=
  to_string ((gen.lastTimestamp &&& 0x3FFFFFFFFFF) <<< 22 |||
    ((serverid_ &&& 0x3FF) <<< 12).setWidth 64 ||| gen.seqID.setWidth 64)

/-- `generateKey` after the static variables have their first values. `clock` is what
`getMilliSecond` returns from now on; there is no result while the loop waits. -/
def KeyGen.next (gen : KeyGen) (clock : List (BitVec 64)) : Option KeyGen :=
  match clock with
  | [] => none
  | timestamp :: clock =>
    if gen.lastTimestamp = timestamp then
      let seqID := (gen.seqID + 1) &&& 0xFFF
      if seqID = 0 then
        (clock.find? (gen.lastTimestamp ≠ ·)).map fun timestamp => ⟨timestamp, seqID⟩
      else some ⟨timestamp, seqID⟩
    else some ⟨timestamp, 0⟩

/-- The first call reads the clock once more, to set `lastTimestamp`. -/
def generateKey (serverid_ : BitVec 32) (statics : Option KeyGen) (clock : List (BitVec 64)) :
    Option (KeyGen × Bytes) :=
  let gen := match statics, clock with
    | some gen, clock => gen.next clock
    | none, timestamp :: clock => KeyGen.next ⟨timestamp, 0⟩ clock
    | none, [] => none
  gen.map fun gen => (gen, gen.key serverid_)

/-- A key is the decimal text of a number. -/
theorem generateKey_decimal {serverid_ : BitVec 32} {statics : Option KeyGen}
    {clock : List (BitVec 64)} {gen : KeyGen} {key : Bytes}
    (h : generateKey serverid_ statics clock = some (gen, key)) : ∃ n, key = to_string n := by
  obtain ⟨gen', -, heq⟩ := Option.map_eq_some_iff.mp h
  cases heq
  exact ⟨_, rfl⟩

/-! ## `Connect` -/

/-- The text of a command of a pipeline. -/
abbrev Command := Bytes

def addServerMap (mid : BitVec 32) (key server : Bytes) : List Command :=
  [text [bytes "HSET", keyMidServer mid.toInt, key, server],
    text [bytes "EXPIRE", keyMidServer mid.toInt, formatInt (30 * 60)],
    text [bytes "SET", keyKeyServer key, server],
    text [bytes "EXPIRE", keyKeyServer key, formatInt (30 * 60)]]

/-- What `Connect` has done so far: the reply, the key that was issued for it, the
commands given to Redis. -/
structure Serving where
  response : ConnectReply := {}
  statics : Option KeyGen
  issued : Option Bytes := none
  commands : List Command := []

/-- The body of the `try` block: an exception keeps what was done before it. -/
abbrev Try := ExceptT JsonError (StateT Serving Option)

def attempt {α : Type} (e : Except JsonError α) : Try α := ExceptT.mk (pure e)

def setResponse (f : ConnectReply → ConnectReply) : Try Unit :=
  modify fun p => { p with response := f p.response }

/-- What the server is given: the JSON parser, and `serverid_`. -/
structure Config where
  parse : Bytes → Option Json
  serverid_ : BitVec 32

def issueKey (cfg : Config) (clock : List (BitVec 64)) : Try Bytes := do
  match generateKey cfg.serverid_ (← get).statics clock with
  | none => StateT.lift none
  | some (gen, key) =>
    modify fun p => { p with statics := some gen, issued := some key }
    return key

/-- The `mid` of the reply is set from a number only. -/
def setMid (jsonbody : Json) : Try Unit :=
  match jsonbody.find (bytes "mid") with
  | some (.number mid) => setResponse ({ · with mid := mid.signExtend 64 })
  | _ => pure ()

def tryConnect (cfg : Config) (clock : List (BitVec 64)) (request : ConnectReq) : Try Unit := do
  let jsonbody ← attempt ((cfg.parse request.token).elim (.error .parse_error) .ok)
  setMid jsonbody
  let roomid ← attempt (jsonbody.get Json.toText (bytes "room_id"))
  setResponse ({ · with roomID := roomid })
  let key ← issueKey cfg clock
  setResponse ({ · with key := key })
  let accepts ← attempt (jsonbody.get Json.toInts (bytes "accepts"))
  setResponse ({ · with accepts := accepts })
  let _ ← attempt (jsonbody.index (bytes "server"))
  let mid ← attempt (jsonbody.get Json.toInt (bytes "mid"))
  modify fun p => { p with commands := addServerMap mid key request.server }

/-- What became of a call of `Connect`. -/
structure Outcome extends Serving where
  /-- no exception was caught -/
  accepted : Bool

/-- The call of `Try` from a state. -/
def Try.start {α : Type} (m : Try α) (p : Serving) : Option (Except JsonError α × Serving) :=
  StateT.run (ExceptT.run m) p

def connect (cfg : Config) (statics : Option KeyGen) (clock : List (BitVec 64))
    (request : ConnectReq) : Option Outcome :=
  ((tryConnect cfg clock request).start { statics := statics }).map
    fun (result, p) => { p with accepted := result.isOk }

/-! ## What `Connect` does -/

theorem start_bind {α β : Type} (m : Try α) (f : α → Try β) (p : Serving) :
    (m >>= f).start p = (m.start p).bind fun q =>
      match q with
      | (.ok a, p) => (f a).start p
      | (.error e, p) => some (.error e, p) := by
  unfold Try.start ExceptT.run StateT.run
  simp only [bind, ExceptT.bind, ExceptT.mk, StateT.bind, ExceptT.bindCont]
  congr 1
  funext q
  obtain ⟨result, p⟩ := q
  cases result <;> rfl

@[simp] theorem start_attempt {α : Type} (e : Except JsonError α) (p : Serving) :
    (attempt e).start p = some (e, p) := rfl

@[simp] theorem start_setResponse (f : ConnectReply → ConnectReply) (p : Serving) :
    (setResponse f).start p = some (.ok (), { p with response := f p.response }) := rfl

@[simp] theorem start_modify (f : Serving → Serving) (p : Serving) :
    (modify f : Try Unit).start p = some (.ok (), f p) := rfl

theorem start_issueKey (cfg : Config) (clock : List (BitVec 64)) (p : Serving) :
    (issueKey cfg clock).start p = (generateKey cfg.serverid_ p.statics clock).map
      fun q => (.ok q.2, { p with statics := some q.1, issued := some q.2 }) := by
  have hget : (get : Try Serving).start p = some (.ok p, p) := rfl
  rw [issueKey, start_bind, hget]
  simp only [Option.bind_some]
  cases generateKey cfg.serverid_ p.statics clock with
  | none => rfl
  | some q => rfl

/-- The `mid` that the reply has in the end. -/
def replyMid (j : Json) : BitVec 64 :=
  match j.find (bytes "mid") with
  | some (.number mid) => mid.signExtend 64
  | _ => 0

theorem start_setMid (j : Json) (p : Serving) (h : p.response = {}) :
    (setMid j).start p = some (.ok (), { p with response := { mid := replyMid j } }) := by
  obtain ⟨response, statics, issued, commands⟩ := p
  cases h
  unfold setMid replyMid
  split <;> rfl

/-- The ways in which `Connect` ends. -/
inductive Ends (cfg : Config) (statics : Option KeyGen) (clock : List (BitVec 64))
    (request : ConnectReq) : Outcome → Prop
  | malformed (hparse : cfg.parse request.token = none) :
    Ends cfg statics clock request { statics := statics, accepted := false }
  | room (j : Json) (e : JsonError) (hparse : cfg.parse request.token = some j)
      (hroom : j.get Json.toText (bytes "room_id") = .error e) :
    Ends cfg statics clock request
      { response := { mid := replyMid j }, statics := statics, accepted := false }
  | accepts (j : Json) (room : Bytes) (gen : KeyGen) (key : Bytes) (e : JsonError)
      (hparse : cfg.parse request.token = some j)
      (hroom : j.get Json.toText (bytes "room_id") = .ok room)
      (hkey : generateKey cfg.serverid_ statics clock = some (gen, key))
      (haccepts : j.get Json.toInts (bytes "accepts") = .error e) :
    Ends cfg statics clock request
      { response := { mid := replyMid j, roomID := room, key := key }
        statics := some gen, issued := some key, accepted := false }
  | mid (j : Json) (room : Bytes) (gen : KeyGen) (key : Bytes) (accepts : List (BitVec 32))
      (e : JsonError) (hparse : cfg.parse request.token = some j)
      (hroom : j.get Json.toText (bytes "room_id") = .ok room)
      (hkey : generateKey cfg.serverid_ statics clock = some (gen, key))
      (haccepts : j.get Json.toInts (bytes "accepts") = .ok accepts)
      (hmid : j.get Json.toInt (bytes "mid") = .error e) :
    Ends cfg statics clock request
      { response := { mid := replyMid j, roomID := room, key := key, accepts := accepts }
        statics := some gen, issued := some key, accepted := false }
  | accepted (j : Json) (room : Bytes) (gen : KeyGen) (key : Bytes)
      (accepts : List (BitVec 32)) (mid : BitVec 32)
      (hparse : cfg.parse request.token = some j)
      (hroom : j.get Json.toText (bytes "room_id") = .ok room)
      (hkey : generateKey cfg.serverid_ statics clock = some (gen, key))
      (haccepts : j.get Json.toInts (bytes "accepts") = .ok accepts)
      (hmid : j.get Json.toInt (bytes "mid") = .ok mid) :
    Ends cfg statics clock request
      { response := { mid := replyMid j, roomID := room, key := key, accepts := accepts }
        statics := some gen, issued := some key
        commands := addServerMap mid key request.server, accepted := true }

/-- A field that is converted was indexed, so the value is an object or null. -/
theorem Json.index_ok_of_get {α : Type} {convert : Json → Except JsonError α} {j : Json}
    {name : Bytes} {a : α} (h : j.get convert name = .ok a) (other : Bytes) :
    ∃ v, j.index other = .ok v := by
  cases j with
  | null => exact ⟨_, rfl⟩
  | object fields => exact ⟨_, rfl⟩
  | _ => cases h

theorem ends_of_connect {cfg : Config} {statics : Option KeyGen} {clock : List (BitVec 64)}
    {request : ConnectReq} {o : Outcome} (h : connect cfg statics clock request = some o) :
    Ends cfg statics clock request o := by
  obtain ⟨⟨result, p⟩, hrun, rfl⟩ := Option.map_eq_some_iff.mp h
  unfold tryConnect at hrun
  cases hparse : cfg.parse request.token with
  | none =>
    simp only [start_bind, hparse, Option.elim_none, start_attempt, Option.bind_some,
      Option.some.injEq, Prod.mk.injEq] at hrun
    obtain ⟨rfl, rfl⟩ := hrun
    exact .malformed hparse
  | some j =>
    simp only [start_bind, hparse, Option.elim_some, start_attempt, Option.bind_some,
      start_setMid] at hrun
    cases hroom : j.get Json.toText (bytes "room_id") with
    | error e =>
      simp only [hroom, Option.some.injEq, Prod.mk.injEq] at hrun
      obtain ⟨rfl, rfl⟩ := hrun
      exact .room j e hparse hroom
    | ok room =>
      obtain ⟨v, hserver⟩ := Json.index_ok_of_get hroom (bytes "server")
      simp only [hroom, start_setResponse, Option.bind_some, start_issueKey] at hrun
      cases hkey : generateKey cfg.serverid_ statics clock with
      | none => simp [hkey] at hrun
      | some q =>
        obtain ⟨gen, key⟩ := q
        simp only [hkey, Option.map_some, Option.bind_some] at hrun
        cases haccepts : j.get Json.toInts (bytes "accepts") with
        | error e =>
          simp only [haccepts, Option.some.injEq, Prod.mk.injEq] at hrun
          obtain ⟨rfl, rfl⟩ := hrun
          exact .accepts j room gen key e hparse hroom hkey haccepts
        | ok accepts =>
          simp only [haccepts, hserver] at hrun
          cases hmid : j.get Json.toInt (bytes "mid") with
          | error e =>
            simp only [hmid, Option.some.injEq, Prod.mk.injEq] at hrun
            obtain ⟨rfl, rfl⟩ := hrun
            exact .mid j room gen key accepts e hparse hroom hkey haccepts hmid
          | ok mid =>
            simp only [hmid, start_modify, Option.some.injEq, Prod.mk.injEq] at hrun
            obtain ⟨rfl, rfl⟩ := hrun
            exact .accepted j room gen key accepts mid hparse hroom hkey haccepts hmid

/-- `Connect` returns if `generateKey` does. -/
theorem connect_returns {cfg : Config} {statics : Option KeyGen} {clock : List (BitVec 64)}
    (hclock : (generateKey cfg.serverid_ statics clock).isSome) (request : ConnectReq) :
    ∃ o, connect cfg statics clock request = some o := by
  obtain ⟨⟨gen, key⟩, hkey⟩ := Option.isSome_iff_exists.mp hclock
  rw [← Option.isSome_iff_exists, connect, Option.isSome_map, tryConnect]
  cases hparse : cfg.parse request.token with
  | none => simp [start_bind]
  | some j =>
    cases hroom : j.get Json.toText (bytes "room_id") with
    | error e => simp [start_bind, start_setMid, hroom]
    | ok room =>
      obtain ⟨v, hserver⟩ := Json.index_ok_of_get hroom (bytes "server")
      cases haccepts : j.get Json.toInts (bytes "accepts") with
      | error e => simp [start_bind, start_setMid, start_issueKey, hroom, hkey, haccepts]
      | ok accepts =>
        cases hmid : j.get Json.toInt (bytes "mid") <;>
          simp [start_bind, start_setMid, start_issueKey, hroom, hkey, haccepts, hserver, hmid]

/-- The token is the text of an object with a string `room_id`, an array `accepts` of
numbers or booleans, and a `mid` that is a number or a boolean. -/
def wellFormed (parse : Bytes → Option Json) (token : Bytes) : Bool :=
  (parse token).any fun j => (j.find (bytes "room_id")).any Json.isText &&
    (j.find (bytes "accepts")).any Json.isInts && (j.find (bytes "mid")).any Json.isInt

namespace Ends

variable {cfg : Config} {statics : Option KeyGen} {clock : List (BitVec 64)}
  {request : ConnectReq} {o : Outcome}

theorem wellFormed_iff (j : Json) (hparse : cfg.parse request.token = some j) :
    wellFormed cfg.parse request.token = true ↔
      (∃ room, j.get Json.toText (bytes "room_id") = .ok room) ∧
      (∃ accepts, j.get Json.toInts (bytes "accepts") = .ok accepts) ∧
      ∃ mid, j.get Json.toInt (bytes "mid") = .ok mid := by
  rw [Json.get_ok_iff Json.toText_ok_iff rfl, Json.get_ok_iff Json.toInts_ok_iff rfl,
    Json.get_ok_iff Json.toInt_ok_iff rfl]
  simp [wellFormed, hparse, and_assoc]

/-- **Accepted tokens.** No exception is caught exactly for the well-formed tokens. -/
theorem accepted_iff (h : Ends cfg statics clock request o) :
    o.accepted = true ↔ wellFormed cfg.parse request.token = true := by
  cases h with
  | malformed hparse => simp [wellFormed, hparse]
  | room j e hparse hroom =>
    rw [wellFormed_iff j hparse, hroom]
    simp
  | accepts j room gen key e hparse hroom hkey haccepts =>
    rw [wellFormed_iff j hparse, haccepts]
    simp
  | mid j room gen key accepts e hparse hroom hkey haccepts hmid =>
    rw [wellFormed_iff j hparse, hmid]
    simp
  | accepted j room gen key accepts mid hparse hroom hkey haccepts hmid =>
    rw [wellFormed_iff j hparse]
    simp [hroom, haccepts, hmid]

/-- The key of the reply is the one that was issued, and empty without one. -/
theorem key_eq (h : Ends cfg statics clock request o) : o.response.key = o.issued.getD [] := by
  cases h <;> rfl

theorem issued_of_accepted (h : Ends cfg statics clock request o) (ha : o.accepted = true) :
    ∃ key, o.issued = some key := by
  cases h with
  | accepted j room gen key => exact ⟨key, rfl⟩
  | _ => cases ha

theorem issued_key (h : Ends cfg statics clock request o) {key : Bytes}
    (hkey : o.issued = some key) :
    ∃ gen, generateKey cfg.serverid_ statics clock = some (gen, key) := by
  cases h <;> cases hkey <;> exact ⟨_, ‹_›⟩

theorem issued_decimal (h : Ends cfg statics clock request o) {key : Bytes}
    (hkey : o.issued = some key) : ∃ n, key = to_string n := by
  obtain ⟨gen, hgen⟩ := h.issued_key hkey
  exact generateKey_decimal hgen

theorem issued_ne_nil (h : Ends cfg statics clock request o) {key : Bytes}
    (hkey : o.issued = some key) : key ≠ [] := by
  obtain ⟨n, rfl⟩ := h.issued_decimal hkey
  exact Lib.Decimal.decimal_ne_nil n.toNat

end Ends

end Cppim.Logic
