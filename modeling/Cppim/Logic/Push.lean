import Cppim.Common.Util
import Cppim.Http.Request
import Cppim.Http.Response
import Cppim.Redis.Client

/-! `logicserver/LogicServer.cc`: the four push handlers and the messages they
hand to Kafka. `Handler.run_spec` is the specification of all four: a parameter
cannot be read and the handler faults, a parameter is refused and the handler
answers 404, or the messages are produced. -/

namespace Cppim.Logic

open Cppim.Common Cppim.Http Cppim.Redis

/-! ## Messages -/

inductive PushType where
  | PUSH | ROOM | BROADCAST
  deriving Repr, DecidableEq

/-- `logic::PushMsg` -/
structure PushMsg where
  type : PushType
  operation : Int
  speed : Int := 0
  server : Bytes := []
  room : Bytes := []
  keys : List Bytes := []
  msg : Bytes
  deriving Repr, DecidableEq

/-- A message given to `KafkaProducer::Produce` with its `Callback*`; a callback is
named by the number of the request it was made for. The key is not passed on. -/
structure Message where
  value : PushMsg
  cb : Option Nat
  deriving Repr, DecidableEq

/-- What the handlers find outside: Redis, and the orders of the two hash maps of
`PushMsgByMids`. -/
structure Env where
  redis : Content
  keyOrder : HashOrder
  serverOrder : HashOrder

def keyMidServer (mid : Int) : Bytes := bytes "mid_" ++ formatInt mid

def keyKeyServer (key : Bytes) : Bytes := bytes "key_" ++ key

/-- `PushMsg`; it reads `keys[0]`. -/
def pushMsg (keys : List Bytes) (op : Int) (server msg : Bytes) (cb : Option Nat) :
    Except Fault Message :=
  match keys with
  | [] => .error .invalidRead
  | _ :: _ =>
    .ok ⟨{ type := .PUSH, operation := op, server := server, keys := keys, msg := msg }, cb⟩

/-- One message for each server. -/
def pushGroups (order : HashOrder) (serverKeys : HashMap (List Bytes)) (op : Int) (msg : Bytes)
    (cb : Option Nat) : Except Fault (List Message) :=
  (order.elements serverKeys).mapM fun elem => pushMsg elem.2 op elem.1 msg cb

def pushMsgByKeys (env : Env) (keys : List Bytes) (op : Int) (msg : Bytes) :
    Except Fault (List Message) :=
  let cmd := keys.map keyKeyServer
  let reply := env.redis.MGet cmd
  if cmd.length < reply.length then .error .invalidRead
  else pushGroups env.serverOrder (group (reply.zip cmd)) op msg none

/-- `keyServer[elem.first] = elem.second` for the hash of one mid -/
def addKeyServer (env : Env) (keyServer : StringMap) (mid : Int) : Except Fault StringMap := do
  let reply ← env.redis.HGetAll (keyMidServer mid)
  return reply.toList.foldl (fun m elem => m.insert elem.1 elem.2) keyServer

def pushMsgByMids (env : Env) (mids : List Int) (op : Int) (msg : Bytes) (cb : Option Nat) :
    Except Fault (List Message) := do
  let keyServer ← mids.foldlM (addKeyServer env) ∅
  let serverKeys := group ((env.keyOrder.elements keyServer).map Prod.swap)
  pushGroups env.serverOrder serverKeys op msg cb

def pushMsgToAll (speed op : Int) (msg : Bytes) : Message :=
  ⟨{ type := .BROADCAST, operation := op, speed := speed, msg := msg }, none⟩

def pushMsgByRoom (room : Bytes) (op : Int) (msg : Bytes) : Message :=
  ⟨{ type := .ROOM, room := room, operation := op, msg := msg }, none⟩

/-! ## Handlers -/

/-- What a handler that returns has done: the response as it left it, the bytes it
sent and the messages it produced. -/
structure Handled where
  response : HttpResponse
  sent : List Bytes := []
  produced : List Message := []

/-- The `else` branch of every handler. -/
def notFound (response : HttpResponse) : Handled :=
  let response := (response.setStatusCode .k404NotFound).setStatusMessage (bytes "NotFound")
  { response := response, sent := [response.appendToBuffer] }

def number (request : HttpRequest) (name : String) : Except Fault Int := do
  stoi (← request.getQuery (bytes name))

def pushMsgByKeysHandler (env : Env) (request : HttpRequest) (response : HttpResponse) :
    Except Fault Handled := do
  let operation ← number request "operation"
  let keys := split (← request.getQuery (bytes "keys")) (bytes ",")
  if keys ≠ [] ∧ operation ≠ 0 then
    let produced ← pushMsgByKeys env keys operation request.body_
    return { response := response, produced := produced }
  else
    return notFound response

/-- `response->delay()` reads the flag and leaves it as it is. `context` is what
`GetContext` of the session returns. -/
def pushMsgByMidsHandler (env : Env) (context : Option Nat) (request : HttpRequest)
    (response : HttpResponse) : Except Fault Handled := do
  let operation ← number request "operation"
  let mids := split (← request.getQuery (bytes "mids")) (bytes ",")
  let midsvec ← mids.mapM stoi
  if mids ≠ [] ∧ operation ≠ 0 then
    let produced ← pushMsgByMids env midsvec operation request.body_ context
    return { response := response, produced := produced }
  else
    return notFound response

def pushMsgByRoomHandler (request : HttpRequest) (response : HttpResponse) :
    Except Fault Handled := do
  let operation ← number request "operation"
  let type ← request.getQuery (bytes "type")
  let room ← request.getQuery (bytes "room")
  let roomstr := type ++ bytes "://" ++ room
  if type ≠ [] ∧ operation ≠ 0 ∧ room ≠ [] then
    return { response := response, produced := [pushMsgByRoom roomstr operation request.body_] }
  else
    return notFound response

def pushMsgToAllHandler (request : HttpRequest) (response : HttpResponse) :
    Except Fault Handled := do
  let operation ← number request "operation"
  let speed ← number request "speed"
  if operation ≠ 0 ∧ speed ≠ 0 then
    return { response := response, produced := [pushMsgToAll speed operation request.body_] }
  else
    return notFound response

inductive Handler where
  | keys | mids | room | all
  deriving Repr, DecidableEq

/-- The handlers that `LogicServer::Start` registers. -/
def handler_ (path : Bytes) : Option Handler :=
  if path = bytes "/push/keys" then some .keys
  else if path = bytes "/push/mids" then some .mids
  else if path = bytes "/push/room" then some .room
  else if path = bytes "/push/all" then some .all
  else none

def Handler.run (h : Handler) (env : Env) (context : Option Nat) (request : HttpRequest)
    (response : HttpResponse) : Except Fault Handled :=
  match h with
  | .keys => pushMsgByKeysHandler env request response
  | .mids => pushMsgByMidsHandler env context request response
  | .room => pushMsgByRoomHandler request response
  | .all => pushMsgToAllHandler request response

/-! ## The messages of a push -/

/-- The message to one server. -/
def groupMessage (op : Int) (msg : Bytes) (cb : Option Nat) (elem : Bytes × List Bytes) : Message :=
  ⟨{ type := .PUSH, operation := op, server := elem.1, keys := elem.2, msg := msg }, cb⟩

theorem pushGroups_eq (order : HashOrder) (pairs : List (Bytes × Bytes)) (op : Int) (msg : Bytes)
    (cb : Option Nat) : pushGroups order (group pairs) op msg cb =
      .ok ((order.elements (group pairs)).map (groupMessage op msg cb)) := by
  refine mapM_ok _ _ _ fun elem helem => ?_
  have hne := group_ne_nil ((order.mem_elements _ _ _).mp helem)
  obtain ⟨key, keys, hkeys⟩ := List.exists_cons_of_ne_nil hne
  simp [pushMsg, hkeys, groupMessage]

theorem pushGroups_ok (order : HashOrder) (pairs : List (Bytes × Bytes)) (op : Int) (msg : Bytes)
    (cb : Option Nat) :
    ∃ ms, pushGroups order (group pairs) op msg cb = .ok ms ∧ (∀ m ∈ ms, m.cb = cb) ∧
      (ms = [] ↔ pairs = []) := by
  refine ⟨_, pushGroups_eq order pairs op msg cb, ?_, ?_⟩
  · intro m hm
    obtain ⟨elem, -, rfl⟩ := List.mem_map.mp hm
    rfl
  · rw [List.map_eq_nil_iff, order.elements_eq_nil_iff, group_eq_empty_iff]

/-- `PushMsgByKeys` pairs the values that `MGet` found with the keys it looked up. -/
theorem pushMsgByKeys_eq (env : Env) (keys : List Bytes) (op : Int) (msg : Bytes) :
    pushMsgByKeys env keys op msg = .ok ((env.serverOrder.elements (group
      (((keys.map keyKeyServer).filterMap env.redis.strings).zip (keys.map keyKeyServer)))).map
        (groupMessage op msg none)) := by
  have hlen := List.length_filterMap_le env.redis.strings (keys.map keyKeyServer)
  simp only [pushMsgByKeys, Content.MGet_eq, Nat.not_lt.mpr hlen, ↓reduceIte, pushGroups_eq]

theorem pushMsgByKeys_ok (env : Env) (keys : List Bytes) (op : Int) (msg : Bytes) :
    ∃ ms, pushMsgByKeys env keys op msg = .ok ms ∧ ∀ m ∈ ms, m.cb = none := by
  refine ⟨_, pushMsgByKeys_eq env keys op msg, fun m hm => ?_⟩
  obtain ⟨elem, -, rfl⟩ := List.mem_map.mp hm
  rfl

/-- The fields of the hash of a mid. -/
def fields (redis : Content) (mid : Int) : List Bytes :=
  (redis.hashes (keyMidServer mid)).map Prod.fst

/-- The last mid of the list that has the key maps it to the server. -/
def Owner (redis : Content) (mids : List Int) (key server : Bytes) : Prop :=
  ∃ before mid after, mids = before ++ mid :: after ∧
    (key, server) ∈ redis.hashes (keyMidServer mid) ∧ ∀ m ∈ after, key ∉ fields redis m

theorem not_owner_nil (redis : Content) (key server : Bytes) : ¬ Owner redis [] key server := by
  rintro ⟨before, mid, after, h, -⟩
  simp at h

/-- One more mid takes over the keys that it has. -/
theorem owner_append (redis : Content) (mids : List Int) (mid : Int) (key server : Bytes) :
    Owner redis (mids ++ [mid]) key server ↔
      (key, server) ∈ redis.hashes (keyMidServer mid) ∨
        key ∉ fields redis mid ∧ Owner redis mids key server := by
  constructor
  · rintro ⟨before, m, after, h, hm, hafter⟩
    rcases List.eq_nil_or_concat after with rfl | ⟨after, m', rfl⟩
    · obtain ⟨-, hmid⟩ := List.append_inj' h rfl
      cases hmid
      exact Or.inl hm
    · have h' : mids ++ [mid] = (before ++ m :: after) ++ [m'] := by simpa using h
      obtain ⟨rfl, hmid⟩ := List.append_inj' h' rfl
      cases hmid
      exact Or.inr ⟨hafter _ (by simp), before, m, after, rfl, hm,
        fun m' hm' => hafter m' (by simp [hm'])⟩
  · rintro (h | ⟨hnot, before, m, after, rfl, hm, hafter⟩)
    · exact ⟨mids, mid, [], rfl, h, by simp⟩
    · refine ⟨before, m, after ++ [mid], by simp, hm, fun m' hm' => ?_⟩
      rcases List.mem_append.mp hm' with hm' | hm'
      · exact hafter m' hm'
      · rw [List.mem_singleton.mp hm']
        exact hnot

/-- A key has an owner if some mid has it. -/
theorem exists_owner_iff (redis : Content) (mids : List Int) (key : Bytes) :
    (∃ server, Owner redis mids key server) ↔ ∃ mid ∈ mids, key ∈ fields redis mid := by
  induction mids using List.reverseRecOn with
  | nil => simp [not_owner_nil]
  | append_singleton mids mid ih =>
    have hfield : key ∈ fields redis mid ↔
        ∃ server, (key, server) ∈ redis.hashes (keyMidServer mid) := by
      simp [fields]
    simp only [owner_append, exists_or, exists_and_left, ih, ← hfield, List.mem_append,
      List.mem_singleton, or_and_right, exists_eq_left]
    by_cases hm : key ∈ fields redis mid
    · simp [hm]
    · simp [hm]

/-- The map that the hashes of the mids are written into, one after the other. -/
theorem foldlM_addKeyServer_ok (env : Env) (mids : List Int) :
    ∃ m, mids.foldlM (addKeyServer env) ∅ = .ok m ∧
      ∀ key server, m[key]? = some server ↔ Owner env.redis mids key server := by
  induction mids using List.reverseRecOn with
  | nil => exact ⟨∅, rfl, fun key server => by simp [not_owner_nil]⟩
  | append_singleton mids mid ih =>
    obtain ⟨m, hm, howner⟩ := ih
    obtain ⟨reply, hreply, hmem⟩ := env.redis.HGetAll_ok (keyMidServer mid)
    refine ⟨reply.toList.foldl (fun m elem => m.insert elem.1 elem.2) m, ?_, fun key server => ?_⟩
    · simp only [List.foldlM_append, hm, ok_bind, List.foldlM_cons, List.foldlM_nil, addKeyServer,
        hreply, pure_eq_ok]
    · have hpair : ∀ value, (key, value) ∈ reply.toList ↔
          (key, value) ∈ env.redis.hashes (keyMidServer mid) := fun value => by
        rw [Std.ExtTreeMap.mem_toList_iff_getElem?_eq_some, hmem]
      have hfield : key ∈ reply.toList.map Prod.fst ↔ key ∈ fields env.redis mid := by
        simp only [fields, List.mem_map, Prod.exists, exists_and_right, exists_eq_right, hpair]
      have hnodup : (reply.toList.map Prod.fst).Nodup := by
        rw [Std.ExtTreeMap.map_fst_toList_eq_keys]
        exact reply.nodup_keys
      rw [getElem?_foldl_insert _ hnodup, hpair, hfield, howner, owner_append]

/-- `PushMsgByMids` inverts the map that it has made of the hashes. -/
theorem pushMsgByMids_eq (env : Env) (mids : List Int) (op : Int) (msg : Bytes)
    (cb : Option Nat) :
    ∃ keyServer : StringMap,
      (∀ key server, keyServer[key]? = some server ↔ Owner env.redis mids key server) ∧
      pushMsgByMids env mids op msg cb = pushGroups env.serverOrder
        (group ((env.keyOrder.elements keyServer).map Prod.swap)) op msg cb := by
  obtain ⟨keyServer, hfold, howner⟩ := foldlM_addKeyServer_ok env mids
  exact ⟨keyServer, howner, by simp only [pushMsgByMids, hfold, ok_bind]⟩

/-- The keys in the map are the fields of the hashes. -/
theorem mem_of_owners {redis : Content} {mids : List Int} {keyServer : StringMap}
    (h : ∀ key server, keyServer[key]? = some server ↔ Owner redis mids key server) (key : Bytes) :
    key ∈ keyServer ↔ ∃ mid ∈ mids, key ∈ fields redis mid := by
  rw [Std.ExtTreeMap.mem_iff_isSome_getElem?, Option.isSome_iff_exists, ← exists_owner_iff]
  exact exists_congr fun server => h key server

theorem pushMsgByMids_ok (env : Env) (mids : List Int) (op : Int) (msg : Bytes)
    (cb : Option Nat) :
    ∃ ms, pushMsgByMids env mids op msg cb = .ok ms ∧ (∀ m ∈ ms, m.cb = cb) ∧
      (ms = [] ↔ ∀ mid ∈ mids, env.redis.hashes (keyMidServer mid) = []) := by
  obtain ⟨keyServer, howner, heq⟩ := pushMsgByMids_eq env mids op msg cb
  obtain ⟨ms, hms, hcb, hnil⟩ := pushGroups_ok env.serverOrder
    ((env.keyOrder.elements keyServer).map Prod.swap) op msg cb
  refine ⟨ms, heq.trans hms, hcb, ?_⟩
  rw [hnil, List.map_eq_nil_iff, HashOrder.elements_eq_nil_iff,
    Std.ExtTreeMap.eq_empty_iff_forall_not_mem]
  simp only [mem_of_owners howner, fields, not_exists, not_and]
  constructor
  · intro h mid hmid
    exact List.map_eq_nil_iff.mp (List.eq_nil_iff_forall_not_mem.mpr fun key => h key mid hmid)
  · intro h key mid hmid
    simp [h mid hmid]

/-! ## What a handler does -/

/-- The parameter is a number. -/
def HasNumber (request : HttpRequest) (name : String) : Prop :=
  ∃ text n, request.querys_[bytes name]? = some text ∧ stoi text = .ok n

/-- The parameter is a number other than zero. -/
def HasNonzero (request : HttpRequest) (name : String) : Prop :=
  ∃ text n, request.querys_[bytes name]? = some text ∧ stoi text = .ok n ∧ n ≠ 0

def HasText (request : HttpRequest) (name : String) : Prop :=
  ∃ text, request.querys_[bytes name]? = some text

def HasNonempty (request : HttpRequest) (name : String) : Prop :=
  ∃ text, request.querys_[bytes name]? = some text ∧ text ≠ []

/-- The elements of a comma-separated parameter are numbers. -/
def ListsNumbers (request : HttpRequest) (name : String) : Prop :=
  ∃ text, request.querys_[bytes name]? = some text ∧
    ∀ elem ∈ split text (bytes ","), ∃ n, stoi elem = .ok n

/-- The handler can read its parameters. -/
def Handler.Reads : Handler → HttpRequest → Prop
  | .keys, request => HasNumber request "operation" ∧ HasText request "keys"
  | .mids, request => HasNumber request "operation" ∧ ListsNumbers request "mids"
  | .room, request =>
    HasNumber request "operation" ∧ HasText request "type" ∧ HasText request "room"
  | .all, request => HasNumber request "operation" ∧ HasNumber request "speed"

/-- No number is zero and no text empty. -/
def Handler.Passes : Handler → HttpRequest → Prop
  | .keys, request => HasNonzero request "operation" ∧ HasNonempty request "keys"
  | .mids, request => HasNonzero request "operation" ∧ HasNonempty request "mids"
  | .room, request =>
    HasNonzero request "operation" ∧ HasNonempty request "type" ∧ HasNonempty request "room"
  | .all, request => HasNonzero request "operation" ∧ HasNonzero request "speed"

/-- No mid of the request has a key in Redis. -/
def Nobody (env : Env) (request : HttpRequest) : Prop :=
  ∀ text, request.querys_[bytes "mids"]? = some text → ∀ elem ∈ split text (bytes ","),
    ∀ mid, stoi elem = .ok mid → env.redis.hashes (keyMidServer mid) = []

theorem getQuery_cases (request : HttpRequest) (name : String) :
    (∃ text, request.querys_[bytes name]? = some text ∧
      request.getQuery (bytes name) = .ok text) ∨
    (request.querys_[bytes name]? = none ∧ ∃ e, request.getQuery (bytes name) = .error e) := by
  unfold HttpRequest.getQuery
  cases request.querys_[bytes name]? with
  | none => exact Or.inr ⟨rfl, _, rfl⟩
  | some text => exact Or.inl ⟨text, rfl, rfl⟩

theorem number_cases (request : HttpRequest) (name : String) :
    (∃ text n, request.querys_[bytes name]? = some text ∧ stoi text = .ok n ∧
      number request name = .ok n) ∨
    (¬ HasNumber request name ∧ ∃ e, number request name = .error e) := by
  rcases getQuery_cases request name with ⟨text, htext, hget⟩ | ⟨hnone, e, hget⟩
  · simp only [number, hget, ok_bind]
    cases hn : stoi text with
    | ok n => exact Or.inl ⟨text, n, htext, hn, rfl⟩
    | error e =>
      refine Or.inr ⟨?_, e, rfl⟩
      rintro ⟨text', n, htext', hn'⟩
      rw [htext] at htext'
      cases htext'
      rw [hn] at hn'
      cases hn'
  · refine Or.inr ⟨?_, e, by simp [number, hget]⟩
    rintro ⟨text, n, htext, -⟩
    simp [hnone] at htext

theorem hasNonzero_iff {request : HttpRequest} {name : String} {text : Bytes} {n : Int}
    (htext : request.querys_[bytes name]? = some text) (hn : stoi text = .ok n) :
    HasNonzero request name ↔ n ≠ 0 := by
  constructor
  · rintro ⟨text', n', htext', hn', hne⟩
    rw [htext] at htext'
    cases htext'
    rw [hn] at hn'
    cases hn'
    exact hne
  · intro hne
    exact ⟨text, n, htext, hn, hne⟩

theorem hasNonempty_iff {request : HttpRequest} {name : String} {text : Bytes}
    (htext : request.querys_[bytes name]? = some text) :
    HasNonempty request name ↔ text ≠ [] := by
  constructor
  · rintro ⟨text', htext', hne⟩
    rw [htext] at htext'
    cases htext'
    exact hne
  · intro hne
    exact ⟨text, htext, hne⟩

/-- What a handler can do: it faults where a parameter cannot be read, answers 404
where one is refused, and produces its messages otherwise. -/
structure Spec (h : Handler) (env : Env) (context : Option Nat) (request : HttpRequest)
    (response : HttpResponse) (result : Except Fault Handled) : Prop where
  unread : ¬ h.Reads request → ∃ e, result = .error e
  refused : h.Reads request → ¬ h.Passes request → result = .ok (notFound response)
  produced : h.Reads request → h.Passes request → ∃ ms,
    result = .ok { response := response, produced := ms } ∧
    (h ≠ .mids → ∀ m ∈ ms, m.cb = none) ∧
    (h = .mids → (∀ m ∈ ms, m.cb = context) ∧ (ms = [] ↔ Nobody env request))

section

variable {env : Env} {context : Option Nat} {request : HttpRequest} {response : HttpResponse}

theorem Spec.of_unread {h : Handler} {e : Fault} (hreads : ¬ h.Reads request) :
    Spec h env context request response (.error e) :=
  ⟨fun _ => ⟨e, rfl⟩, fun hr => absurd hr hreads, fun hr => absurd hr hreads⟩

/-- A handler that has read its parameters tests them. -/
theorem Spec.of_test {h : Handler} {p : Prop} [Decidable p] {push : Except Fault Handled}
    (hreads : h.Reads request) (hpass : h.Passes request ↔ p)
    (hpush : ∃ ms, push = .ok { response := response, produced := ms } ∧
      (h ≠ .mids → ∀ m ∈ ms, m.cb = none) ∧
      (h = .mids → (∀ m ∈ ms, m.cb = context) ∧ (ms = [] ↔ Nobody env request))) :
    Spec h env context request response (if p then push else pure (notFound response)) := by
  refine ⟨fun hr => absurd hreads hr, fun _ hno => ?_, fun _ hyes => ?_⟩
  · rw [if_neg (hno ∘ hpass.mpr)]
    rfl
  · rw [if_pos (hpass.mp hyes)]
    exact hpush

theorem pushMsgByKeysHandler_spec :
    Spec .keys env context request response (pushMsgByKeysHandler env request response) := by
  unfold pushMsgByKeysHandler
  rcases number_cases request "operation" with ⟨optext, op, hop, hopn, hnum⟩ | ⟨hnot, e, hnum⟩
  · rcases getQuery_cases request "keys" with ⟨text, htext, hget⟩ | ⟨hnone, e, hget⟩
    · have hpass : Handler.keys.Passes request ↔ text ≠ [] ∧ op ≠ 0 := by
        rw [Handler.Passes, hasNonzero_iff hop hopn, hasNonempty_iff htext, and_comm]
      simp only [hnum, hget, ok_bind, ne_eq, split_eq_nil_iff]
      have hreads : Handler.keys.Reads request := ⟨⟨optext, op, hop, hopn⟩, text, htext⟩
      obtain ⟨ms, hms, hcb⟩ := pushMsgByKeys_ok env (split text (bytes ",")) op request.body_
      rw [hms]
      exact Spec.of_test hreads hpass ⟨ms, rfl, fun _ => hcb, fun h => by cases h⟩
    · simp only [hnum, hget, ok_bind, error_bind]
      apply Spec.of_unread
      rintro ⟨-, text, htext⟩
      simp [hnone] at htext
  · simp only [hnum, error_bind]
    exact Spec.of_unread fun h => hnot h.1

theorem pushMsgByMidsHandler_spec :
    Spec .mids env context request response
      (pushMsgByMidsHandler env context request response) := by
  unfold pushMsgByMidsHandler
  rcases number_cases request "operation" with ⟨optext, op, hop, hopn, hnum⟩ | ⟨hnot, e, hnum⟩
  · rcases getQuery_cases request "mids" with ⟨text, htext, hget⟩ | ⟨hnone, e, hget⟩
    · rcases mapM_cases stoi (split text (bytes ",")) with
        ⟨⟨mids, hmids, hmem⟩, hall⟩ | ⟨⟨e, he⟩, hnot⟩
      · have hpass : Handler.mids.Passes request ↔ text ≠ [] ∧ op ≠ 0 := by
          rw [Handler.Passes, hasNonzero_iff hop hopn, hasNonempty_iff htext, and_comm]
        have hnobody : (∀ mid ∈ mids, env.redis.hashes (keyMidServer mid) = []) ↔
            Nobody env request := by
          simp only [Nobody, htext, Option.some.injEq, forall_eq', hmem]
          constructor
          · intro h elem helem mid hmid
            exact h mid ⟨elem, helem, hmid⟩
          · rintro h mid ⟨elem, helem, hmid⟩
            exact h elem helem mid hmid
        simp only [hnum, hget, hmids, ok_bind, ne_eq, split_eq_nil_iff]
        have hreads : Handler.mids.Reads request := ⟨⟨optext, op, hop, hopn⟩, text, htext, hall⟩
        obtain ⟨ms, hms, hcb, hnil⟩ := pushMsgByMids_ok env mids op request.body_ context
        rw [hms]
        exact Spec.of_test hreads hpass
          ⟨ms, rfl, fun h => absurd rfl h, fun _ => ⟨hcb, hnil.trans hnobody⟩⟩
      · simp only [hnum, hget, he, ok_bind, error_bind]
        apply Spec.of_unread
        rintro ⟨-, text', htext', hall⟩
        rw [htext] at htext'
        cases htext'
        exact hnot hall
    · simp only [hnum, hget, ok_bind, error_bind]
      apply Spec.of_unread
      rintro ⟨-, text, htext, -⟩
      simp [hnone] at htext
  · simp only [hnum, error_bind]
    exact Spec.of_unread fun h => hnot h.1

theorem pushMsgByRoomHandler_spec :
    Spec .room env context request response (pushMsgByRoomHandler request response) := by
  unfold pushMsgByRoomHandler
  rcases number_cases request "operation" with ⟨optext, op, hop, hopn, hnum⟩ | ⟨hnot, e, hnum⟩
  · rcases getQuery_cases request "type" with ⟨type, htype, hget⟩ | ⟨hnone, e, hget⟩
    · rcases getQuery_cases request "room" with ⟨room, hroom, hgetr⟩ | ⟨hnone, e, hgetr⟩
      · have hpass : Handler.room.Passes request ↔ type ≠ [] ∧ op ≠ 0 ∧ room ≠ [] := by
          rw [Handler.Passes, hasNonzero_iff hop hopn, hasNonempty_iff htype,
            hasNonempty_iff hroom, and_left_comm]
        simp only [hnum, hget, hgetr, ok_bind]
        have hreads : Handler.room.Reads request :=
          ⟨⟨optext, op, hop, hopn⟩, ⟨type, htype⟩, room, hroom⟩
        exact Spec.of_test hreads hpass
          ⟨_, rfl, fun _ => by simp [pushMsgByRoom], fun h => by cases h⟩
      · simp only [hnum, hget, hgetr, ok_bind, error_bind]
        apply Spec.of_unread
        rintro ⟨-, -, room, hroom⟩
        simp [hnone] at hroom
    · simp only [hnum, hget, ok_bind, error_bind]
      apply Spec.of_unread
      rintro ⟨-, ⟨type, htype⟩, -⟩
      simp [hnone] at htype
  · simp only [hnum, error_bind]
    exact Spec.of_unread fun h => hnot h.1

theorem pushMsgToAllHandler_spec :
    Spec .all env context request response (pushMsgToAllHandler request response) := by
  unfold pushMsgToAllHandler
  rcases number_cases request "operation" with ⟨optext, op, hop, hopn, hnum⟩ | ⟨hnot, e, hnum⟩
  · rcases number_cases request "speed" with ⟨sptext, sp, hsp, hspn, hnums⟩ | ⟨hnot, e, hnums⟩
    · have hpass : Handler.all.Passes request ↔ op ≠ 0 ∧ sp ≠ 0 := by
        rw [Handler.Passes, hasNonzero_iff hop hopn, hasNonzero_iff hsp hspn]
      simp only [hnum, hnums, ok_bind]
      have hreads : Handler.all.Reads request := ⟨⟨optext, op, hop, hopn⟩, sptext, sp, hsp, hspn⟩
      exact Spec.of_test hreads hpass
        ⟨_, rfl, fun _ => by simp [pushMsgToAll], fun h => by cases h⟩
    · simp only [hnum, hnums, ok_bind, error_bind]
      exact Spec.of_unread fun h => hnot h.2
  · simp only [hnum, error_bind]
    exact Spec.of_unread fun h => hnot h.1

/-- **The four handlers.** -/
theorem Handler.run_spec (h : Handler) :
    Spec h env context request response (h.run env context request response) := by
  cases h with
  | keys => exact pushMsgByKeysHandler_spec
  | mids => exact pushMsgByMidsHandler_spec
  | room => exact pushMsgByRoomHandler_spec
  | all => exact pushMsgToAllHandler_spec

/-- The same, by cases. -/
theorem Handler.run_cases (h : Handler) :
    (¬ h.Reads request ∧ ∃ e, h.run env context request response = .error e) ∨
    (h.Reads request ∧ ¬ h.Passes request ∧
      h.run env context request response = .ok (notFound response)) ∨
    (h.Reads request ∧ h.Passes request ∧ ∃ ms,
      h.run env context request response = .ok { response := response, produced := ms } ∧
      (h ≠ .mids → ∀ m ∈ ms, m.cb = none) ∧
      (h = .mids → (∀ m ∈ ms, m.cb = context) ∧ (ms = [] ↔ Nobody env request))) := by
  have hspec : Spec h env context request response (h.run env context request response) :=
    h.run_spec
  by_cases hr : h.Reads request
  · by_cases hp : h.Passes request
    · exact Or.inr (Or.inr ⟨hr, hp, hspec.produced hr hp⟩)
    · exact Or.inr (Or.inl ⟨hr, hp, hspec.refused hr hp⟩)
  · exact Or.inl ⟨hr, hspec.unread hr⟩

/-- A message carries the callback of its own request or none. -/
theorem Handler.run_cb {h : Handler} {handled : Handled}
    (hrun : h.run env context request response = .ok handled) (m : Message)
    (hm : m ∈ handled.produced) : m.cb = none ∨ m.cb = context := by
  rcases h.run_cases with ⟨-, e, he⟩ | ⟨-, -, hn⟩ | ⟨-, -, ms, hms, hnone, hcb⟩
  · rw [he] at hrun
    cases hrun
  · rw [hn] at hrun
    cases hrun
    cases hm
  · rw [hms] at hrun
    cases hrun
    by_cases hmids : h = .mids
    · exact Or.inr ((hcb hmids).1 m hm)
    · exact Or.inl (hnone hmids m hm)

end

end Cppim.Logic
