import Cppim.Lib.Transition
import Cppim.Logic.Service
import Cppim.Redis.Commands

/-! `LogicServiceImpl::Connect` and `Disconnect` on the content of Redis.

A client is registered twice: the hash `mid_m` leads from its user to its key and
`key_k` from the key to its gate. What both together are for is a list of registrations
(`Entry`), and `Represents` says that the two indexes hold exactly these. -/

namespace Cppim.Logic.Registration

open Cppim.Common Cppim.Protocol Cppim.Redis Cppim.Lib.Transition

/-! ## The calls -/

/-- `Disconnect`. The parameter of `keyMidServer` has 32 bits. -/
def disconnect (request : DisconnectReq) : List Command :=
  [text [bytes "HDEL", keyMidServer (request.mid.setWidth 32).toInt, request.key],
    text [bytes "DEL", keyKeyServer request.key]]

/-- What the gate sends for a session that got `reply`: `UserSession` keeps 32 bits of
the `mid`. -/
def farewell (request : ConnectReq) (reply : ConnectReply) : DisconnectReq where
  mid := (reply.mid.setWidth 32).signExtend 64
  key := reply.key
  server := request.server

/-- A call of `Connect` that has returned. -/
structure Call where
  request : ConnectReq
  outcome : Outcome

structure State where
  redis : Content := .empty
  statics : Option KeyGen := none
  calls : List Call := []
  /-- the calls whose client has left -/
  disconnected : List Nat := []

inductive Label where
  | connect (clock : List (BitVec 64)) (request : ConnectReq)
  /-- `Disconnect` for the client of call `i` -/
  | disconnect (i : Nat)
  deriving Repr, DecidableEq

def step (cfg : Config) (st : State) : Label → Option State
  | .connect clock request =>
    (connect cfg st.statics clock request).map fun o =>
      { st with
        redis := st.redis.pipeLine o.commands
        statics := o.statics
        calls := st.calls ++ [⟨request, o⟩] }
  | .disconnect i =>
    st.calls[i]?.map fun call =>
      { st with
        redis := st.redis.pipeLine (disconnect (farewell call.request call.outcome.response))
        disconnected := st.disconnected ++ [i] }

/-- The keys that `generateKey` has issued differ. -/
def DistinctKeys (st : State) : Prop :=
  ∀ (i j : Nat) ci cj key, st.calls[i]? = some ci → st.calls[j]? = some cj →
    ci.outcome.issued = some key → cj.outcome.issued = some key → i = j

/-- The ids of the gates are words. -/
def WordServers (st : State) : Prop := ∀ call ∈ st.calls, IsWord call.request.server

theorem wordServers_of_map {st : State} {servers : List Bytes}
    (h : (st.calls.map fun call => call.request.server) = servers)
    (hwords : ∀ server ∈ servers, IsWord server) : WordServers st := by
  intro call hcall
  apply hwords
  rw [← h]
  exact List.mem_map_of_mem hcall

/-! ## The two indexes -/

/-- Exactly one hash has the field, with this value. -/
def OnlyIn (redis : Content) (key server : Bytes) : Prop :=
  ∃ mid : BitVec 32, (key, server) ∈ redis.hashes (keyMidServer mid.toInt) ∧
    ∀ (mid' : BitVec 32) server', (key, server') ∈ redis.hashes (keyMidServer mid'.toInt) →
      mid' = mid ∧ server' = server

def InStep (redis : Content) : Prop :=
  ∀ key server, redis.strings (keyKeyServer key) = some server ↔ OnlyIn redis key server

/-- Neither index mentions the key. -/
def Unmentioned (redis : Content) (key : Bytes) : Prop :=
  redis.strings (keyKeyServer key) = none ∧
    ∀ (mid : BitVec 32) server, (key, server) ∉ redis.hashes (keyMidServer mid.toInt)

/-- A registration. -/
structure Entry where
  mid : BitVec 32
  key : Bytes
  server : Bytes
  deriving Repr, DecidableEq

/-- No string stands under the name of a hash. -/
def Kinds (redis : Content) : Prop :=
  ∀ mid : BitVec 32, redis.strings (keyMidServer mid.toInt) = none

/-- Redis holds the registrations of a list in both indexes, and no others. -/
structure Represents (redis : Content) (es : List Entry) : Prop where
  keys : ∀ key server, redis.strings (keyKeyServer key) = some server ↔
    ∃ mid, ⟨mid, key, server⟩ ∈ es
  mids : ∀ (mid : BitVec 32) key server,
    (key, server) ∈ redis.hashes (keyMidServer mid.toInt) ↔ ⟨mid, key, server⟩ ∈ es
  kinds : Kinds redis
  words : ∀ e ∈ es, IsWord e.key

theorem keyKeyServer_inj {key key' : Bytes} :
    keyKeyServer key = keyKeyServer key' ↔ key = key' := by
  simp [keyKeyServer]

theorem keyMidServer_inj {mid mid' : BitVec 32} :
    keyMidServer mid.toInt = keyMidServer mid'.toInt ↔ mid = mid' := by
  constructor
  · intro h
    exact BitVec.toInt_inj.mp (formatInt_injective (List.append_cancel_left h))
  · rintro rfl
    rfl

theorem keyMidServer_ne (mid : Int) (key : Bytes) : keyMidServer mid ≠ keyKeyServer key := by
  intro h
  have hhead : (109 : UInt8) = 107 := Option.some.inj (congrArg List.head? h)
  exact absurd hhead (by decide)

theorem represents_empty : Represents .empty [] where
  keys := by simp [Content.empty]
  mids := by simp [Content.empty]
  kinds := fun _ => rfl
  words := by simp

/-! ### The pipelines -/

/-- A key that was issued is a word, and without one it is empty. -/
def Plain (key : Bytes) : Prop := key = [] ∨ IsWord key

theorem isWord_keyMidServer (mid : Int) : IsWord (keyMidServer mid) :=
  isWord_append (by decide) (isWord_formatInt mid).2

theorem isWord_keyKeyServer {key : Bytes} (h : Plain key) : IsWord (keyKeyServer key) := by
  refine isWord_append (by decide) ?_
  rcases h with rfl | h
  · simp
  · exact h.2

/-- The words of the commands of `addServerMap`. -/
theorem words_addServerMap {mid : BitVec 32} {key server : Bytes} (hkey : IsWord key)
    (hserver : IsWord server) :
    (addServerMap mid key server).map words =
      [[bytes "HSET", keyMidServer mid.toInt, key, server],
        [bytes "EXPIRE", keyMidServer mid.toInt, formatInt (30 * 60)],
        [bytes "SET", keyKeyServer key, server],
        [bytes "EXPIRE", keyKeyServer key, formatInt (30 * 60)]] := by
  have hmid := isWord_keyMidServer mid.toInt
  have hname := isWord_keyKeyServer (Or.inr hkey)
  have hseconds : IsWord (formatInt 1800) := isWord_formatInt 1800
  have hcommands : IsWord (bytes "HSET") ∧ IsWord (bytes "EXPIRE") ∧ IsWord (bytes "SET") := by
    decide
  simp only [addServerMap, List.map_cons, List.map_nil]
  rw [words_text_of_isWord, words_text_of_isWord, words_text_of_isWord, words_text_of_isWord]
  all_goals simp [hmid, hname, hseconds, hcommands, hkey, hserver]

/-- The words of the commands of `Disconnect`: an empty key is not a word. -/
theorem words_disconnect {request : DisconnectReq} (hkey : Plain request.key) :
    (disconnect request).map words =
      [[bytes "HDEL", keyMidServer (request.mid.setWidth 32).toInt, request.key].filter (· ≠ []),
        [bytes "DEL", keyKeyServer request.key]] := by
  have hmid := isWord_keyMidServer (request.mid.setWidth 32).toInt
  have hname := isWord_keyKeyServer hkey
  have hcommands : IsWord (bytes "HDEL") ∧ IsWord (bytes "DEL") := by decide
  have hfree : 32 ∉ request.key ∧ 0 ∉ request.key := by
    rcases hkey with hnil | hword
    · simp [hnil]
    · exact hword.free
  simp only [disconnect, List.map_cons, List.map_nil]
  generalize keyMidServer (request.mid.setWidth 32).toInt = mid at hmid ⊢
  rw [words_text, words_text_of_isWord]
  all_goals simp [hmid.free, hname, hcommands.1.free, hcommands.2, hfree]

theorem pipeLine_eq (redis : Content) (commands : List Command) :
    redis.pipeLine commands = (commands.map words).foldl Content.execute redis :=
  List.foldl_map.symm

/-- The commands that are executed by `addServerMap`; nothing expires. -/
theorem pipeLine_addServerMap (redis : Content) {mid : BitVec 32} {key server : Bytes}
    (hkey : IsWord key) (hserver : IsWord server) :
    redis.pipeLine (addServerMap mid key server) =
      (redis.hset (keyMidServer mid.toInt) key server).set (keyKeyServer key) server := by
  have hexpire : bytes "EXPIRE" ≠ bytes "SET" ∧ bytes "EXPIRE" ≠ bytes "HDEL" := by decide
  rw [pipeLine_eq, words_addServerMap hkey hserver]
  simp [Content.execute, hexpire]

/-- `HDEL` without a field is refused. -/
theorem pipeLine_disconnect (redis : Content) {request : DisconnectReq}
    (hkey : Plain request.key) :
    redis.pipeLine (disconnect request) =
      (if request.key = [] then redis
        else redis.hdel (keyMidServer (request.mid.setWidth 32).toInt) request.key).del
        (keyKeyServer request.key) := by
  have hhdel : bytes "HDEL" ≠ bytes "SET" ∧ bytes "HDEL" ≠ bytes "DEL" := by decide
  have hmid := (isWord_keyMidServer (request.mid.setWidth 32).toInt).1
  have hcommand : bytes "HDEL" ≠ [] := by decide
  rw [pipeLine_eq, words_disconnect hkey]
  generalize keyMidServer (request.mid.setWidth 32).toInt = mid at hmid ⊢
  by_cases hnil : request.key = []
  · simp [hnil, hmid, hcommand, Content.execute, hhdel]
  · simp [hnil, hmid, hcommand, Content.execute, hhdel]

theorem strings_disconnect (redis : Content) {request : DisconnectReq} (hkey : Plain request.key)
    (name : Bytes) :
    (redis.pipeLine (disconnect request)).strings name =
      if name = keyKeyServer request.key then none else redis.strings name := by
  rw [pipeLine_disconnect redis hkey, Content.strings_del]
  split
  · rfl
  · split <;> rfl

theorem Kinds.add {redis : Content} (h : Kinds redis) (mid : BitVec 32) {key server : Bytes}
    (hkey : IsWord key) (hserver : IsWord server) :
    Kinds (redis.pipeLine (addServerMap mid key server)) := by
  intro m
  rw [pipeLine_addServerMap redis hkey hserver, Content.strings_set,
    if_neg (keyMidServer_ne _ _), Content.strings_hset, h]

theorem Kinds.remove {redis : Content} (h : Kinds redis) {request : DisconnectReq}
    (hkey : Plain request.key) : Kinds (redis.pipeLine (disconnect request)) := by
  intro m
  rw [strings_disconnect redis hkey, if_neg (keyMidServer_ne _ _), h]

/-- What `addServerMap` leaves in the hashes. -/
theorem mem_hashes_addServerMap {redis : Content} (h : Kinds redis) (m : BitVec 32)
    {k s : Bytes} (hk : IsWord k) (hs : IsWord s) (mid : BitVec 32) (key server : Bytes) :
    (key, server) ∈ (redis.pipeLine (addServerMap m k s)).hashes (keyMidServer mid.toInt) ↔
      (mid = m ∧ key = k ∧ server = s) ∨
        ((key, server) ∈ redis.hashes (keyMidServer mid.toInt) ∧ ¬ (mid = m ∧ key = k)) := by
  rw [pipeLine_addServerMap redis hk hs, Content.hashes_set_of_ne _ (keyMidServer_ne _ _),
    Content.mem_hashes_hset _ (h m), keyMidServer_inj, Prod.mk.injEq]

namespace Represents

variable {redis : Content} {es : List Entry}

/-- Different keys keep the indexes in step. -/
theorem inStep (h : Represents redis es) (hnodup : (es.map Entry.key).Nodup) : InStep redis := by
  intro key server
  rw [h.keys]
  constructor
  · rintro ⟨mid, hin⟩
    refine ⟨mid, (h.mids mid key server).mpr hin, fun mid' server' hin' => ?_⟩
    have heq := List.inj_on_of_nodup_map hnodup ((h.mids mid' key server').mp hin') hin rfl
    simpa using heq
  · rintro ⟨mid, hin, -⟩
    exact ⟨mid, (h.mids mid key server).mp hin⟩

theorem unmentioned (h : Represents redis es) {key : Bytes} (hkey : ∀ e ∈ es, e.key ≠ key) :
    Unmentioned redis key := by
  constructor
  · rw [Option.eq_none_iff_forall_ne_some]
    intro server hserver
    obtain ⟨mid, hin⟩ := (h.keys key server).mp hserver
    exact hkey _ hin rfl
  · intro mid server hin
    exact hkey _ ((h.mids mid key server).mp hin) rfl

/-- `addServerMap` with a new key. -/
theorem add (h : Represents redis es) {e : Entry} (hkey : IsWord e.key) (hserver : IsWord e.server)
    (hnew : ∀ e' ∈ es, e'.key ≠ e.key) :
    Represents (redis.pipeLine (addServerMap e.mid e.key e.server)) (es ++ [e]) := by
  obtain ⟨m, k, s⟩ := e
  have hmem : ∀ mid key server, (⟨mid, key, server⟩ : Entry) ∈ es ++ [⟨m, k, s⟩] ↔
      ⟨mid, key, server⟩ ∈ es ∨ (mid = m ∧ key = k ∧ server = s) := by
    simp
  constructor
  · intro key server
    simp only [pipeLine_addServerMap redis hkey hserver, Content.strings_set, keyKeyServer_inj,
      Content.strings_hset, hmem]
    split
    · rename_i heq
      subst heq
      have hno : ∀ mid server, (⟨mid, key, server⟩ : Entry) ∉ es := fun mid server hin =>
        hnew _ hin rfl
      simp [hno, eq_comm]
    · rename_i hne
      simp [h.keys, hne]
  · intro mid key server
    rw [mem_hashes_addServerMap h.kinds m hkey hserver, h.mids, hmem]
    -- a field that is replaced would be of a key in use
    have hold : (⟨mid, key, server⟩ : Entry) ∈ es → ¬ (mid = m ∧ key = k) := fun hin heq =>
      hnew _ hin heq.2
    rw [or_comm, and_iff_left_of_imp hold]
  · exact h.kinds.add m hkey hserver
  · exact List.forall_mem_append.mpr ⟨h.words, by simpa using hkey⟩

/-- What `Disconnect` leaves in the hashes. No field is empty, so nothing is missing without
a key. -/
theorem mem_hashes_disconnect (h : Represents redis es) {request : DisconnectReq}
    (hkey : Plain request.key) (mid : BitVec 32) (key server : Bytes) :
    (key, server) ∈ (redis.pipeLine (disconnect request)).hashes (keyMidServer mid.toInt) ↔
      ⟨mid, key, server⟩ ∈ es ∧ ¬ (mid = request.mid.setWidth 32 ∧ key = request.key) := by
  rw [pipeLine_disconnect redis hkey, Content.hashes_del_of_ne _ (keyMidServer_ne _ _)]
  split
  · rename_i hnil
    rw [h.mids, hnil]
    exact (and_iff_left_of_imp fun hin heq => (h.words _ hin).1 heq.2).symm
  · rw [Content.mem_hashes_hdel, keyMidServer_inj, h.mids]

/-- `Disconnect` with the `mid` under which the key was registered. -/
theorem remove (h : Represents redis es) {request : DisconnectReq} (hkey : Plain request.key)
    (hmid : ∀ e ∈ es, e.key = request.key → e.mid = request.mid.setWidth 32) :
    Represents (redis.pipeLine (disconnect request))
      (es.filter fun e => e.key ≠ request.key) := by
  constructor
  · intro key server
    simp only [strings_disconnect redis hkey, keyKeyServer_inj, List.mem_filter,
      decide_eq_true_eq]
    split
    · rename_i heq
      simp [heq]
    · rename_i hne
      simp [h.keys, hne]
  · intro mid key server
    rw [h.mem_hashes_disconnect hkey, List.mem_filter, decide_eq_true_eq]
    refine and_congr_right fun hin => not_congr ⟨And.right, fun heq => ⟨hmid _ hin heq, heq⟩⟩
  · exact h.kinds.remove hkey
  · exact fun e he => h.words e (List.mem_filter.mp he).1

end Represents

/-! ## What a call registers -/

/-- The registration of an accepted token. -/
def entry (cfg : Config) (call : Call) : Option Entry :=
  if call.outcome.accepted then do
    let j ← cfg.parse call.request.token
    let mid ← (j.get Json.toInt (bytes "mid")).toOption
    return ⟨mid, call.outcome.response.key, call.request.server⟩
  else none

/-- A token that is accepted with `true` for its `mid`: the reply says 0, the hash is
that of 1. -/
def TrueMid (cfg : Config) (call : Call) : Prop :=
  call.outcome.accepted = true ∧
    ∃ j, cfg.parse call.request.token = some j ∧ j.find (bytes "mid") = some (.boolean true)

theorem entry_of_accepted {cfg : Config} {call : Call} {j : Json} {mid : BitVec 32}
    (haccepted : call.outcome.accepted = true) (hparse : cfg.parse call.request.token = some j)
    (hmid : j.get Json.toInt (bytes "mid") = .ok mid) :
    entry cfg call = some ⟨mid, call.outcome.response.key, call.request.server⟩ := by
  rw [entry, if_pos haccepted, hparse]
  show (j.get Json.toInt (bytes "mid")).toOption.bind _ = _
  rw [hmid]
  rfl

theorem entry_of_trueMid {cfg : Config} {call : Call} (h : TrueMid cfg call) :
    ∃ e, entry cfg call = some e := by
  obtain ⟨haccepted, j, hparse, hfind⟩ := h
  cases j with
  | object fields =>
    change fields.lookup (bytes "mid") = some (.boolean true) at hfind
    have hmid : (Json.object fields).get Json.toInt (bytes "mid") = .ok 1 := by
      show Json.toInt ((fields.lookup (bytes "mid")).getD .null) = .ok 1
      rw [hfind]
      rfl
    exact ⟨_, entry_of_accepted haccepted hparse hmid⟩
  | _ => cases hfind

/-- What the calls have in common: nothing is written, or what is registered. -/
theorem commands_of_ends {cfg : Config} {statics : Option KeyGen} {clock : List (BitVec 64)}
    {request : ConnectReq} {o : Outcome} (h : Ends cfg statics clock request o) :
    (entry cfg ⟨request, o⟩ = none ∧ o.commands = []) ∨
    ∃ e, entry cfg ⟨request, o⟩ = some e ∧ o.commands = addServerMap e.mid e.key e.server ∧
      o.issued = some e.key ∧ e.server = request.server := by
  cases h with
  | accepted j room gen key accepts mid hparse hroom hkey haccepts hmid =>
    exact Or.inr ⟨⟨mid, key, request.server⟩, entry_of_accepted rfl hparse hmid, rfl, rfl, rfl⟩
  | _ => exact Or.inl ⟨by simp [entry], rfl⟩

theorem isWord_issued {cfg : Config} {statics : Option KeyGen} {clock : List (BitVec 64)}
    {request : ConnectReq} {o : Outcome} (h : Ends cfg statics clock request o) {key : Bytes}
    (hkey : o.issued = some key) : IsWord key := by
  obtain ⟨n, rfl⟩ := h.issued_decimal hkey
  exact isWord_decimal n.toNat

/-- The key that comes back with a `Disconnect`. -/
theorem plain_farewell {cfg : Config} {statics : Option KeyGen} {clock : List (BitVec 64)}
    {request : ConnectReq} {o : Outcome} (h : Ends cfg statics clock request o) :
    Plain (farewell request o.response).key := by
  show Plain o.response.key
  rw [h.key_eq]
  cases hissued : o.issued with
  | none => exact Or.inl rfl
  | some key => exact Or.inr (isWord_issued h hissued)

theorem setWidth_signExtend (mid : BitVec 32) : (mid.signExtend 64).setWidth 32 = mid := by
  apply BitVec.eq_of_getLsbD_eq
  intro i hi
  rw [BitVec.getLsbD_setWidth, BitVec.getLsbD_signExtend]
  simp [hi]
  omega

/-- Numbers and booleans have an `int`. -/
theorem find_of_toInt {j : Json} {name : Bytes} {n : BitVec 32}
    (h : j.get Json.toInt name = .ok n) :
    j.find name = some (.number n) ∨
      ∃ b, j.find name = some (.boolean b) ∧ n = if b then 1 else 0 := by
  cases j with
  | object fields =>
    change Json.toInt ((fields.lookup name).getD .null) = .ok n at h
    show fields.lookup name = _ ∨ ∃ b, fields.lookup name = _ ∧ _
    cases hv : fields.lookup name with
    | none =>
      rw [hv] at h
      cases h
    | some v =>
      rw [hv] at h
      cases v with
      | number m =>
        cases h
        exact Or.inl rfl
      | boolean b =>
        cases h
        exact Or.inr ⟨b, rfl, rfl⟩
      | _ => cases h
  | _ => cases h

/-- The `mid` that comes back with a `Disconnect` is the one that was registered, except
for `true`. -/
theorem farewell_mid_eq_iff {cfg : Config} {statics : Option KeyGen} {clock : List (BitVec 64)}
    {request : ConnectReq} {o : Outcome} {e : Entry} (h : Ends cfg statics clock request o)
    (he : entry cfg ⟨request, o⟩ = some e) :
    (farewell request o.response).mid.setWidth 32 = e.mid ↔ ¬ TrueMid cfg ⟨request, o⟩ := by
  show ((o.response.mid.setWidth 32).signExtend 64).setWidth 32 = e.mid ↔ _
  rw [setWidth_signExtend]
  cases h with
  | accepted j room gen key accepts mid hparse hroom hkey haccepts hmid =>
    rw [entry_of_accepted rfl hparse hmid] at he
    cases he
    show (replyMid j).setWidth 32 = mid ↔ _
    simp only [TrueMid, hparse, Option.some.injEq, exists_eq_left', true_and]
    rcases find_of_toInt hmid with hfind | ⟨b, hfind, rfl⟩
    · simp [replyMid, hfind, setWidth_signExtend]
    · cases b <;> simp [replyMid, hfind]
  | _ => simp [entry] at he

/-! ## The steps -/

/-- A call of `Connect` has returned. -/
abbrev connected (st : State) (request : ConnectReq) (o : Outcome) : State :=
  { st with
    redis := st.redis.pipeLine o.commands
    statics := o.statics
    calls := st.calls ++ [⟨request, o⟩] }

/-- The calls before it stay where they are. -/
theorem call_connected {st : State} {i : Nat} {call : Call} (h : st.calls[i]? = some call)
    (request : ConnectReq) (o : Outcome) : (connected st request o).calls[i]? = some call := by
  rw [List.getElem?_append_left (List.getElem?_eq_some_iff.mp h).1, h]

/-- The client of a call has left. -/
abbrev departed (st : State) (i : Nat) (call : Call) : State :=
  { st with
    redis := st.redis.pipeLine (disconnect (farewell call.request call.outcome.response))
    disconnected := st.disconnected ++ [i] }

/-- The steps, one constructor for each way in which a step is taken. -/
inductive Step (cfg : Config) (st : State) : Label → State → Prop
  | connect (clock : List (BitVec 64)) (request : ConnectReq) (o : Outcome)
      (ho : Ends cfg st.statics clock request o) :
    Step cfg st (.connect clock request) (connected st request o)
  | disconnect (i : Nat) (call : Call) (hcall : st.calls[i]? = some call) :
    Step cfg st (.disconnect i) (departed st i call)

theorem step_inv {cfg : Config} {st st' : State} {l : Label} (h : step cfg st l = some st') :
    Step cfg st l st' := by
  cases l with
  | connect clock request =>
    obtain ⟨o, ho, rfl⟩ := Option.map_eq_some_iff.mp h
    exact .connect clock request o (ends_of_connect ho)
  | disconnect i =>
    obtain ⟨call, hcall, rfl⟩ := Option.map_eq_some_iff.mp h
    exact .disconnect i call hcall

/-! ## One call of `Connect` -/

/-- The reply is complete and the key is registered, or the reply is empty and Redis is
as it was. -/
def Atomic (cfg : Config) (redis : Content) (request : ConnectReq) (o : Outcome) : Prop :=
  (o.accepted = true ∧ o.response.key ≠ [] ∧
    ∃ j mid, cfg.parse request.token = some j ∧
      j.get Json.toText (bytes "room_id") = .ok o.response.roomID ∧
      j.get Json.toInts (bytes "accepts") = .ok o.response.accepts ∧
      j.get Json.toInt (bytes "mid") = .ok mid ∧
      (redis.pipeLine o.commands).strings (keyKeyServer o.response.key) = some request.server ∧
      (o.response.key, request.server) ∈
        (redis.pipeLine o.commands).hashes (keyMidServer mid.toInt)) ∨
  (o.accepted = false ∧ o.response.key = [] ∧ o.response.roomID = [] ∧
    o.response.accepts = [] ∧ redis.pipeLine o.commands = redis)

/-- The token is the text of an object with a string `room_id`. -/
def hasRoom (parse : Bytes → Option Json) (token : Bytes) : Bool :=
  (parse token).any fun j => (j.find (bytes "room_id")).any Json.isText

/-- What is known of a state with gates whose ids are words: the calls, and that no string
stands under the name of a hash. -/
structure Sound (cfg : Config) (st : State) : Prop where
  ends : ∀ call ∈ st.calls, ∃ statics clock, Ends cfg statics clock call.request call.outcome
  kinds : Kinds st.redis

theorem Step.sound {cfg : Config} {st st' : State} {l : Label} (h : Step cfg st l st')
    (hs : Sound cfg st) (hservers : WordServers st') : Sound cfg st' := by
  cases h with
  | connect clock request o ho =>
    refine ⟨List.forall_mem_append.mpr ⟨hs.ends, ?_⟩, ?_⟩
    · intro call hcall
      rw [List.mem_singleton.mp hcall]
      exact ⟨_, _, ho⟩
    · show Kinds (st.redis.pipeLine o.commands)
      rcases commands_of_ends ho with ⟨-, hcommands⟩ | ⟨e, -, hcommands, hissued, hserver⟩
      · rw [hcommands]
        exact hs.kinds
      · have hword : IsWord request.server := hservers ⟨request, o⟩ (by simp)
        rw [hcommands]
        exact hs.kinds.add e.mid (isWord_issued ho hissued) (hserver ▸ hword)
  | disconnect i call hcall =>
    obtain ⟨_, _, hends⟩ := hs.ends call (List.mem_of_getElem? hcall)
    exact ⟨hs.ends, hs.kinds.remove (plain_farewell hends)⟩

theorem Step.wordServers_back {cfg : Config} {st st' : State} {l : Label} (h : Step cfg st l st')
    (hservers : WordServers st') : WordServers st := by
  cases h with
  | connect clock request o ho =>
    exact fun call hcall => hservers call (List.mem_append_left _ hcall)
  | disconnect i call hcall => exact hservers

theorem run_sound (cfg : Config) (ls : List Label) (st : State)
    (hrun : run (step cfg) {} ls = some st) (hservers : WordServers st) : Sound cfg st := by
  apply run_kept (I := fun u : State => WordServers u → Sound cfg u) _ ls {} st _ hrun hservers
  · intro u l u' hu hl hservers'
    exact (step_inv hl).sound (hu ((step_inv hl).wordServers_back hservers')) hservers'
  · exact fun _ => ⟨by simp, represents_empty.kinds⟩

theorem hasRoom_iff {parse : Bytes → Option Json} {token : Bytes} {j : Json}
    (hparse : parse token = some j) :
    hasRoom parse token = true ↔ ∃ room, j.get Json.toText (bytes "room_id") = .ok room := by
  rw [Json.get_ok_iff Json.toText_ok_iff rfl]
  simp [hasRoom, hparse]

/-- A reply that has a key although an exception was caught. -/
theorem not_atomic {cfg : Config} {redis : Content} {request : ConnectReq} {o : Outcome}
    (hrefused : o.accepted = false) (hkey : o.response.key ≠ []) :
    ¬ Atomic cfg redis request o := by
  rintro (⟨haccepted, -⟩ | ⟨-, hnone, -⟩)
  · rw [hrefused] at haccepted
    cases haccepted
  · exact hkey hnone

theorem atomic_iff_of_ends {cfg : Config} {statics : Option KeyGen} {clock : List (BitVec 64)}
    {request : ConnectReq} {o : Outcome} {redis : Content} (hk : Kinds redis)
    (hserver : IsWord request.server) (h : Ends cfg statics clock request o) :
    Atomic cfg redis request o ↔
      (hasRoom cfg.parse request.token = true → wellFormed cfg.parse request.token = true) := by
  have hwell := h.accepted_iff
  have hne : ∀ key, o.issued = some key → key ≠ [] := fun key => h.issued_ne_nil
  have hword : ∀ key, o.issued = some key → IsWord key := fun key => isWord_issued h
  cases h with
  | malformed hparse =>
    refine iff_of_true (Or.inr ⟨rfl, rfl, rfl, rfl, rfl⟩) ?_
    simp [hasRoom, hparse]
  | room j e hparse hroom =>
    refine iff_of_true (Or.inr ⟨rfl, rfl, rfl, rfl, rfl⟩) fun h => ?_
    obtain ⟨room, hok⟩ := (hasRoom_iff hparse).mp h
    rw [hroom] at hok
    cases hok
  | accepts j room gen key e hparse hroom hkey haccepts =>
    refine iff_of_false (not_atomic rfl (hne key rfl)) fun h => ?_
    exact absurd (hwell.mpr (h ((hasRoom_iff hparse).mpr ⟨room, hroom⟩))) (by simp)
  | mid j room gen key accepts e hparse hroom hkey haccepts hmid =>
    refine iff_of_false (not_atomic rfl (hne key rfl)) fun h => ?_
    exact absurd (hwell.mpr (h ((hasRoom_iff hparse).mpr ⟨room, hroom⟩))) (by simp)
  | accepted j room gen key accepts mid hparse hroom hkey haccepts hmid =>
    refine iff_of_true (Or.inl ⟨rfl, hne key rfl, j, mid, hparse, hroom, haccepts, hmid, ?_, ?_⟩)
      fun _ => hwell.mp rfl
    · show (redis.pipeLine (addServerMap mid key request.server)).strings (keyKeyServer key) = _
      rw [pipeLine_addServerMap redis (hword key rfl) hserver, Content.strings_set, if_pos rfl]
    · exact (mem_hashes_addServerMap hk _ (hword key rfl) hserver _ _ _).mpr
        (Or.inl ⟨rfl, rfl, rfl⟩)

/-- **Atomicity.** In every state that can be reached with gates whose ids are words,
`Connect` does all or nothing exactly if the token has no string `room_id` or is accepted. -/
theorem connect_atomic_iff (cfg : Config) (ls : List Label) (st : State)
    (hrun : run (step cfg) {} ls = some st) (hservers : WordServers st)
    (clock : List (BitVec 64)) (request : ConnectReq) (hserver : IsWord request.server)
    (hclock : (generateKey cfg.serverid_ st.statics clock).isSome) :
    ∃ o, connect cfg st.statics clock request = some o ∧
      (Atomic cfg st.redis request o ↔
        (hasRoom cfg.parse request.token = true → wellFormed cfg.parse request.token = true)) ∧
      (Atomic cfg st.redis request o → o.response.key ≠ [] →
        (st.redis.pipeLine o.commands).MGet [keyKeyServer o.response.key] = [request.server]) := by
  obtain ⟨o, ho⟩ := connect_returns hclock request
  have hkinds := (run_sound cfg ls st hrun hservers).kinds
  refine ⟨o, ho, atomic_iff_of_ends hkinds hserver (ends_of_connect ho), ?_⟩
  rintro (⟨-, -, -, -, -, -, -, -, hstrings, -⟩ | ⟨-, hkey, -⟩) hne
  · rw [Content.MGet_eq]
    simp [hstrings]
  · exact absurd hkey hne

/-- Tokens of three kinds: all fields, `true` for the `mid`, no `accepts`. -/
def tokens : Config where
  parse := fun token =>
    if token = bytes "number" then
      some (.object [(bytes "mid", .number 7), (bytes "room_id", .string (bytes "live://1")),
        (bytes "accepts", .array [.number 9])])
    else if token = bytes "true" then
      some (.object [(bytes "mid", .boolean true), (bytes "room_id", .string (bytes "live://1")),
        (bytes "accepts", .array [.number 9])])
    else if token = bytes "half" then
      some (.object [(bytes "mid", .number 7), (bytes "room_id", .string (bytes "live://1"))])
    else none
  serverid_ := 1

/-- A client of the first gate has connected, and one of the second comes. -/
theorem connect_atomic_iff_number :
    ∃ st o, run (step tokens) {} [.connect [1000, 1000] ⟨bytes "gate1", bytes "number"⟩] = some st ∧
      WordServers st ∧ (generateKey tokens.serverid_ st.statics [1000]).isSome ∧
      connect tokens st.statics [1000] ⟨bytes "gate2", bytes "number"⟩ = some o ∧
      Atomic tokens st.redis ⟨bytes "gate2", bytes "number"⟩ o := by
  have hview : (run (step tokens) {} [.connect [1000, 1000] ⟨bytes "gate1", bytes "number"⟩]).map
      (fun st => (st.calls.map fun call => call.request.server,
        (generateKey tokens.serverid_ st.statics [1000]).isSome)) =
      some ([bytes "gate1"], true) := by decide +kernel
  obtain ⟨st, hrun, hst⟩ := Option.map_eq_some_iff.mp hview
  simp only [Prod.mk.injEq] at hst
  have hservers : WordServers st := wordServers_of_map hst.1 (by decide)
  obtain ⟨o, ho, hatomic, -⟩ := connect_atomic_iff tokens _ st hrun hservers [1000]
    ⟨bytes "gate2", bytes "number"⟩ (by decide) hst.2
  exact ⟨st, o, hrun, hservers, hst.2, ho, hatomic.mpr (by decide +kernel)⟩

/-- Without `accepts` the reply has a key that Redis does not know. -/
theorem key_without_registration :
    ∃ o, connect tokens none [1000, 1000] ⟨bytes "gate1", bytes "half"⟩ = some o ∧
      o.accepted = false ∧ o.response.key = bytes "4194308097" ∧
      o.response.roomID = bytes "live://1" ∧ o.commands = [] ∧
      (Content.empty.pipeLine o.commands).MGet [keyKeyServer o.response.key] = [] ∧
      ¬ Atomic tokens .empty ⟨bytes "gate1", bytes "half"⟩ o := by
  have hview : (connect tokens none [1000, 1000] ⟨bytes "gate1", bytes "half"⟩).map
      (fun o => (o.accepted, o.response, o.commands)) =
      some (false, ⟨7, bytes "4194308097", bytes "live://1", []⟩, []) := by decide +kernel
  obtain ⟨o, ho, hst⟩ := Option.map_eq_some_iff.mp hview
  simp only [Prod.mk.injEq] at hst
  obtain ⟨haccepted, hresponse, hcommands⟩ := hst
  have hkey : o.response.key = bytes "4194308097" := congrArg ConnectReply.key hresponse
  refine ⟨o, ho, haccepted, hkey, congrArg ConnectReply.roomID hresponse, hcommands, ?_, ?_⟩
  · rw [hcommands]
    rfl
  · exact not_atomic haccepted (by rw [hkey]; decide)

end Cppim.Logic.Registration
