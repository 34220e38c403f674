import Cppim.Lib.Lease
import Cppim.Logic.Registration
import Cppim.Redis.Expiry

/-! `LogicServiceImpl::Heartbeat`, and how long a registration lasts.

`Connect` and `Heartbeat` give the two names of a registration half an hour. The name
`key_k` is of one client; the hash `mid_m` is shared by all clients of a user, and so is its
time. `key_found_iff` and `mid_found_iff` say when a client is found by its key and by its
user.

`PipeLine` holds a lock until Redis has answered the last of its commands, so that the
commands of two requests do not mix; each command has a time of its own. Nothing is said of
what is found while a pipeline is being executed. -/

namespace Cppim.Logic.Heartbeat

open Cppim.Common Cppim.Protocol Cppim.Redis Cppim.Lib.Transition Cppim.Lib.Lease
open Cppim.Logic.Registration

/-! ## The requests -/

/-- `Heartbeat`. The parameter of `keyMidServer` has 32 bits. -/
def heartbeat (request : HeartbeatReq) : List Command :=
  [text [bytes "EXPIRE", keyMidServer (request.mid.setWidth 32).toInt, formatInt (30 * 60)],
    text [bytes "EXPIRE", keyKeyServer request.key, formatInt (30 * 60)]]

/-- A session without a token sends heartbeats and a disconnect as well: its key is empty and
its `mid` is whatever stands in its memory. -/
inductive Request where
  | connect (clock : List (BitVec 64)) (request : ConnectReq)
  | heartbeat (request : HeartbeatReq)
  | disconnect (request : DisconnectReq)
  deriving Repr, DecidableEq

/-- The texts that the commands are made of stay apart. -/
def Request.Worded : Request → Prop
  | .connect _ request => IsWord request.server
  | .heartbeat request => Plain request.key
  | .disconnect request => Plain request.key

instance (key : Bytes) : Decidable (Plain key) := inferInstanceAs (Decidable (_ ∨ _))

instance : (request : Request) → Decidable request.Worded
  | .connect _ request => inferInstanceAs (Decidable (IsWord request.server))
  | .heartbeat request => inferInstanceAs (Decidable (Plain request.key))
  | .disconnect request => inferInstanceAs (Decidable (Plain request.key))

inductive Kind where
  | connect
  | heartbeat
  | disconnect
  deriving Repr, DecidableEq

/-- What was sent to Redis for a request. -/
structure Act where
  kind : Kind
  mid : BitVec 32
  key : Bytes
  server : Bytes
  /-- when the hash `mid_m` got its time, or was to lose the key -/
  midTime : Nat
  /-- when `key_k` got its time, or was removed -/
  keyTime : Nat
  /-- the time of the hash was over before it got a new one -/
  lost : Bool
  deriving Repr, DecidableEq

variable {R : Service}

/-- `log` is a record that no step reads. -/
structure State (R : Service) where
  redis : R.State
  /-- the time of the last command, in milliseconds -/
  now : Nat := 0
  statics : Option KeyGen := none
  log : List Act := []

def init (R : Service) : State R := { redis := R.empty }

/-- Redis executes the commands of a pipeline, one after the other. -/
def State.sent (st : State R) (times : List Nat) (commands : List Command) : Option (State R) :=
  if times.length = commands.length ∧ (st.now :: times).Pairwise (· ≤ ·) then
    some { st with
      redis := R.pipeLine st.redis times commands
      now := times.getLastD st.now }
  else none

/-- What a call of `Connect` registers. -/
def registered (cfg : Config) (st : State R) (call : Call) (times : List Nat) : List Act :=
  (entry cfg call).toList.map fun e =>
    { kind := .connect
      mid := e.mid
      key := e.key
      server := e.server
      midTime := times.getD 1 0
      keyTime := times.getD 3 0
      lost := R.Expires st.redis (times.getD 0 0) (times.getD 1 0) (keyMidServer e.mid.toInt) }

/-- A request, with the times at which Redis executes its commands. -/
def step (cfg : Config) (st : State R) : List Nat × Request → Option (State R)
  | (times, .connect clock request) => do
    let o ← connect cfg st.statics clock request
    let st' ← st.sent times o.commands
    return { st' with
      statics := o.statics
      log := st.log ++ registered cfg st ⟨request, o⟩ times }
  | (times, .heartbeat request) => do
    let st' ← st.sent times (heartbeat request)
    return { st' with
      log := st.log ++ [⟨.heartbeat, request.mid.setWidth 32, request.key, request.server,
        times.getD 0 0, times.getD 1 0, false⟩] }
  | (times, .disconnect request) => do
    let st' ← st.sent times (disconnect request)
    return { st' with
      log := st.log ++ [⟨.disconnect, request.mid.setWidth 32, request.key, request.server,
        times.getD 0 0, times.getD 1 0, false⟩] }

/-- The steps, with what they depend on. -/
inductive Step (cfg : Config) (st : State R) : List Nat × Request → State R → Prop
  | refused (clock : List (BitVec 64)) (request : ConnectReq) (o : Outcome)
      (ho : connect cfg st.statics clock request = some o) (he : entry cfg ⟨request, o⟩ = none) :
    Step cfg st ([], .connect clock request) { st with statics := o.statics }
  | registered (t₁ t₂ t₃ t₄ : Nat) (clock : List (BitVec 64)) (request : ConnectReq) (o : Outcome)
      (e : Entry) (ho : connect cfg st.statics clock request = some o)
      (he : entry cfg ⟨request, o⟩ = some e) (hkey : o.response.key = e.key) (hword : IsWord e.key)
      (hserver : e.server = request.server)
      (hnow : st.now ≤ t₁) (h₁ : t₁ ≤ t₂) (h₂ : t₂ ≤ t₃) (h₃ : t₃ ≤ t₄) :
    Step cfg st ([t₁, t₂, t₃, t₄], .connect clock request)
      { redis := R.pipeLine st.redis [t₁, t₂, t₃, t₄] (addServerMap e.mid e.key e.server)
        now := t₄
        statics := o.statics
        log := st.log ++ [⟨.connect, e.mid, e.key, e.server, t₂, t₄,
          R.Expires st.redis t₁ t₂ (keyMidServer e.mid.toInt)⟩] }
  | heartbeat (t₁ t₂ : Nat) (request : HeartbeatReq) (hnow : st.now ≤ t₁) (h₁ : t₁ ≤ t₂) :
    Step cfg st ([t₁, t₂], .heartbeat request)
      { st with
        redis := R.pipeLine st.redis [t₁, t₂] (heartbeat request)
        now := t₂
        log := st.log ++
          [⟨.heartbeat, request.mid.setWidth 32, request.key, request.server, t₁, t₂, false⟩] }
  | disconnect (t₁ t₂ : Nat) (request : DisconnectReq) (hnow : st.now ≤ t₁) (h₁ : t₁ ≤ t₂) :
    Step cfg st ([t₁, t₂], .disconnect request)
      { st with
        redis := R.pipeLine st.redis [t₁, t₂] (disconnect request)
        now := t₂
        log := st.log ++
          [⟨.disconnect, request.mid.setWidth 32, request.key, request.server, t₁, t₂, false⟩] }

theorem sent_inv {st st' : State R} {times : List Nat} {commands : List Command}
    (h : st.sent times commands = some st') :
    times.length = commands.length ∧ (st.now :: times).Pairwise (· ≤ ·) ∧
      st' = { st with
        redis := R.pipeLine st.redis times commands
        now := times.getLastD st.now } := by
  unfold State.sent at h
  split at h
  · rename_i hboth
    exact ⟨hboth.1, hboth.2, (Option.some.inj h).symm⟩
  · cases h

/-- Two commands have two times. -/
theorem times_of_two {now : Nat} {times : List Nat} (hlen : times.length = 2)
    (hsorted : (now :: times).Pairwise (· ≤ ·)) :
    ∃ t₁ t₂, times = [t₁, t₂] ∧ now ≤ t₁ ∧ t₁ ≤ t₂ := by
  obtain ⟨t₁, t₂, rfl⟩ := List.length_eq_two.mp hlen
  simp only [List.pairwise_cons, List.mem_cons, List.not_mem_nil, or_false] at hsorted
  exact ⟨t₁, t₂, rfl, hsorted.1 t₁ (Or.inl rfl), hsorted.2.1 t₂ rfl⟩

theorem times_of_four {now : Nat} {times : List Nat} (hlen : times.length = 4)
    (hsorted : (now :: times).Pairwise (· ≤ ·)) :
    ∃ t₁ t₂ t₃ t₄, times = [t₁, t₂, t₃, t₄] ∧ now ≤ t₁ ∧ t₁ ≤ t₂ ∧ t₂ ≤ t₃ ∧ t₃ ≤ t₄ := by
  obtain ⟨t₁, rest, rfl⟩ := List.exists_cons_of_length_eq_add_one hlen
  obtain ⟨t₂, t₃, t₄, rfl⟩ := List.length_eq_three.mp (by simpa using hlen)
  simp only [List.pairwise_cons, List.mem_cons, List.not_mem_nil, or_false] at hsorted
  obtain ⟨h, h₁, h₂, h₃, -⟩ := hsorted
  exact ⟨t₁, t₂, t₃, t₄, rfl, h t₁ (Or.inl rfl), h₁ t₂ (Or.inl rfl), h₂ t₃ (Or.inl rfl), h₃ t₄ rfl⟩

theorem step_inv {cfg : Config} {st st' : State R} {l : List Nat × Request}
    (h : step cfg st l = some st') : Step cfg st l st' := by
  obtain ⟨times, request⟩ := l
  cases request with
  | connect clock request =>
    simp only [step, Option.bind_eq_bind, Option.bind_eq_some_iff] at h
    obtain ⟨o, ho, u, hu, heq⟩ := h
    obtain ⟨hlen, hsorted, rfl⟩ := sent_inv hu
    cases heq
    have hends := ends_of_connect ho
    rcases commands_of_ends hends with ⟨hnone, hcommands⟩ | ⟨e, he, hcommands, hissued, hserver⟩
    · rw [hcommands] at hlen ⊢
      obtain rfl := List.length_eq_zero_iff.mp hlen
      simpa [registered, hnone, Service.pipeLine] using Step.refused clock request o ho hnone
    · rw [hcommands] at hlen ⊢
      obtain ⟨t₁, t₂, t₃, t₄, rfl, hnow, h₁, h₂, h₃⟩ := times_of_four hlen hsorted
      have hkey : o.response.key = e.key := by
        rw [hends.key_eq, hissued]
        rfl
      have hstep := Step.registered t₁ t₂ t₃ t₄ clock request o e ho he hkey
        (isWord_issued hends hissued) hserver hnow h₁ h₂ h₃
      simpa [registered, he] using hstep
  | heartbeat request =>
    simp only [step, Option.bind_eq_bind, Option.bind_eq_some_iff] at h
    obtain ⟨u, hu, heq⟩ := h
    obtain ⟨hlen, hsorted, rfl⟩ := sent_inv hu
    cases heq
    obtain ⟨t₁, t₂, rfl, hnow, h₁⟩ := times_of_two hlen hsorted
    exact Step.heartbeat t₁ t₂ request hnow h₁
  | disconnect request =>
    simp only [step, Option.bind_eq_bind, Option.bind_eq_some_iff] at h
    obtain ⟨u, hu, heq⟩ := h
    obtain ⟨hlen, hsorted, rfl⟩ := sent_inv hu
    cases heq
    obtain ⟨t₁, t₂, rfl, hnow, h₁⟩ := times_of_two hlen hsorted
    exact Step.disconnect t₁ t₂ request hnow h₁

/-! ## The pipelines -/

/-- Half an hour. -/
def lifespan : Nat := 1000 * (30 * 60)

theorem keyKeyServer_ne_keyMidServer (key : Bytes) (mid : Int) :
    keyKeyServer key ≠ keyMidServer mid := fun h => keyMidServer_ne mid key h.symm

/-- The words of the commands of `Heartbeat`. -/
theorem words_heartbeat {request : HeartbeatReq} (hkey : Plain request.key) :
    (heartbeat request).map words =
      [[bytes "EXPIRE", keyMidServer (request.mid.setWidth 32).toInt, formatInt (30 * 60)],
        [bytes "EXPIRE", keyKeyServer request.key, formatInt (30 * 60)]] := by
  have hmid := isWord_keyMidServer (request.mid.setWidth 32).toInt
  have hname := isWord_keyKeyServer hkey
  have hseconds : IsWord (formatInt 1800) := isWord_formatInt 1800
  have hcommand : IsWord (bytes "EXPIRE") := by decide
  simp only [heartbeat, List.map_cons, List.map_nil]
  generalize keyMidServer (request.mid.setWidth 32).toInt = mid at hmid ⊢
  rw [words_text_of_isWord, words_text_of_isWord]
  all_goals simp [hmid, hname, hseconds, hcommand]

section Commands

variable {redis : R.State} (hR : R.Lawful)

include hR

theorem cell_expire {now t : Nat} (hle : now ≤ t) (name n : Bytes) :
    (R.view (R.execute redis now [bytes "EXPIRE", name, formatInt (30 * 60)]) t).cell n =
      if n = name then if t ≤ now + lifespan then (R.view redis now).cell n else (none, [])
      else (R.view redis t).cell n :=
  hR.expire redis now t name 1800 n hle (by decide) (by decide)

/-- `addServerMap`: the key has half an hour, and so has the hash, if it is still there. -/
theorem cell_addServerMap {t₁ t₂ t₃ t₄ t : Nat} (h₁ : t₁ ≤ t₂) (h₂ : t₂ ≤ t₃) (h₃ : t₃ ≤ t₄)
    (hle : t₄ ≤ t) (m : BitVec 32) {k s : Bytes} (hk : IsWord k) (hs : IsWord s) (n : Bytes) :
    (R.view (R.pipeLine redis [t₁, t₂, t₃, t₄] (addServerMap m k s)) t).cell n =
      if n = keyKeyServer k then if t ≤ t₄ + lifespan then (some s, []) else (none, [])
      else if n = keyMidServer m.toInt then
        if t ≤ t₂ + lifespan ∧ ¬ R.Expires redis t₁ t₂ n then
          ((R.view redis t₂).hset n k s).cell n
        else (none, [])
      else (R.view redis t).cell n := by
  rw [Service.pipeLine_eq, words_addServerMap hk hs]
  simp only [List.zip_cons_cons, List.zip_nil_right, List.foldl_cons, List.foldl_nil]
  rw [cell_expire hR hle, hR.set _ _ _ _ _ _ h₃]
  by_cases hkey : n = keyKeyServer k
  · rw [if_pos hkey, if_pos hkey, if_pos hkey]
  rw [if_neg hkey, if_neg hkey, hR.set _ _ _ _ _ _ (h₃.trans hle), if_neg hkey,
    cell_expire hR (h₂.trans (h₃.trans hle)), hR.hset _ _ _ _ _ _ _ h₁]
  by_cases hmid : n = keyMidServer m.toInt
  · subst hmid
    rw [if_pos rfl, if_pos rfl]
    by_cases hexpires : R.Expires redis t₁ t₂ (keyMidServer m.toInt)
    · simp [hexpires]
    · simp [hexpires]
  · rw [if_neg hmid, if_neg hmid, hR.hset _ _ _ _ _ _ _ (h₁.trans (h₂.trans (h₃.trans hle))),
      if_neg fun h => hmid h.1, Expiring.cell_hset_eq, if_neg hmid]

/-- `Heartbeat`: what is there has half an hour more, and nothing comes back. -/
theorem cell_heartbeat {t₁ t₂ t : Nat} (h₁ : t₁ ≤ t₂) (hle : t₂ ≤ t) {request : HeartbeatReq}
    (hkey : Plain request.key) (n : Bytes) :
    (R.view (R.pipeLine redis [t₁, t₂] (heartbeat request)) t).cell n =
      if n = keyKeyServer request.key then
        if t ≤ t₂ + lifespan then (R.view redis t₂).cell n else (none, [])
      else if n = keyMidServer (request.mid.setWidth 32).toInt then
        if t ≤ t₁ + lifespan then (R.view redis t₁).cell n else (none, [])
      else (R.view redis t).cell n := by
  have hne := keyKeyServer_ne_keyMidServer request.key (request.mid.setWidth 32).toInt
  rw [Service.pipeLine_eq, words_heartbeat hkey]
  simp only [List.zip_cons_cons, List.zip_nil_right, List.foldl_cons, List.foldl_nil]
  rw [cell_expire hR hle]
  by_cases hname : n = keyKeyServer request.key
  · have hother : n ≠ keyMidServer (request.mid.setWidth 32).toInt := hname ▸ hne
    rw [if_pos hname, if_pos hname, cell_expire hR h₁, if_neg hother]
  · rw [if_neg hname, if_neg hname, cell_expire hR (h₁.trans hle)]

/-- `Disconnect`: the hash loses the key, if there is one, and keeps its time. -/
theorem cell_disconnect {t₁ t₂ t : Nat} (h₁ : t₁ ≤ t₂) (hle : t₂ ≤ t) {request : DisconnectReq}
    (hkey : Plain request.key) (n : Bytes) :
    (R.view (R.pipeLine redis [t₁, t₂] (disconnect request)) t).cell n =
      if n = keyKeyServer request.key then (none, [])
      else if request.key = [] then (R.view redis t).cell n
      else ((R.view redis t).hdel (keyMidServer (request.mid.setWidth 32).toInt)
        request.key).cell n := by
  have hmid := (isWord_keyMidServer (request.mid.setWidth 32).toInt).1
  have hcommand : bytes "HDEL" ≠ [] := by decide
  rw [Service.pipeLine_eq, words_disconnect hkey]
  generalize keyMidServer (request.mid.setWidth 32).toInt = mid at hmid ⊢
  simp only [List.zip_cons_cons, List.zip_nil_right, List.foldl_cons, List.foldl_nil]
  rw [hR.del _ _ _ _ _ hle]
  by_cases hname : n = keyKeyServer request.key
  · rw [if_pos hname, if_pos hname]
  rw [if_neg hname, if_neg hname]
  by_cases hnil : request.key = []
  · have hfilter : [bytes "HDEL", mid, request.key].filter (· ≠ []) = [bytes "HDEL", mid] := by
      simp [hnil, hmid, hcommand]
    rw [hfilter, if_pos hnil, hR.hdelNone _ _ _ _ _ (h₁.trans hle)]
  · have hfilter : [bytes "HDEL", mid, request.key].filter (· ≠ []) =
        [bytes "HDEL", mid, request.key] := by
      simp [hnil, hmid, hcommand]
    rw [hfilter, if_neg hnil, hR.hdel _ _ _ _ _ _ (h₁.trans hle)]

end Commands

/-! ## Leases -/

/-- What an act does to the name `key_k`. -/
def keyEvent (key : Bytes) (a : Act) : Event Bytes :=
  if a.key = key then
    match a.kind with
    | .connect => .grant a.server
    | .heartbeat => .renew
    | .disconnect => .release
  else .other

/-- What an act does to the field of a key in the hash of `mid`: every request of the user
renews it. -/
def midEvent (mid : BitVec 32) (key : Bytes) (a : Act) : Event Bytes :=
  if a.mid = mid then
    match a.kind with
    | .connect => if a.key = key then if a.lost then .release else .grant a.server else .renew
    | .heartbeat => .renew
    | .disconnect => if a.key = key then .release else .other
  else .other

def keyLease (key : Bytes) (log : List Act) : Option (Bytes × Nat) :=
  lease lifespan (log.map fun a => (a.keyTime, keyEvent key a))

def midLease (mid : BitVec 32) (key : Bytes) (log : List Act) : Option (Bytes × Nat) :=
  lease lifespan (log.map fun a => (a.midTime, midEvent mid key a))

theorem keyLease_concat (key : Bytes) (log : List Act) (a : Act) :
    keyLease key (log ++ [a]) = after lifespan (keyLease key log) (a.keyTime, keyEvent key a) := by
  rw [keyLease, List.map_append]
  exact lease_concat ..

theorem midLease_concat (mid : BitVec 32) (key : Bytes) (log : List Act) (a : Act) :
    midLease mid key (log ++ [a]) =
      after lifespan (midLease mid key log) (a.midTime, midEvent mid key a) := by
  rw [midLease, List.map_append]
  exact lease_concat ..

/-- What is found in Redis is what the leases still grant. -/
structure Inv (st : State R) : Prop where
  kinds : ∀ t, st.now ≤ t → Kinds (R.view st.redis t)
  keys : ∀ key t, st.now ≤ t →
    (R.view st.redis t).strings (keyKeyServer key) = find t (keyLease key st.log)
  mids : ∀ mid key server t, key ≠ [] → st.now ≤ t →
    ((key, server) ∈ (R.view st.redis t).hashes (keyMidServer mid.toInt) ↔
      find t (midLease mid key st.log) = some server)
  words : ∀ a ∈ st.log, a.kind = .connect → IsWord a.key

theorem inv_init (hR : R.Lawful) : Inv (init R) where
  kinds := fun t _ mid => congrArg Prod.fst (hR.empty t _)
  keys := fun key t _ => congrArg Prod.fst (hR.empty t _)
  mids := by
    intro mid key server t _ _
    have hnone : (R.view R.empty t).hashes (keyMidServer mid.toInt) = [] :=
      congrArg Prod.snd (hR.empty t _)
    simp [init, hnone, midLease, lease]
  words := by simp [init]

theorem words_concat {log : List Act} (h : ∀ a ∈ log, a.kind = .connect → IsWord a.key) {b : Act}
    (hb : b.kind = .connect → IsWord b.key) :
    ∀ a ∈ log ++ [b], a.kind = .connect → IsWord a.key :=
  List.forall_mem_append.mpr ⟨h, by simpa using hb⟩

namespace Inv

variable {st : State R}

/-- A client is registered. -/
theorem registered (hR : R.Lawful) (h : Inv st) {t₁ t₂ t₃ t₄ : Nat} {e : Entry}
    (hkey : IsWord e.key) (hserver : IsWord e.server) (hnow : st.now ≤ t₁) (h₁ : t₁ ≤ t₂)
    (h₂ : t₂ ≤ t₃) (h₃ : t₃ ≤ t₄) (statics : Option KeyGen) :
    Inv (R := R)
      { redis := R.pipeLine st.redis [t₁, t₂, t₃, t₄] (addServerMap e.mid e.key e.server)
        now := t₄
        statics := statics
        log := st.log ++ [⟨.connect, e.mid, e.key, e.server, t₂, t₄,
          R.Expires st.redis t₁ t₂ (keyMidServer e.mid.toInt)⟩] } where
  kinds := by
    intro t (ht : t₄ ≤ t) mid
    have hlater := h.kinds t (by omega) mid
    have hthen := h.kinds t₂ (by omega) mid
    rw [Content.strings_eq, cell_addServerMap hR h₁ h₂ h₃ ht _ hkey hserver,
      if_neg (keyMidServer_ne _ _)]
    split
    · split
      · rw [← Content.strings_eq, Content.strings_hset]
        exact hthen
      · rfl
    · exact hlater
  keys := by
    intro key t (ht : t₄ ≤ t)
    have hlater := h.keys key t (by omega)
    rw [Content.strings_eq, cell_addServerMap hR h₁ h₂ h₃ ht _ hkey hserver, keyLease_concat]
    by_cases hk : e.key = key
    · rw [if_pos (by rw [hk])]
      simp only [keyEvent, hk, if_true, after, find_some]
      split <;> rfl
    · rw [if_neg fun heq => hk (keyKeyServer_inj.mp heq).symm,
        if_neg (keyKeyServer_ne_keyMidServer _ _), ← Content.strings_eq, hlater]
      simp [keyEvent, hk, after]
  mids := by
    intro mid key server t hne (ht : t₄ ≤ t)
    have hlater := h.mids mid key server t hne (by omega)
    have hthen := h.mids mid key server t₂ hne (by omega)
    rw [Content.hashes_eq, cell_addServerMap hR h₁ h₂ h₃ ht _ hkey hserver,
      if_neg (keyMidServer_ne _ _), midLease_concat]
    by_cases hm : e.mid = mid
    · subst hm
      rw [if_pos rfl]
      by_cases hexpires : R.Expires st.redis t₁ t₂ (keyMidServer e.mid.toInt)
      · -- the hash is gone when it is to get its time
        have hgone : (R.view st.redis t₂).hashes (keyMidServer e.mid.toInt) = [] :=
          congrArg Prod.snd (not_not.mp hexpires.2)
        rw [hgone] at hthen
        rw [if_neg fun hboth => hboth.2 hexpires]
        by_cases hk : e.key = key
        · simp [midEvent, hk, hexpires, after]
        · have hnone : find t₂ (midLease e.mid key st.log) ≠ some server := by simpa using hthen
          simp [midEvent, hk, after, find_renew, hnone]
      · by_cases hspan : t ≤ t₂ + lifespan
        · rw [if_pos ⟨hspan, hexpires⟩, ← Content.hashes_eq,
            Content.mem_hashes_hset _ (h.kinds t₂ (by omega) e.mid), hthen]
          by_cases hk : e.key = key
          · simp [midEvent, hk, hexpires, after, hspan, eq_comm]
          · have hk' : ¬ key = e.key := fun heq => hk heq.symm
            simp [midEvent, hk, hk', after, find_renew, hspan]
        · rw [if_neg fun hboth => hspan hboth.1]
          by_cases hk : e.key = key
          · simp [midEvent, hk, hexpires, after, hspan]
          · simp [midEvent, hk, after, find_renew, hspan]
    · rw [if_neg fun heq => hm (keyMidServer_inj.mp heq).symm, ← Content.hashes_eq, hlater]
      simp [midEvent, hm, after]
  words := words_concat h.words fun _ => hkey

theorem heartbeat (hR : R.Lawful) (h : Inv st) {t₁ t₂ : Nat} {request : HeartbeatReq}
    (hplain : Plain request.key) (hnow : st.now ≤ t₁) (h₁ : t₁ ≤ t₂) :
    Inv (R := R)
      { st with
        redis := R.pipeLine st.redis [t₁, t₂] (heartbeat request)
        now := t₂
        log := st.log ++
          [⟨.heartbeat, request.mid.setWidth 32, request.key, request.server, t₁, t₂,
            false⟩] } where
  kinds := by
    intro t (ht : t₂ ≤ t) mid
    have hlater := h.kinds t (by omega) mid
    have hthen := h.kinds t₁ (by omega) mid
    rw [Content.strings_eq, cell_heartbeat hR h₁ ht hplain, if_neg (keyMidServer_ne _ _)]
    split
    · split
      · exact hthen
      · rfl
    · exact hlater
  keys := by
    intro key t (ht : t₂ ≤ t)
    have hlater := h.keys key t (by omega)
    have hthen := h.keys key t₂ (by omega)
    rw [Content.strings_eq, cell_heartbeat hR h₁ ht hplain, keyLease_concat]
    by_cases hk : request.key = key
    · rw [if_pos (by rw [hk])]
      simp only [keyEvent, hk, if_true, after, find_renew]
      split
      · exact hthen
      · rfl
    · rw [if_neg fun heq => hk (keyKeyServer_inj.mp heq).symm,
        if_neg (keyKeyServer_ne_keyMidServer _ _), ← Content.strings_eq, hlater]
      simp [keyEvent, hk, after]
  mids := by
    intro mid key server t hne (ht : t₂ ≤ t)
    have hlater := h.mids mid key server t hne (by omega)
    have hthen := h.mids mid key server t₁ hne (by omega)
    rw [Content.hashes_eq, cell_heartbeat hR h₁ ht hplain, if_neg (keyMidServer_ne _ _),
      midLease_concat]
    by_cases hm : request.mid.setWidth 32 = mid
    · rw [if_pos (by rw [hm])]
      simp only [midEvent, hm, if_true, after, find_renew]
      split
      · exact hthen
      · simp
    · rw [if_neg fun heq => hm (keyMidServer_inj.mp heq).symm, ← Content.hashes_eq, hlater]
      simp only [midEvent, hm, if_false, after]
  words := words_concat h.words fun hconnect => nomatch hconnect

theorem disconnect (hR : R.Lawful) (h : Inv st) {t₁ t₂ : Nat} {request : DisconnectReq}
    (hplain : Plain request.key) (hnow : st.now ≤ t₁) (h₁ : t₁ ≤ t₂) :
    Inv (R := R)
      { st with
        redis := R.pipeLine st.redis [t₁, t₂] (disconnect request)
        now := t₂
        log := st.log ++
          [⟨.disconnect, request.mid.setWidth 32, request.key, request.server, t₁, t₂, false⟩] }
    where
  kinds := by
    intro t (ht : t₂ ≤ t) mid
    have hlater := h.kinds t (by omega) mid
    rw [Content.strings_eq, cell_disconnect hR h₁ ht hplain, if_neg (keyMidServer_ne _ _)]
    split <;> exact hlater
  keys := by
    intro key t (ht : t₂ ≤ t)
    have hlater := h.keys key t (by omega)
    rw [Content.strings_eq, cell_disconnect hR h₁ ht hplain, keyLease_concat]
    by_cases hk : request.key = key
    · rw [if_pos (by rw [hk])]
      simp [keyEvent, hk, after]
    · rw [if_neg fun heq => hk (keyKeyServer_inj.mp heq).symm]
      simp only [keyEvent, hk, if_false, after]
      split <;> exact hlater
  mids := by
    intro mid key server t hne (ht : t₂ ≤ t)
    have hlater := h.mids mid key server t hne (by omega)
    rw [Content.hashes_eq, cell_disconnect hR h₁ ht hplain, if_neg (keyMidServer_ne _ _),
      midLease_concat]
    by_cases hnil : request.key = []
    · -- without a key the hash is left alone
      have hk : ¬ request.key = key := fun heq => hne (heq ▸ hnil)
      rw [if_pos hnil, ← Content.hashes_eq, hlater]
      by_cases hm : request.mid.setWidth 32 = mid <;>
        simp only [midEvent, hm, hk, if_true, if_false, after]
    · rw [if_neg hnil, ← Content.hashes_eq, Content.mem_hashes_hdel, keyMidServer_inj]
      by_cases hm : request.mid.setWidth 32 = mid
      · by_cases hk : request.key = key
        · simp [midEvent, hm, hk, after]
        · have hk' : ¬ key = request.key := fun heq => hk heq.symm
          simpa [midEvent, hm, hk, hk', after] using hlater
      · have hm' : ¬ mid = request.mid.setWidth 32 := fun heq => hm heq.symm
        simpa only [midEvent, hm, hm', false_and, not_false_eq_true, and_true, if_false, after]
          using hlater
  words := words_concat h.words fun hconnect => nomatch hconnect

end Inv

theorem Step.inv (hR : R.Lawful) {cfg : Config} {st st' : State R} {l : List Nat × Request}
    (hstep : Step cfg st l st') (hword : l.2.Worded) (h : Inv st) : Inv st' := by
  cases hstep with
  | refused clock request o ho he => exact ⟨h.kinds, h.keys, h.mids, h.words⟩
  | registered t₁ t₂ t₃ t₄ clock request o e ho he hkey hkeyword hserver hnow h₁ h₂ h₃ =>
    have hserverword : IsWord e.server := hserver ▸ hword
    exact h.registered hR hkeyword hserverword hnow h₁ h₂ h₃ o.statics
  | heartbeat t₁ t₂ request hnow h₁ => exact h.heartbeat hR hword hnow h₁
  | disconnect t₁ t₂ request hnow h₁ => exact h.disconnect hR hword hnow h₁

theorem run_inv (hR : R.Lawful) {cfg : Config} {ls : List (List Nat × Request)} {st : State R}
    (hrun : run (step cfg) (init R) ls = some st) (hwords : ∀ l ∈ ls, l.2.Worded) : Inv st :=
  run_invariant (fun _ _ _ h hword hstep => (step_inv hstep).inv hR hword h) ls _ st (inv_init hR)
    (guarded_of_forall ls _ fun l hl _ => hwords l hl) hrun

/-! ## How long a client is found -/

/-- When heartbeats came with the key. -/
def heartbeats (key : Bytes) (log : List Act) : List Nat :=
  (log.filter fun a => a.kind = .heartbeat ∧ a.key = key).map Act.keyTime

/-- When the hash got a new time: with each registration and each heartbeat that has the
`mid`, whoever it comes from. -/
def signs (mid : BitVec 32) (log : List Act) : List Nat :=
  (log.filter fun a => a.kind ≠ .disconnect ∧ a.mid = mid).map Act.midTime

/-- The key is not given to another client. -/
def Last (key : Bytes) (log : List Act) : Prop := ∀ a ∈ log, a.kind = .connect → a.key ≠ key

/-- `Disconnect` was not called with the key. -/
def Stays (key : Bytes) (log : List Act) : Prop := ∀ a ∈ log, a.kind = .disconnect → a.key ≠ key

instance (key : Bytes) (log : List Act) : Decidable (Last key log) :=
  inferInstanceAs (Decidable (∀ a ∈ log, a.kind = .connect → a.key ≠ key))

instance (key : Bytes) (log : List Act) : Decidable (Stays key log) :=
  inferInstanceAs (Decidable (∀ a ∈ log, a.kind = .disconnect → a.key ≠ key))

/-- `Disconnect` was not called with the key and the `mid`. -/
def StaysIn (mid : BitVec 32) (key : Bytes) (log : List Act) : Prop :=
  ∀ a ∈ log, a.kind = .disconnect → a.key = key → a.mid ≠ mid

instance (mid : BitVec 32) (key : Bytes) (log : List Act) : Decidable (StaysIn mid key log) :=
  inferInstanceAs (Decidable (∀ a ∈ log, a.kind = .disconnect → a.key = key → a.mid ≠ mid))

section Events

variable {key : Bytes} {mid : BitVec 32} {a : Act}

theorem keyEvent_of_not_connect (h : a.kind = .connect → a.key ≠ key) (server : Bytes) :
    keyEvent key a ≠ .grant server := by
  unfold keyEvent
  split
  · rename_i hkey
    cases hkind : a.kind with
    | connect => exact absurd hkey (h hkind)
    | heartbeat => simp
    | disconnect => simp
  · simp

theorem keyEvent_ne_release :
    keyEvent key a ≠ .release ↔ (a.kind = .disconnect → a.key ≠ key) := by
  unfold keyEvent
  by_cases hkey : a.key = key
  · cases hkind : a.kind <;> simp [hkey]
  · simp [hkey]

theorem midEvent_of_not_connect (h : a.kind = .connect → a.key ≠ key) (server : Bytes) :
    midEvent mid key a ≠ .grant server := by
  unfold midEvent
  split
  · cases hkind : a.kind with
    | connect => simp [h hkind]
    | heartbeat => simp
    | disconnect =>
      simp only
      split <;> simp
  · simp

theorem midEvent_ne_release (h : a.kind = .connect → a.key ≠ key) :
    midEvent mid key a ≠ .release ↔ (a.kind = .disconnect → a.key = key → a.mid ≠ mid) := by
  unfold midEvent
  by_cases hmid : a.mid = mid
  · cases hkind : a.kind with
    | connect => simp [hmid, h hkind]
    | heartbeat => simp [hmid]
    | disconnect => by_cases hkey : a.key = key <;> simp [hmid, hkey]
  · simp [hmid]

theorem renewals_keyEvent (key : Bytes) (log : List Act) :
    renewals (log.map fun a => (a.keyTime, keyEvent key a)) = heartbeats key log := by
  induction log with
  | nil => rfl
  | cons a log ih =>
    simp only [renewals, heartbeats] at ih ⊢
    rw [List.map_cons, List.filterMap_cons, ih]
    by_cases hkey : a.key = key
    · cases hkind : a.kind <;> simp [keyEvent, hkey, hkind]
    · simp [keyEvent, hkey]

theorem renewals_midEvent {log : List Act} (h : Last key log) (mid : BitVec 32) :
    renewals (log.map fun a => (a.midTime, midEvent mid key a)) = signs mid log := by
  induction log with
  | nil => rfl
  | cons a log ih =>
    obtain ⟨hfirst, hrest⟩ := List.forall_mem_cons.mp h
    specialize ih hrest
    simp only [renewals, signs] at ih ⊢
    rw [List.map_cons, List.filterMap_cons, ih]
    by_cases hmid : a.mid = mid
    · cases hkind : a.kind with
      | connect => simp [midEvent, hmid, hkind, hfirst hkind]
      | heartbeat => simp [midEvent, hmid, hkind]
      | disconnect => by_cases hkey : a.key = key <;> simp [midEvent, hmid, hkind, hkey]
    · simp [midEvent, hmid]

end Events

/-- The lease of a key since its last registration. -/
theorem find_keyLease {before rest : List Act} {a : Act} (hkind : a.kind = .connect)
    (hlast : Last a.key rest) (t : Nat) (server : Bytes) :
    find t (keyLease a.key (before ++ a :: rest)) = some server ↔
      server = a.server ∧ Stays a.key rest ∧
        Unbroken lifespan a.keyTime (heartbeats a.key rest) t := by
  have hgrant : keyEvent a.key a = .grant a.server := by simp [keyEvent, hkind]
  have hno : NoGrant (rest.map fun b => (b.keyTime, keyEvent a.key b)) :=
    List.forall_mem_map.mpr fun b hb => keyEvent_of_not_connect (hlast b hb)
  rw [keyLease, List.map_append, List.map_cons, hgrant, find_lease hno, renewals_keyEvent]
  simp only [List.forall_mem_map, keyEvent_ne_release, Stays]

/-- The lease of its field in a hash. -/
theorem find_midLease {before rest : List Act} {a : Act} (hkind : a.kind = .connect)
    (hlast : Last a.key rest) (t : Nat) (server : Bytes) :
    find t (midLease a.mid a.key (before ++ a :: rest)) = some server ↔
      a.lost = false ∧ server = a.server ∧ StaysIn a.mid a.key rest ∧
        Unbroken lifespan a.midTime (signs a.mid rest) t := by
  have hno : NoGrant (rest.map fun b => (b.midTime, midEvent a.mid a.key b)) :=
    List.forall_mem_map.mpr fun b hb => midEvent_of_not_connect (hlast b hb)
  have hkept : (∀ e ∈ rest.map fun b => (b.midTime, midEvent a.mid a.key b), e.2 ≠ .release) ↔
      StaysIn a.mid a.key rest := by
    rw [List.forall_mem_map]
    exact forall₂_congr fun b hb => midEvent_ne_release (hlast b hb)
  rw [midLease, List.map_append, List.map_cons]
  cases hlost : a.lost with
  | false =>
    have hgrant : midEvent a.mid a.key a = .grant a.server := by simp [midEvent, hkind, hlost]
    rw [hgrant, find_lease hno, renewals_midEvent hlast, hkept]
    simp
  | true =>
    have hrelease : midEvent a.mid a.key a = .release := by simp [midEvent, hkind, hlost]
    rw [hrelease, lease, List.foldl_append, List.foldl_cons, after, foldl_after_none hno]
    simp

/-- Two clients of one user. The first sends a heartbeat, and so does somebody without a token
who happens to have the same `mid`. -/
def visits : List (List Nat × Request) :=
  [([0, 1, 2, 3], .connect [1000, 1000] ⟨bytes "gate1", bytes "number"⟩),
    ([4, 4, 5, 6], .connect [1000] ⟨bytes "gate2", bytes "number"⟩),
    ([1000000, 1000001], .heartbeat ⟨7, bytes "4194308097", bytes "gate1"⟩),
    ([1500000, 1500001], .heartbeat ⟨7, [], bytes "gate1"⟩)]

def visitors : List Act :=
  [⟨.connect, 7, bytes "4194308097", bytes "gate1", 1, 3, false⟩,
    ⟨.connect, 7, bytes "4194308098", bytes "gate2", 4, 6, false⟩,
    ⟨.heartbeat, 7, bytes "4194308097", bytes "gate1", 1000000, 1000001, false⟩,
    ⟨.heartbeat, 7, [], bytes "gate1", 1500000, 1500001, false⟩]

theorem run_visits : ∃ st, run (step tokens) (init Expiring.service) visits = some st ∧
    st.now = 1500001 ∧ st.log = visitors := by
  have hview : (run (step tokens) (init Expiring.service) visits).map
      (fun st => (st.now, st.log)) = some (1500001, visitors) := by decide +kernel
  obtain ⟨st, hrun, hst⟩ := Option.map_eq_some_iff.mp hview
  exact ⟨st, hrun, congrArg Prod.fst hst, congrArg Prod.snd hst⟩

/-- **A client is found by its key as long as its heartbeats come in time.** After every run,
and at any time before the next command: `key_k` leads to the gate of the client that has
been registered last with it exactly if no `Disconnect` came with the key and no more than
half an hour lies between the registration, the heartbeats with the key and now. A client
that was late once is not found again. -/
theorem key_found_iff (hR : R.Lawful) (cfg : Config) (ls : List (List Nat × Request))
    (st : State R) (hrun : run (step cfg) (init R) ls = some st) (hwords : ∀ l ∈ ls, l.2.Worded)
    (before rest : List Act) (a : Act) (hlog : st.log = before ++ a :: rest)
    (hkind : a.kind = .connect) (hlast : Last a.key rest) (t : Nat) (ht : st.now ≤ t) :
    (R.view st.redis t).strings (keyKeyServer a.key) = some a.server ↔
      Stays a.key rest ∧ Unbroken lifespan a.keyTime (heartbeats a.key rest) t := by
  rw [(run_inv hR hrun hwords).keys a.key t ht, hlog, find_keyLease hkind hlast]
  exact and_iff_right rfl

/-- The first client is found half an hour after its heartbeat, and not later. -/
theorem key_found_iff_visits :
    ∃ st, run (step tokens) (init Expiring.service) visits = some st ∧ st.log = visitors ∧
      (st.redis.view 2800001).strings (bytes "key_4194308097") = some (bytes "gate1") ∧
      (st.redis.view 2800002).strings (bytes "key_4194308097") ≠ some (bytes "gate1") := by
  obtain ⟨st, hrun, hnow, hlog⟩ := run_visits
  have hfound := key_found_iff Expiring.lawful tokens visits st hrun (by decide) []
    visitors.tail ⟨.connect, 7, bytes "4194308097", bytes "gate1", 1, 3, false⟩ hlog rfl
    (by decide)
  refine ⟨st, hrun, hlog, (hfound 2800001 (by rw [hnow]; decide)).mpr (by decide), ?_⟩
  exact fun heq => absurd ((hfound 2800002 (by rw [hnow]; decide)).mp heq) (by decide)

/-- **A client is found by its user as long as anybody renews the hash.** The time is that of
the hash: a client that sends no heartbeats is found through the other clients of the user,
and through every session that happens to have the same `mid`. What takes it out is a
`Disconnect` with its key and its `mid`. The hash must not run out between the two commands
that register the client. -/
theorem mid_found_iff (hR : R.Lawful) (cfg : Config) (ls : List (List Nat × Request))
    (st : State R) (hrun : run (step cfg) (init R) ls = some st) (hwords : ∀ l ∈ ls, l.2.Worded)
    (before rest : List Act) (a : Act) (hlog : st.log = before ++ a :: rest)
    (hkind : a.kind = .connect) (hlast : Last a.key rest) (t : Nat) (ht : st.now ≤ t) :
    (a.key, a.server) ∈ (R.view st.redis t).hashes (keyMidServer a.mid.toInt) ↔
      a.lost = false ∧ StaysIn a.mid a.key rest ∧
        Unbroken lifespan a.midTime (signs a.mid rest) t := by
  have h := run_inv hR hrun hwords
  have hne : a.key ≠ [] := (h.words a (by simp [hlog]) hkind).1
  rw [h.mids a.mid a.key a.server t hne ht, hlog, find_midLease hkind hlast]
  exact and_congr_right fun _ => and_iff_right rfl

/-- The second client sends nothing, and is found through the heartbeats of the others. -/
theorem mid_found_iff_visits :
    ∃ st, run (step tokens) (init Expiring.service) visits = some st ∧ st.log = visitors ∧
      (bytes "4194308098", bytes "gate2") ∈ (st.redis.view 3300000).hashes (bytes "mid_7") ∧
      (bytes "4194308098", bytes "gate2") ∉ (st.redis.view 3300001).hashes (bytes "mid_7") := by
  obtain ⟨st, hrun, hnow, hlog⟩ := run_visits
  have hfound := mid_found_iff Expiring.lawful tokens visits st hrun (by decide)
    (visitors.take 1) (visitors.drop 2)
    ⟨.connect, 7, bytes "4194308098", bytes "gate2", 4, 6, false⟩ hlog rfl (by decide)
  refine ⟨st, hrun, hlog, (hfound 3300000 (by rw [hnow]; decide)).mpr (by decide), ?_⟩
  exact fun hin => absurd ((hfound 3300001 (by rw [hnow]; decide)).mp hin) (by decide)

end Cppim.Logic.Heartbeat
