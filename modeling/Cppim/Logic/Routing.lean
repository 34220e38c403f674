import Cppim.Lib.Pairing
import Cppim.Logic.Push

/-! Where the keys of a push go. `RedisClient::MGet` leaves out the keys that have no
value, and `PushMsgByKeys` pairs what is left with the looked-up keys by position.
`pushMsgByKeys_routed_iff` says when the pairs are the right ones. `PushMsgByMids` asks
for hashes, which hold their keys, and always finds the right ones. -/

namespace Cppim.Logic

open Cppim.Common Cppim.Redis Cppim.Lib.Pairing

/-! ## By key -/

/-- The looked-up keys are routed by what Redis has stored for them: a key with a
value is in the PUSH message to that server, as often as it was looked up, and in
no other one; a key without a value is in none. -/
structure Routed (redis : Content) (cmd : List Bytes) (ms : List Message) : Prop where
  push : ∀ m ∈ ms, m.value.type = .PUSH
  one : (ms.map (·.value.server)).Nodup
  sent : ∀ key ∈ cmd, ∀ server, redis.strings key = some server →
    ∃ m ∈ ms, m.value.server = server
  count : ∀ m ∈ ms, ∀ key ∈ cmd, m.value.keys.count key =
    if redis.strings key = some m.value.server then cmd.count key else 0

/-- **Push by key.** The looked-up keys are routed by what Redis has stored for them
exactly when no key without a value stands in front of one that has one. -/
theorem pushMsgByKeys_routed_iff (env : Env) (keys : List Bytes) (op : Int) (msg : Bytes) :
    ∃ ms, pushMsgByKeys env keys op msg = .ok ms ∧
      (Routed env.redis (keys.map keyKeyServer) ms ↔
        Leading env.redis.strings (keys.map keyKeyServer)) := by
  refine ⟨_, pushMsgByKeys_eq env keys op msg, ?_⟩
  generalize keys.map keyKeyServer = cmd
  constructor
  · -- a key that is in a message has a value
    intro hrouted
    refine leading_of_zip fun p hp => ?_
    obtain ⟨elem, helem, hserver, hkey⟩ := exists_element env.serverOrder hp
    have hcmd : p.2 ∈ cmd := (List.of_mem_zip hp).2
    have hcount : elem.2.count p.2 =
        if env.redis.strings p.2 = some elem.1 then cmd.count p.2 else 0 :=
      hrouted.count _ (List.mem_map_of_mem helem) p.2 hcmd
    have hpos : 0 < elem.2.count p.2 := List.count_pos_iff.mpr hkey
    by_cases hv : env.redis.strings p.2 = some elem.1
    · simp [hv]
    · rw [if_neg hv] at hcount
      omega
  · intro hlead
    rw [hlead.zip_eq]
    refine ⟨?_, ?_, ?_, ?_⟩
    · intro m hm
      obtain ⟨elem, -, rfl⟩ := List.mem_map.mp hm
      rfl
    · rw [List.map_map]
      exact env.serverOrder.nodup_elements _
    · intro key hkey server hv
      have hmem : (server, key) ∈ paired env.redis.strings cmd :=
        List.mem_filterMap.mpr ⟨key, hkey, by simp [hv]⟩
      obtain ⟨elem, helem, hserver, -⟩ := exists_element env.serverOrder hmem
      exact ⟨_, List.mem_map_of_mem helem, hserver⟩
    · intro m hm key _
      obtain ⟨elem, helem, rfl⟩ := List.mem_map.mp hm
      show elem.2.count key = if env.redis.strings key = some elem.1 then cmd.count key else 0
      rw [keys_of_elements helem, map_snd_filter_paired]
      split
      · rename_i hv
        exact List.count_filter (by simp [hv])
      · rename_i hv
        exact List.count_eq_zero.mpr fun hmem => hv (by simpa using (List.mem_filter.mp hmem).2)

/-- Only the second of two users is connected. -/
def secondOnline : Env where
  redis :=
    { strings := fun key => if key = bytes "key_b" then some (bytes "gate1") else none
      hashes := fun _ => []
      nodup := fun _ => List.nodup_nil }
  keyOrder := .sorted
  serverOrder := .sorted

/-- The message to the server of `b` holds the key of `a`, which has no value, in its
place. -/
theorem absent_key_takes_place :
    (pushMsgByKeys secondOnline [bytes "a", bytes "b"] 1 []).toOption = some
      [⟨{ type := .PUSH, operation := 1, server := bytes "gate1", keys := [bytes "key_a"],
          msg := [] }, none⟩] ∧
    secondOnline.redis.strings (bytes "key_a") = none ∧
    secondOnline.redis.strings (bytes "key_b") = some (bytes "gate1") ∧
    ¬ Routed secondOnline.redis ([bytes "a", bytes "b"].map keyKeyServer)
      [⟨{ type := .PUSH, operation := 1, server := bytes "gate1", keys := [bytes "key_a"],
          msg := [] }, none⟩] := by
  refine ⟨by decide +kernel, by decide, by decide, fun h => ?_⟩
  have hcount := h.count _ (List.mem_singleton.mpr rfl) (bytes "key_a") (by decide)
  revert hcount
  decide

/-! ## By mid -/

/-- The keys of the mids are shared out among their servers. -/
structure Partitioned (redis : Content) (mids : List Int) (op : Int) (msg : Bytes)
    (ms : List Message) : Prop where
  push : ∀ m ∈ ms, m.value.type = .PUSH ∧ m.value.operation = op ∧ m.value.msg = msg
  one : (ms.map (·.value.server)).Nodup
  servers : ∀ server, server ∈ ms.map (·.value.server) ↔ ∃ key, Owner redis mids key server
  nonempty : ∀ m ∈ ms, m.value.keys ≠ []
  nodup : ∀ m ∈ ms, m.value.keys.Nodup
  disjoint : ms.Pairwise fun m m' => m.value.keys.Disjoint m'.value.keys
  union : ∀ key, (∃ m ∈ ms, key ∈ m.value.keys) ↔ ∃ mid ∈ mids, key ∈ fields redis mid
  owner : ∀ m ∈ ms, ∀ key, key ∈ m.value.keys ↔ Owner redis mids key m.value.server

/-- **Push by mid.** The keys of the mids are shared out among the servers: one PUSH
message for each server that owns a key, and every key in the message of the server
that the last mid with this key maps it to. -/
theorem pushMsgByMids_partitioned (env : Env) (mids : List Int) (op : Int) (msg : Bytes)
    (cb : Option Nat) :
    ∃ ms, pushMsgByMids env mids op msg cb = .ok ms ∧ Partitioned env.redis mids op msg ms := by
  obtain ⟨keyServer, howner, heq⟩ := pushMsgByMids_eq env mids op msg cb
  have hkeys : ∀ elem ∈ inverted env.keyOrder env.serverOrder keyServer, ∀ key,
      key ∈ elem.2 ↔ Owner env.redis mids key elem.1 :=
    fun elem helem key => (mem_inverted helem key).trans (howner key elem.1)
  have hsent : ∀ key server, Owner env.redis mids key server →
      ∃ elem ∈ inverted env.keyOrder env.serverOrder keyServer, elem.1 = server ∧ key ∈ elem.2 :=
    fun key server h => exists_inverted ((howner key server).mpr h)
  have hservers : ((inverted env.keyOrder env.serverOrder keyServer).map
      (groupMessage op msg cb)).map (·.value.server) =
        (inverted env.keyOrder env.serverOrder keyServer).map Prod.fst := by
    rw [List.map_map]
    rfl
  refine ⟨(inverted env.keyOrder env.serverOrder keyServer).map (groupMessage op msg cb),
    heq.trans (pushGroups_eq ..), ?_⟩
  constructor
  case push => exact List.forall_mem_map.mpr fun elem _ => ⟨rfl, rfl, rfl⟩
  case one =>
    rw [hservers]
    exact env.serverOrder.nodup_elements _
  case servers =>
    intro server
    rw [hservers]
    constructor
    · intro h
      obtain ⟨elem, helem, rfl⟩ := List.mem_map.mp h
      obtain ⟨key, hkey⟩ := List.exists_mem_of_ne_nil _ (inverted_ne_nil helem)
      exact ⟨key, (hkeys elem helem key).mp hkey⟩
    · rintro ⟨key, h⟩
      obtain ⟨elem, helem, hserver, -⟩ := hsent key server h
      exact List.mem_map.mpr ⟨elem, helem, hserver⟩
  case nonempty => exact List.forall_mem_map.mpr fun elem helem => inverted_ne_nil helem
  case nodup => exact List.forall_mem_map.mpr fun elem helem => nodup_of_inverted helem
  case disjoint => exact List.pairwise_map.mpr inverted_disjoint
  case union =>
    intro key
    rw [← exists_owner_iff]
    constructor
    · rintro ⟨m, hm, hkey⟩
      obtain ⟨elem, helem, rfl⟩ := List.mem_map.mp hm
      exact ⟨elem.1, (hkeys elem helem key).mp hkey⟩
    · rintro ⟨server, h⟩
      obtain ⟨elem, helem, -, hkey⟩ := hsent key server h
      exact ⟨_, List.mem_map_of_mem helem, hkey⟩
  case owner => exact List.forall_mem_map.mpr hkeys

end Cppim.Logic
