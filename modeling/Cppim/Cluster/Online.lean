import Cppim.Cluster.Presence

/-! Who is found online. `Ledger` says what the logic server is told under a key, in all the
time from the token of a client to its disconnect; `online_iff` draws from this that Redis
holds the keys of the clients that the gate holds, as long as their heartbeats come in
time. -/

namespace Cppim.Cluster.Presence

open Cppim.Common Cppim.Protocol Cppim.Redis Cppim.Lib.Lease Cppim.Lib.Transition Cppim.Logic
open Cppim.Logic.Heartbeat (Act Kind Last Stays heartbeats lifespan)
open Cppim.Gate (GateServer Call Notice Orders)
open Cppim.Gate.System (advance getElem?_advance RepliedKey HandledKey Keyed FreshReply)

/-! ## What is told under a key -/

theorem exists_getElem?_concat {α : Type} {l : List α} {c : α} {P : α → Prop} (hc : ¬ P c)
    (i : Nat) : (∃ a, (l ++ [c])[i]? = some a ∧ P a) ↔ ∃ a, l[i]? = some a ∧ P a := by
  refine exists_congr fun a => and_congr_left fun ha => ?_
  rw [List.getElem?_append]
  split
  · rfl
  · rename_i hlt
    rw [List.getElem?_eq_none (Nat.not_lt.mp hlt), List.getElem?_singleton]
    split
    · simp only [Option.some.injEq, reduceCtorEq, iff_false]
      rintro rfl
      exact hc ha
    · rfl

def noticed (key : Bytes) : Ask → Option Kind
  | .connect _ => none
  | .notice n => if noticeKey n = key then some (noticeKind n) else none

variable {R : Service}

/-- What the logic server has been told under a key, and is going to be told. -/
def history (st : State R) (key : Bytes) : List Kind :=
  (st.logic.log.filter fun a => a.key = key).map Act.kind ++ st.wire.filterMap (noticed key)

/-- The session has got the key as the reply to its call. -/
def Owns (g : GateServer) (id s : Nat) (key : Bytes) : Prop :=
  ∃ call, g.calls[id]? = some call ∧
    call.session = s ∧ ∃ response, call.progress = .handled response ∧ response.key = key

theorem Owns.replied {g : GateServer} {id s : Nat} {key : Bytes} (h : Owns g id s key) :
    RepliedKey g id key := by
  obtain ⟨call, hcall, -, response, hp, hkey⟩ := h
  exact HandledKey.replied ⟨call, response, hcall, hp, hkey⟩

section Calls

variable {g g' : GateServer}

theorem owns_of_calls (hcalls : g'.calls = g.calls) (id s : Nat) (key : Bytes) :
    Owns g' id s key ↔ Owns g id s key := by
  rw [Owns, Owns, hcalls]

theorem repliedKey_of_calls (hcalls : g'.calls = g.calls) (id : Nat) (key : Bytes) :
    RepliedKey g' id key ↔ RepliedKey g id key := by
  rw [RepliedKey, RepliedKey, hcalls]

/-- A new call has no reply. -/
theorem owns_concat {c : Call} (hcalls : g'.calls = g.calls ++ [c]) (hp : c.progress = .called)
    (id s : Nat) (key : Bytes) : Owns g' id s key ↔ Owns g id s key := by
  rw [Owns, Owns, hcalls, exists_getElem?_concat]
  simp [hp]

theorem repliedKey_concat {c : Call} (hcalls : g'.calls = g.calls ++ [c])
    (hp : c.progress = .called) (id : Nat) (key : Bytes) :
    RepliedKey g' id key ↔ RepliedKey g id key := by
  rw [RepliedKey, RepliedKey, hcalls, exists_getElem?_concat]
  simp [Call.reply, hp]

/-- A call that moves on is another call in its place. -/
theorem owns_advance {id : Nat} {call : Call} {progress : Gate.Progress}
    (hcall : g.calls[id]? = some call) (i s : Nat) (key : Bytes) :
    Owns (advance g id call progress) i s key ↔
      if i = id then call.session = s ∧ ∃ response, progress = .handled response ∧
        response.key = key
      else Owns g i s key := by
  simp only [Owns, getElem?_advance progress hcall]
  split <;> simp

theorem repliedKey_advance {id : Nat} {call : Call} {progress : Gate.Progress}
    (hcall : g.calls[id]? = some call) (i : Nat) (key : Bytes) :
    RepliedKey (advance g id call progress) i key ↔
      if i = id then (Call.reply { call with progress := progress }).map ConnectReply.key = some key
      else RepliedKey g i key := by
  simp only [RepliedKey, getElem?_advance progress hcall]
  split <;> simp

end Calls

/-- Under a key that was issued the logic server is told of a connection, then of heartbeats,
and of a disconnect as soon as the session that has the key is not connected any more. -/
structure Ledger (st : State R) : Prop where
  keyed : Keyed st.net
  words : ∀ id key, RepliedKey st.net.gate id key → IsWord key
  owner : ∀ s, st.net.gate.getKey s ≠ [] → ∃ id, Owns st.net.gate id s (st.net.gate.getKey s)
  owned : ∀ id s key, Owns st.net.gate id s key → st.net.gate.getKey s = key
  unknown : ∀ key, (∀ id, ¬ RepliedKey st.net.gate id key) →
    .connect ∉ history st key ∧ (key ≠ [] → history st key = [])
  known : ∀ key id, RepliedKey st.net.gate id key →
    ∃ rest, history st key = .connect :: rest ∧ .connect ∉ rest ∧
      (.disconnect ∈ rest ↔ ∃ s, st.net.gate.getKey s = key ∧ s ∉ st.net.connections_)

namespace Ledger

variable {st st' : State R}

theorem key_ne_nil (h : Ledger st) {key : Bytes} {id : Nat}
    (hkey : RepliedKey st.net.gate id key) : key ≠ [] := by
  rintro rfl
  exact h.keyed.replies.nonempty id hkey

/-- Nobody gets a key, and under the keys that somebody has more may be told. -/
theorem tells (h : Ledger st) (told : Bytes → List Kind) (hkeyed : Keyed st'.net)
    (hgetKey : st'.net.gate.getKey = st.net.gate.getKey)
    (howns : ∀ id s key, Owns st'.net.gate id s key ↔ Owns st.net.gate id s key)
    (hreplied : ∀ id key, RepliedKey st'.net.gate id key ↔ RepliedKey st.net.gate id key)
    (hhistory : ∀ key, history st' key = history st key ++ told key)
    (hconnect : ∀ key, .connect ∉ told key)
    (hheld : ∀ key, told key ≠ [] → ∃ s, st.net.gate.getKey s = key)
    (hleft : ∀ key, key ≠ [] → ((∃ s, st.net.gate.getKey s = key ∧ s ∉ st'.net.connections_) ↔
      (∃ s, st.net.gate.getKey s = key ∧ s ∉ st.net.connections_) ∨ .disconnect ∈ told key)) :
    Ledger st' where
  keyed := hkeyed
  words := fun id key hid => h.words id key ((hreplied id key).mp hid)
  owner := by
    intro s hs
    rw [hgetKey] at hs ⊢
    obtain ⟨id, hid⟩ := h.owner s hs
    exact ⟨id, (howns id s _).mpr hid⟩
  owned := by
    intro id s key hid
    rw [hgetKey]
    exact h.owned id s key ((howns id s key).mp hid)
  unknown := by
    intro key hnone
    have hnone' : ∀ id, ¬ RepliedKey st.net.gate id key :=
      fun id hid => hnone id ((hreplied id key).mpr hid)
    obtain ⟨hnot, hnil⟩ := h.unknown key hnone'
    rw [hhistory key]
    refine ⟨by simp [hnot, hconnect key], fun hne => ?_⟩
    have htold : told key = [] := by
      by_contra htold
      obtain ⟨s, rfl⟩ := hheld key htold
      obtain ⟨id, hid⟩ := h.owner s hne
      exact hnone' id hid.replied
    rw [hnil hne, htold, List.append_nil]
  known := by
    intro key id hid
    have hid' := (hreplied id key).mp hid
    obtain ⟨rest, hrest, hnot, hdisconnect⟩ := h.known key id hid'
    refine ⟨rest ++ told key, by rw [hhistory key, hrest, List.cons_append], ?_, ?_⟩
    · simp [hnot, hconnect key]
    · rw [List.mem_append, hdisconnect, hgetKey, hleft key (h.key_ne_nil hid')]

/-- Nobody gets a key, and nothing is told. -/
theorem of_same (h : Ledger st) (hkeyed : Keyed st'.net)
    (hgetKey : st'.net.gate.getKey = st.net.gate.getKey)
    (howns : ∀ id s key, Owns st'.net.gate id s key ↔ Owns st.net.gate id s key)
    (hreplied : ∀ id key, RepliedKey st'.net.gate id key ↔ RepliedKey st.net.gate id key)
    (hhistory : ∀ key, history st' key = history st key)
    (hconnections : ∀ s, st.net.gate.getKey s ≠ [] →
      (s ∈ st'.net.connections_ ↔ s ∈ st.net.connections_)) : Ledger st' := by
  refine h.tells (fun _ => []) hkeyed hgetKey howns hreplied (by simpa using hhistory) (by simp)
    (by simp) fun key hne => ?_
  simp only [List.not_mem_nil, or_false]
  refine exists_congr fun s => and_congr_right fun hs => ?_
  rw [hconnections s (hs ▸ hne)]

end Ledger

/-! ## The steps -/

theorem asks_same {g g' : GateServer} (hcalls : g'.calls.length = g.calls.length)
    (hnotices : g'.notices = g.notices) : asks g g' = [] := by
  simp [asks, hcalls, hnotices]

theorem asks_notice {g g' : GateServer} {n : Notice} (hcalls : g'.calls = g.calls)
    (hnotices : g'.notices = g.notices ++ [n]) : asks g g' = [.notice n] := by
  simp [asks, hcalls, hnotices]

theorem history_move (st : State R) (net : Gate.System.State) (key : Bytes) :
    history (moved st net) key = history st key ++
       (asks st.net.gate net.gate).filterMap (noticed key) := by
  simp [history]

/-- A step in which the gate sends nothing to the logic server. -/
theorem history_same {st : State R} {net : Gate.System.State}
    (hcalls : net.gate.calls.length = st.net.gate.calls.length)
    (hnotices : net.gate.notices = st.net.gate.notices) (key : Bytes) :
    history (moved st net) key = history st key := by
  rw [history_move, asks_same hcalls hnotices]
  simp

namespace Ledger

variable {st st' : State R}

theorem newSession (h : Ledger st) (mid : BitVec 32) :
    Ledger (moved st (Gate.System.newSession st.net mid)) := by
  have hfree : st.net.gate.getKey st.net.opened = [] := by
    by_contra hne
    obtain ⟨id, call, hcall, hsession, -⟩ := h.owner _ hne
    have hlt := h.keyed.callers call (List.mem_of_getElem? hcall)
    exact Nat.lt_irrefl _ (hsession ▸ hlt)
  refine h.of_same (h.keyed.newSession mid) ?_ (owns_of_calls rfl) (repliedKey_of_calls rfl)
    (history_same rfl rfl) fun s hs => ?_
  · funext s
    by_cases hs : s = st.net.opened
    · rw [hs, hfree]
      simp [Gate.System.newSession, GateServer.getKey]
    · simp [Gate.System.newSession, GateServer.getKey, hs]
  · have hne : st.net.opened ≠ s := by
      rintro rfl
      exact hs hfree
    simp [Gate.System.newSession, hne]

/-- A heartbeat or a disconnect that a session sends under its key. -/
theorem notice (h : Ledger st) {net : Gate.System.State} (session : Nat) {n : Notice}
    (hkeyed : Keyed net) (hgetKey : net.gate.getKey = st.net.gate.getKey)
    (hcalls : net.gate.calls = st.net.gate.calls)
    (hnotices : net.gate.notices = st.net.gate.notices ++ [n])
    (hkey : noticeKey n = st.net.gate.getKey session)
    (hleft : ∀ s, s ∉ net.connections_ ↔
      s ∉ st.net.connections_ ∨ noticeKind n = .disconnect ∧ s = session) :
    Ledger (moved st net) := by
  have hkind : noticeKind n ≠ .connect := by cases n <;> simp [noticeKind]
  refine h.tells (fun key => if noticeKey n = key then [noticeKind n] else []) hkeyed hgetKey
    (owns_of_calls hcalls) (repliedKey_of_calls hcalls) (fun key => ?_) (fun key => ?_)
    (fun key htold => ⟨session, ?_⟩) fun key hne => ?_
  · rw [history_move, asks_notice hcalls hnotices]
    by_cases hk : noticeKey n = key <;> simp [noticed, hk]
  · by_cases hk : noticeKey n = key <;> simp [hk, hkind.symm]
  · by_contra hk
    exact htold (if_neg fun heq => hk (hkey ▸ heq))
  · simp only [hleft]
    by_cases hk : noticeKey n = key
    · simp only [if_pos hk, List.mem_singleton]
      constructor
      · rintro ⟨s, hs, hnot | ⟨hdisconnect, -⟩⟩
        · exact Or.inl ⟨s, hs, hnot⟩
        · exact Or.inr hdisconnect.symm
      · rintro (⟨s, hs, hnot⟩ | hdisconnect)
        · exact ⟨s, hs, Or.inl hnot⟩
        · exact ⟨session, hkey ▸ hk, Or.inr ⟨hdisconnect.symm, rfl⟩⟩
    · simp only [if_neg hk, List.not_mem_nil, or_false]
      refine exists_congr fun s => and_congr_right fun hs => or_iff_left ?_
      rintro ⟨-, rfl⟩
      exact hk (hkey.trans hs)

theorem message (h : Ledger st) {session : Nat} (m : Gate.ClientCodec.Message)
    (hs : session < st.net.opened) :
    Ledger (moved st
      { st.net with gate := st.net.gate.onClientMessageCallback session m }) := by
  have hkeyed := h.keyed.message m hs
  have hgetKey := (Gate.System.sameRegistry_message st.net.gate session m).getKey
  by_cases htoken : m.op = 7
  · have hgate : st.net.gate.onClientMessageCallback session m =
        { st.net.gate with calls := st.net.gate.calls ++
          [{ session := session, request := ⟨st.net.gate.serverid_, m.body⟩ }] } :=
      if_pos htoken
    refine h.of_same hkeyed hgetKey (owns_concat (by rw [hgate]) rfl)
      (repliedKey_concat (by rw [hgate]) rfl) (fun key => ?_) fun s _ => Iff.rfl
    have hasks : asks st.net.gate (st.net.gate.onClientMessageCallback session m) =
        [.connect st.net.gate.calls.length] := by
      rw [hgate]
      simp [asks]
    refine (history_move st _ key).trans ?_
    rw [hasks]
    simp [noticed]
  by_cases hheartbeat : m.op = 2
  · have hgate : st.net.gate.onClientMessageCallback session m =
        { st.net.gate with notices := st.net.gate.notices ++
          [.heartbeat ⟨(st.net.gate.users session).mid_.signExtend 64,
            st.net.gate.getKey session, st.net.gate.serverid_⟩] } := by
      rw [GateServer.onClientMessageCallback, if_neg htoken, if_pos hheartbeat]
      rfl
    refine h.notice session hkeyed hgetKey (by rw [hgate]) (by rw [hgate]) rfl fun s => ?_
    simp [noticeKind]
  · have hgate : st.net.gate.onClientMessageCallback session m =
        st.net.gate.send session 1 1 (bytes "test") := by
      rw [GateServer.onClientMessageCallback, if_neg htoken, if_neg hheartbeat]
    have hcalls : (st.net.gate.onClientMessageCallback session m).calls = st.net.gate.calls := by
      rw [hgate]
      rfl
    have hnotices : (st.net.gate.onClientMessageCallback session m).notices =
        st.net.gate.notices := by
      rw [hgate]
      rfl
    exact h.of_same hkeyed hgetKey (owns_of_calls hcalls) (repliedKey_of_calls hcalls)
      (history_same (congrArg List.length hcalls) hnotices) fun s _ => Iff.rfl

theorem handle (h : Ledger st) {id : Nat} {call : Call} {response : ConnectReply}
    (hcall : st.net.gate.calls[id]? = some call) (hp : call.progress = .replied response)
    (hlive : call.session ∈ st.net.connections_)
    (hnokey : st.net.gate.getKey call.session = []) :
    Ledger (moved st (Gate.System.handled st.net id call response)) := by
  have hgetKey : (Gate.System.handled st.net id call response).gate.getKey =
      Function.update st.net.gate.getKey call.session response.key :=
    GateServer.getKey_handleConnect
  have howns : ∀ i s key, Owns (Gate.System.handled st.net id call response).gate i s key ↔
      if i = id then call.session = s ∧ response.key = key else Owns st.net.gate i s key := by
    intro i s key
    refine (owns_of_calls rfl i s key).trans ((owns_advance hcall i s key).trans ?_)
    simp
  have hreplied : ∀ i key, RepliedKey (Gate.System.handled st.net id call response).gate i key ↔
      RepliedKey st.net.gate i key := by
    intro i key
    refine (repliedKey_of_calls rfl i key).trans ((repliedKey_advance hcall i key).trans ?_)
    split
    · rename_i hi
      simp [RepliedKey, hi, hcall, Call.reply, hp]
    · rfl
  have hhistory : ∀ key, history (moved st (Gate.System.handled st.net id call response)) key =
      history st key :=
    history_same (List.length_set ..) rfl
  refine ⟨h.keyed.handle hcall hp hlive hnokey,
    fun i key hi => h.words i key ((hreplied i key).mp hi), ?_, ?_, ?_, ?_⟩
  · intro s hs
    simp only [hgetKey, howns] at hs ⊢
    by_cases hsession : s = call.session
    · exact ⟨id, by simp [hsession]⟩
    · rw [Function.update_of_ne hsession] at hs ⊢
      obtain ⟨i, hi⟩ := h.owner s hs
      refine ⟨i, ?_⟩
      rw [if_neg]
      · exact hi
      · rintro rfl
        obtain ⟨c, hc, -, r, hr, -⟩ := hi
        rw [hcall] at hc
        cases hc
        simp [hp] at hr
  · intro i s key hi
    simp only [hgetKey, howns] at hi ⊢
    split at hi
    · obtain ⟨rfl, rfl⟩ := hi
      rw [Function.update_self]
    · have hkey := h.owned i s key hi
      have hsession : s ≠ call.session := by
        rintro rfl
        exact h.key_ne_nil hi.replied (hkey.symm.trans hnokey)
      rw [Function.update_of_ne hsession, hkey]
  · intro key hnone
    rw [hhistory]
    exact h.unknown key fun i hi => hnone i ((hreplied i key).mpr hi)
  · intro key i hi
    rw [hhistory]
    obtain ⟨rest, hrest, hconnect, hdisconnect⟩ := h.known key i ((hreplied i key).mp hi)
    refine ⟨rest, hrest, hconnect, hdisconnect.trans (exists_congr fun s => ?_)⟩
    refine and_congr_left fun hs => ?_
    have hsession : s ≠ call.session := by
      rintro rfl
      exact hs hlive
    simp only [hgetKey, Function.update_of_ne hsession]

theorem close (h : Ledger st) {session : Nat} (hs : session ∈ st.net.connections_) :
    Ledger (moved st (Gate.System.closed st.net session)) := by
  refine h.notice session (h.keyed.close hs) rfl rfl rfl rfl fun s => ?_
  simp only [Std.ExtTreeSet.mem_erase, ne_eq, Std.LawfulEqCmp.compare_eq_iff_eq, noticeKind]
  grind

/-- A token that is accepted: the key in the reply is a new one. -/
theorem accepted (h : Ledger st) {id : Nat} {call : Call} {response : ConnectReply} {a : Act}
    (hwire : st.wire = .connect id :: st'.wire) (hcall : st.net.gate.calls[id]? = some call)
    (hp : call.progress = .called) (hfresh : FreshReply st.net (.reply id response))
    (hword : IsWord response.key) (hnet : st'.net = Gate.System.replied st.net id call response)
    (hlog : st'.logic.log = st.logic.log ++ [a]) (hkind : a.kind = .connect)
    (hkey : a.key = response.key) : Ledger st' := by
  have hnew : ∀ i, ¬ RepliedKey st.net.gate i response.key := fun i ⟨c, hc, hkey⟩ =>
    hfresh.2 c (List.mem_of_getElem? hc) hkey
  have howns : ∀ i s key, Owns (advance st.net.gate id call (.replied response)) i s key ↔
      Owns st.net.gate i s key := by
    intro i s key
    rw [owns_advance hcall]
    split
    · rename_i hi
      simp [Owns, hi, hcall, hp]
    · rfl
  have hreplied : ∀ i key, RepliedKey (advance st.net.gate id call (.replied response)) i key ↔
      if i = id then response.key = key else RepliedKey st.net.gate i key := by
    intro i key
    rw [repliedKey_advance hcall]
    simp [Call.reply]
  have hother : ∀ key, key ≠ response.key → history st' key = history st key := by
    intro key hne
    simp [history, hlog, hwire, noticed, List.filterMap_cons, hkey, hne.symm]
  have hfirst : history st' response.key = [.connect] := by
    have hnil := (h.unknown response.key hnew).2 hfresh.1
    simp only [history, hwire, List.append_eq_nil_iff, List.filterMap_cons, noticed] at hnil
    simp only [history, hlog, List.filter_append, List.map_append, hnil.1, hnil.2]
    simp [hkey, hkind]
  obtain ⟨net, logic, wire⟩ := st'
  obtain rfl : net = Gate.System.replied st.net id call response := hnet
  refine ⟨h.keyed.reply hcall hp hfresh, ?_, ?_, ?_, ?_, ?_⟩
  · intro i key hi
    have hi' := (hreplied i key).mp hi
    split at hi'
    · exact hi' ▸ hword
    · exact h.words i key hi'
  · intro s hs
    obtain ⟨i, hi⟩ := h.owner s hs
    exact ⟨i, (howns i s _).mpr hi⟩
  · intro i s key hi
    exact h.owned i s key ((howns i s key).mp hi)
  · intro key hnone
    have hne : key ≠ response.key := by
      rintro rfl
      exact hnone id ((hreplied id _).mpr (by simp))
    rw [hother key hne]
    refine h.unknown key fun i hi => hnone i ((hreplied i key).mpr ?_)
    rw [if_neg]
    · exact hi
    · rintro rfl
      obtain ⟨c, hc, hreply⟩ := hi
      rw [hcall] at hc
      cases hc
      simp [Call.reply, hp] at hreply
  · intro key i hi
    by_cases hsame : key = response.key
    · refine ⟨[], by rw [hsame, hfirst], by simp, ?_⟩
      simp only [List.not_mem_nil, false_iff]
      rintro ⟨s, hs, -⟩
      have hs' : st.net.gate.getKey s = response.key := hs.trans hsame
      obtain ⟨j, hj⟩ := h.owner s (hs' ▸ hfresh.1)
      exact hnew j (hs' ▸ hj.replied)
    · rw [hother key hsame]
      refine h.known key i ?_
      have hi' := (hreplied i key).mp hi
      split at hi'
      · exact absurd hi'.symm hsame
      · exact hi'

/-- The logic server takes a heartbeat or a disconnect. -/
theorem taken (h : Ledger st) {n : Notice} {a : Act} (hwire : st.wire = .notice n :: st'.wire)
    (hnet : st'.net = st.net) (hlog : st'.logic.log = st.logic.log ++ [a])
    (hkey : a.key = noticeKey n) (hkind : a.kind = noticeKind n) : Ledger st' := by
  refine h.of_same ?_ ?_ ?_ ?_ (fun key => ?_) ?_
  · rw [hnet]
    exact h.keyed
  · rw [hnet]
  · simp [hnet]
  · simp [hnet]
  · by_cases hk : noticeKey n = key <;> simp [history, hlog, hwire, noticed, hkey, hkind, hk]
  · simp [hnet]

/-- What the logic server is told of on the wire has a key that was issued, or none. -/
theorem plain (h : Ledger st) {n : Notice} (hmem : .notice n ∈ st.wire) :
    Registration.Plain (noticeKey n) := by
  by_cases hnil : noticeKey n = []
  · exact Or.inl hnil
  by_cases hissued : ∃ id, RepliedKey st.net.gate id (noticeKey n)
  · obtain ⟨id, hid⟩ := hissued
    exact Or.inr (h.words id _ hid)
  · have hnone := (h.unknown (noticeKey n) (not_exists.mp hissued)).2 hnil
    have hwire := (List.append_eq_nil_iff.mp hnone).2
    rw [List.filterMap_eq_nil_iff] at hwire
    have hnoticed := hwire _ hmem
    simp [noticed] at hnoticed

theorem serve (h : Ledger st) (orders : Orders) (request : Gate.Request) :
    Ledger (moved st { st.net with gate := st.net.gate.serve orders request }) := by
  obtain ⟨hsame, hcalls⟩ := Gate.System.serve_same orders st.net.gate request
  have hnotices : (st.net.gate.serve orders request).notices = st.net.gate.notices := by
    obtain ⟨out, hsends⟩ := Gate.System.serve_eq orders st.net.gate request
    rw [hsends]
  have hkeyed : Keyed { st.net with gate := st.net.gate.serve orders request } :=
    h.keyed.of_same hsame (hcalls ▸ h.keyed.callers)
      (h.keyed.replies.mono fun _ _ => .of_calls hcalls) fun _ _ => .of_calls hcalls
  exact h.of_same hkeyed hsame.getKey (owns_of_calls hcalls) (repliedKey_of_calls hcalls)
    (history_same (congrArg List.length hcalls) hnotices) fun _ _ => Iff.rfl

/-- A session that is closed already. -/
theorem closeAgain (h : Ledger st) : Ledger (moved st st.net) := by
  rw [moved, asks_same rfl rfl, List.append_nil]
  exact h

end Ledger

/-! ## The runs -/

/-- A token is accepted, and the reply has a new key. -/
def Grants (cfg : Config) (st : State R) (clock : List (BitVec 64)) : Ask → Prop
  | .connect id => ∀ call ∈ st.net.gate.calls[id]?,
    ∀ o ∈ Logic.connect cfg st.logic.statics clock call.request,
      o.accepted = true ∧ FreshReply st.net (.reply id o.response)
  | .notice _ => True

/-- The logic server accepts the tokens, and replies with a new key each time, which is
handled for a connected session that has no key yet. -/
def Orderly (cfg : Config) (st : State R) : Label → Prop
  | .take _ clock => ∀ ask ∈ st.wire.head?, Grants cfg st clock ask
  | .handle id => Gate.Hall.Orderly st.net (.handle id)
  | _ => True

instance (cfg : Config) (st : State R) (clock : List (BitVec 64)) :
    (ask : Ask) → Decidable (Grants cfg st clock ask)
  | .connect id => inferInstanceAs (Decidable (∀ call ∈ st.net.gate.calls[id]?,
    ∀ o ∈ Logic.connect cfg st.logic.statics clock call.request,
      o.accepted = true ∧ FreshReply st.net (.reply id o.response)))
  | .notice _ => inferInstanceAs (Decidable True)

instance (cfg : Config) (st : State R) : (l : Label) → Decidable (Orderly cfg st l)
  | .take _ clock => inferInstanceAs (Decidable (∀ ask ∈ st.wire.head?, Grants cfg st clock ask))
  | .handle id => inferInstanceAs (Decidable (Gate.Hall.Orderly st.net (.handle id)))
  | .newSession _ | .message _ _ | .close _ | .serve _ _ => inferInstanceAs (Decidable True)

/-- What holds in every state of an orderly run. -/
structure Inv (serverid : Bytes) (st : State R) : Prop where
  kept : Kept serverid st
  ledger : Ledger st

theorem Inv.step (hR : R.Lawful) {cfg : Config} {serverid : Bytes} (hserverid : IsWord serverid)
    {st st' : State R} {l : Label} (h : Inv serverid st) (horderly : Orderly cfg st l)
    (hstep : step cfg st l = some st') : Inv serverid st' := by
  cases step_inv hstep with
  | move l gl net hl hmove =>
    refine ⟨h.kept.move hmove, ?_⟩
    cases hl with
    | newSession mid =>
      cases hmove
      exact h.ledger.newSession mid
    | message session m =>
      cases hmove with
      | message _ _ hs => exact h.ledger.message m hs
    | handle id =>
      cases hmove with
      | handle _ call response hcall hp =>
        exact h.ledger.handle hcall hp (horderly.1 call hcall) (horderly.2 call hcall)
    | close session =>
      cases hmove with
      | close _ hs => exact h.ledger.close hs
      | closeAgain _ hs => exact h.ledger.closeAgain
    | serve orders request =>
      cases hmove
      exact h.ledger.serve orders request
  | connect times clock id rest call o logic hwire hcall hp hconnect hlogic =>
    obtain ⟨haccepted, hfresh⟩ := horderly (.connect id) (by rw [hwire]; rfl) call hcall o hconnect
    obtain ⟨hword, a, hlog, hkind, hkey, -⟩ := registered_of_accepted hconnect hlogic haccepted
    exact ⟨h.kept.accepted hR hserverid hcall hlogic _ rest,
      h.ledger.accepted hwire hcall hp hfresh hword rfl hlog hkind hkey⟩
  | notice times clock n rest logic hwire hlogic =>
    have hplain := h.ledger.plain (n := n) (by simp [hwire])
    refine ⟨h.kept.notice hR hlogic hplain rest, ?_⟩
    cases n with
    | heartbeat request =>
      cases hlogic
      exact h.ledger.taken hwire rfl rfl rfl rfl
    | disconnect request =>
      cases hlogic
      exact h.ledger.taken hwire rfl rfl rfl rfl

theorem inv_init (hR : R.Lawful) (serverid : Bytes) : Inv serverid (init R serverid) where
  kept := by
    refine ⟨rfl, ?_, ?_, Heartbeat.inv_init hR⟩
    · simp [init, Gate.System.init]
    · simp [init, Heartbeat.init]
  ledger := by
    have hnone : ∀ id key, ¬ RepliedKey (init R serverid).net.gate id key := by
      rintro id key ⟨call, hcall, -⟩
      simp [init, Gate.System.init] at hcall
    refine ⟨Gate.System.keyed_init serverid, ?_, fun s hs => (hs rfl).elim, ?_, ?_, ?_⟩
    · intro id key hid
      exact (hnone id key hid).elim
    · intro id s key hid
      exact (hnone id key hid.replied).elim
    · intro key _
      simp [history, init, Heartbeat.init]
    · intro key id hid
      exact (hnone id key hid).elim

theorem run_inv (hR : R.Lawful) {cfg : Config} {serverid : Bytes} (hserverid : IsWord serverid)
    {ls : List Label} {st : State R} (hrun : run (step cfg) (init R serverid) ls = some st)
    (horderly : Guarded (step cfg) (Orderly cfg) (init R serverid) ls) : Inv serverid st :=
  run_invariant (fun _ _ _ h hg hl => h.step hR hserverid hg hl) ls _ st (inv_init hR serverid)
    horderly hrun

/-! ## Who is found -/

namespace Ledger

variable {st : State R}

/-- Under a key there is the connected session that has it. -/
theorem under_iff (h : Ledger st) {key : Bytes} (hne : key ≠ []) (s : Nat) :
    st.net.gate.Under key s ↔ st.net.gate.getKey s = key ∧ s ∈ st.net.connections_ := by
  constructor
  · intro hunder
    exact ⟨h.keyed.keys key s hunder, h.keyed.live s (Or.inl ⟨key, hunder⟩)⟩
  · rintro ⟨rfl, hs⟩
    exact h.keyed.held s hs hne

/-- No two sessions have the same key. -/
theorem session_unique (h : Ledger st) {s u : Nat} (hne : st.net.gate.getKey s ≠ [])
    (heq : st.net.gate.getKey u = st.net.gate.getKey s) : u = s := by
  obtain ⟨i, hi⟩ := h.owner s hne
  obtain ⟨j, hj⟩ := h.owner u (heq ▸ hne)
  have hij : i = j := h.keyed.replies.distinct i j _ hi.replied (heq ▸ hj.replied)
  obtain ⟨c, hc, hs, -⟩ := hi
  obtain ⟨d, hd, hu, -⟩ := hj
  rw [hij, hd] at hc
  cases hc
  exact hu.symm.trans hs

/-- A key that is in use was issued. -/
theorem issued_of_under (h : Ledger st) {key : Bytes} {s : Nat} (hunder : st.net.gate.Under key s) :
    ∃ id, RepliedKey st.net.gate id key := by
  have hkey := h.keyed.keys key s hunder
  obtain ⟨id, hid⟩ := h.owner s (h.keyed.named s (Or.inl ⟨key, hunder⟩))
  exact ⟨id, hkey ▸ hid.replied⟩

/-- When the replies are handled, a key that was issued is in use as long as the session that
has it is connected. -/
theorem under_iff_not_left (h : Ledger st) (hsettled : Settled st) {key : Bytes} {id : Nat}
    (hid : RepliedKey st.net.gate id key) :
    (∃ s, st.net.gate.Under key s) ↔
      ¬ ∃ s, st.net.gate.getKey s = key ∧ s ∉ st.net.connections_ := by
  have hne := h.key_ne_nil hid
  simp only [h.under_iff hne]
  constructor
  · rintro ⟨s, rfl, hs⟩ ⟨u, hu, hleft⟩
    rw [h.session_unique hne hu] at hleft
    exact hleft hs
  · intro hleft
    obtain ⟨call, hcall, hkey⟩ := hid
    obtain ⟨response, hp⟩ := hsettled.2 call (List.mem_of_getElem? hcall)
    have hresponse : response.key = key := by simpa [Call.reply, hp] using hkey
    have howned := h.owned id call.session key ⟨call, hcall, rfl, response, hp, hresponse⟩
    exact ⟨call.session, howned, not_not.mp fun hs => hleft ⟨_, howned, hs⟩⟩

/-- What the log says of a key that was issued. -/
theorem began (h : Ledger st) (hsettled : Settled st) {key : Bytes} {id : Nat}
    (hid : RepliedKey st.net.gate id key) :
    ∃ before a rest, st.logic.log = before ++ a :: rest ∧ a.kind = .connect ∧ a.key = key ∧
      (∀ b ∈ before, b.key ≠ key) ∧ Last key rest ∧
      (Stays key rest ↔ ∃ s, st.net.gate.Under key s) := by
  obtain ⟨kinds, hkinds, hconnect, hdisconnect⟩ := h.known key id hid
  rw [history, hsettled.1, List.filterMap_nil, List.append_nil] at hkinds
  obtain ⟨a, acts, hacts, hkind, rfl⟩ := List.map_eq_cons_iff.mp hkinds
  obtain ⟨before, rest, hlog, hbefore, hkey, rfl⟩ := List.filter_eq_cons_iff.mp hacts
  -- what is said of the acts under the key, for all acts
  have hiff : ∀ kind : Kind, kind ∉ (rest.filter fun b => b.key = key).map Act.kind ↔
      ∀ b ∈ rest, b.kind = kind → b.key ≠ key := by
    intro kind
    simp only [List.mem_map, List.mem_filter, decide_eq_true_eq, not_exists, not_and]
    exact forall_congr' fun b =>
      ⟨fun hb hmem hk heq => hb ⟨hmem, heq⟩ hk, fun hb hmem hk => hb hmem.1 hk hmem.2⟩
  refine ⟨before, a, rest, hlog, hkind, by simpa using hkey, by simpa using hbefore,
    (hiff .connect).mp hconnect, ?_⟩
  rw [h.under_iff_not_left hsettled hid, ← hdisconnect]
  exact (hiff .disconnect).symm

end Ledger

/-- A key that was never issued has no lease. -/
theorem keyLease_eq_none {key : Bytes} {log : List Act} (h : Last key log) :
    Heartbeat.keyLease key log = none :=
  foldl_after_none (List.forall_mem_map.mpr fun a ha =>
    Heartbeat.keyEvent_of_not_connect (h a ha))

/-- Two clients get a key each; the first one sends a heartbeat, the other one leaves. -/
def comings : List Label :=
  [.newSession 0, .message 0 ⟨7, 0, bytes "number"⟩, .newSession 0,
    .message 1 ⟨7, 0, bytes "number"⟩, .take [0, 0, 1, 1] [1000, 1000], .handle 0,
    .take [1000, 1001, 1001, 1002] [1000], .handle 1, .message 0 ⟨2, 0, []⟩, .close 1,
    .take [1000000, 1000001] [], .take [1000002, 1000002] []]

end Cppim.Cluster.Presence
