import Cppim.Lib.Transition
import Mathlib.Algebra.Group.Nat.Defs
import Mathlib.Data.List.Perm.Basic
import Mathlib.Data.Set.Insert
import Mathlib.Tactic.Common

/-! `net/TcpServer.h`, `net/TcpServer.cc`: the table of the sessions of a server.

A session is named by the number of sessions made before it. Its `id_` is the 64-bit
counter of the server, and the table is keyed by an `int`. A close looks its session up
under the mutex and hands what it found to `disconnectcallback_` behind it, so that other
threads come in between. -/

namespace Cppim.Net.TcpServer

open Cppim.Lib.Transition

/-! ## The table -/

/-- `uint64_t` to `int`. -/
def toKey (id : BitVec 64) : Int := (id.setWidth 32).toInt

structure State where
  sessionid_ : BitVec 64 := 1
  connections_ : Std.ExtTreeMap Int Nat := ∅
  /-- the `id_` of each session -/
  ids : List (BitVec 64) := []
  /-- the sessions of the calls of `close` so far -/
  closed : List Nat := []
  /-- what calls of `DefaultDisconnectCallback` have found and are going to report -/
  reporting : List Nat := []
  /-- the calls of `disconnectcallback_` -/
  reported : List Nat := []

inductive Label where
  /-- `newSession`, on the thread of the acceptor -/
  | newSession
  /-- `close` of a session, up to the end of the section under the mutex -/
  | close (session : Nat)
  /-- the call of `disconnectcallback_` behind it -/
  | report (j : Nat)
  deriving Repr, DecidableEq

/-- `connections_.insert` does not overwrite. -/
def newSession (st : State) : State :=
  { st with
    connections_ := st.connections_.insertIfNew (toKey st.sessionid_) st.ids.length
    ids := st.ids ++ [st.sessionid_]
    sessionid_ := st.sessionid_ + 1 }

/-- The section under the mutex; `hasCallback` is whether `disconnectcallback_` is set. -/
def defaultDisconnectCallback (hasCallback : Bool) (st : State) (id : Int) : State :=
  match st.connections_[id]? with
  | some session =>
    { st with
      connections_ := st.connections_.erase id
      reporting := st.reporting ++ if hasCallback then [session] else [] }
  | none => st

def step (hasCallback : Bool) (st : State) : Label → Option State
  | .newSession => some (newSession st)
  | .close session =>
    match st.ids[session]? with
    | some id =>
      let st := { st with closed := st.closed ++ [session] }
      some (defaultDisconnectCallback hasCallback st (toKey id))
    | none => none
  | .report j =>
    match st.reporting[j]? with
    | some session =>
      some { st with
        reporting := st.reporting.eraseIdx j
        reported := st.reported ++ [session] }
    | none => none

/-- The new session is found under its key, unless another one is. -/
theorem getElem?_newSession (st : State) (key : Int) :
    (newSession st).connections_[key]? =
      if toKey st.sessionid_ = key then some (st.connections_[key]?.getD st.ids.length)
      else st.connections_[key]? := by
  simp only [newSession, Std.ExtTreeMap.getElem?_insertIfNew,
    Std.ExtTreeMap.mem_iff_isSome_getElem?]
  by_cases hkey : toKey st.sessionid_ = key
  · subst hkey
    cases h : st.connections_[toKey st.sessionid_]? <;> simp
  · simp [hkey]

theorem length_newSession (st : State) : (newSession st).ids.length = st.ids.length + 1 := by
  simp only [newSession, List.length_append, List.length_singleton]

/-- A session stands in the table. -/
def State.Holds (st : State) (session : Nat) : Prop :=
  ∃ key : Int, st.connections_[key]? = some session

/-! ## Session numbers and table keys -/

/-- The `id_` of a session. -/
def idOf (session : Nat) : BitVec 64 := BitVec.ofNat 64 (session + 1)

/-- Sessions share a key exactly if their numbers differ by a multiple of `2 ^ 32`. -/
theorem toKey_idOf_eq_iff (s t : Nat) :
    toKey (idOf s) = toKey (idOf t) ↔ (s + 1) % 2 ^ 32 = (t + 1) % 2 ^ 32 := by
  unfold toKey idOf
  rw [BitVec.toInt_inj, ← BitVec.toNat_inj]
  simp only [BitVec.toNat_setWidth, BitVec.toNat_ofNat]
  omega

theorem toKey_idOf_inj {s t : Nat} (hs : s < 2 ^ 32) (ht : t < 2 ^ 32)
    (h : toKey (idOf s) = toKey (idOf t)) : s = t := by
  rw [toKey_idOf_eq_iff] at h
  omega

/-- The first two sessions that share a key. -/
theorem toKey_idOf_wrap : toKey (idOf (2 ^ 32)) = toKey (idOf 0) :=
  (toKey_idOf_eq_iff _ _).mpr (by omega)

/-! ## What holds in every run -/

/-- The sessions are numbered by their `id_`, and only sessions that exist are closed. -/
structure Numbered (st : State) : Prop where
  next : st.sessionid_ = idOf st.ids.length
  ids : ∀ session, session < st.ids.length → st.ids[session]? = some (idOf session)
  closed : ∀ session ∈ st.closed, session < st.ids.length

theorem numbered_initial : Numbered {} where
  next := rfl
  ids := by
    intro session h
    cases h
  closed := by
    intro session h
    cases h

theorem idOf_succ (n : Nat) : idOf n + 1 = idOf (n + 1) := by
  unfold idOf
  rw [BitVec.ofNat_add (n + 1) 1]
  rfl

theorem Numbered.newSession {st : State} (h : Numbered st) : Numbered (newSession st) where
  next := by
    rw [length_newSession, ← idOf_succ, ← h.next]
    rfl
  ids := by
    intro session hs
    simp only [TcpServer.newSession, List.length_append, List.length_singleton] at hs ⊢
    rcases Nat.lt_succ_iff_lt_or_eq.mp hs with hlt | rfl
    · rw [List.getElem?_append_left hlt, h.ids session hlt]
    · rw [List.getElem?_concat_length, h.next]
  closed := by
    intro session hs
    have := h.closed session hs
    rw [length_newSession]
    omega

/-- The other steps make no session. -/
theorem Numbered.of_same {st st' : State} (h : Numbered st)
    (hnext : st'.sessionid_ = st.sessionid_) (hids : st'.ids = st.ids)
    (hclosed : ∀ session ∈ st'.closed, session < st.ids.length) : Numbered st' where
  next := by rw [hnext, hids, h.next]
  ids := by
    rw [hids]
    exact h.ids
  closed := by
    rw [hids]
    exact hclosed

/-- A close is of a session that exists. -/
theorem Numbered.closed_append {st : State} (h : Numbered st) {session : Nat}
    (hs : session < st.ids.length) : ∀ s ∈ st.closed ++ [session], s < st.ids.length := by
  intro s hin
  rcases List.mem_append.mp hin with hin | hin
  · exact h.closed s hin
  · rwa [List.mem_singleton.mp hin]

/-! ## The steps -/

/-- The steps, one constructor for each way in which a step is taken. -/
inductive Step (hasCallback : Bool) (st : State) : Label → State → Prop
  | newSession : Step hasCallback st .newSession (newSession st)
  | found (session other : Nat) (id : BitVec 64) (hid : st.ids[session]? = some id)
      (hother : st.connections_[toKey id]? = some other) :
    Step hasCallback st (.close session) { st with
      closed := st.closed ++ [session]
      connections_ := st.connections_.erase (toKey id)
      reporting := st.reporting ++ if hasCallback then [other] else [] }
  | notFound (session : Nat) (id : BitVec 64) (hid : st.ids[session]? = some id)
      (hnone : st.connections_[toKey id]? = none) :
    Step hasCallback st (.close session) { st with closed := st.closed ++ [session] }
  | report (j session : Nat) (hj : st.reporting[j]? = some session) :
    Step hasCallback st (.report j) { st with
      reporting := st.reporting.eraseIdx j
      reported := st.reported ++ [session] }

variable {hasCallback : Bool}

theorem step_inv {st st' : State} {l : Label} (h : step hasCallback st l = some st') :
    Step hasCallback st l st' := by
  cases l with
  | newSession =>
    cases h
    exact .newSession
  | close session =>
    simp only [step] at h
    split at h
    · rename_i id hid
      simp only [defaultDisconnectCallback] at h
      split at h
      · cases h
        exact .found session _ id hid ‹_›
      · cases h
        exact .notFound session id hid ‹_›
    · cases h
  | report j =>
    simp only [step] at h
    split at h
    · cases h
      exact .report j _ ‹_›
    · cases h

/-- Any session that exists can be closed, any number of times. -/
theorem Numbered.close_enabled {st : State} (h : Numbered st) (hasCallback : Bool) (session : Nat)
    (hs : session < st.ids.length) : ∃ st', step hasCallback st (.close session) = some st' := by
  simp only [step, h.ids session hs]
  exact ⟨_, rfl⟩

/-- Behind a close nothing stands under the key of its session. -/
theorem Numbered.close_erases {st st' : State} (h : Numbered st) {session : Nat}
    (hs : session < st.ids.length) (hstep : step hasCallback st (.close session) = some st') :
    st'.connections_[toKey (idOf session)]? = none := by
  cases step_inv hstep with
  | found _ other id hid hother =>
    rw [h.ids session hs] at hid
    cases hid
    simp
  | notFound _ id hid hnone =>
    rw [h.ids session hs] at hid
    cases hid
    exact hnone

/-- While no two sessions share a key, the table holds exactly the sessions that were not
closed, each under its own key. -/
structure Inv (st : State) : Prop extends Numbered st where
  few : st.ids.length ≤ 2 ^ 32
  table : ∀ (key : Int) session, st.connections_[key]? = some session ↔
    session < st.ids.length ∧ session ∉ st.closed ∧ key = toKey (idOf session)

theorem inv_initial : Inv {} where
  toNumbered := numbered_initial
  few := Nat.zero_le _
  table := by
    intro key session
    simp

/-- The key of a session leads to the session, as long as it is not closed. -/
theorem Inv.lookup {st : State} (h : Inv st) {session : Nat} (hs : session < st.ids.length) :
    st.connections_[toKey (idOf session)]? =
      if session ∈ st.closed then none else some session := by
  split
  · rename_i hclosed
    rw [Option.eq_none_iff_forall_ne_some]
    intro other hother
    obtain ⟨hlt, hnot, hkey⟩ := (h.table _ other).mp hother
    have hfew := h.few
    have heq := toKey_idOf_inj (by omega) (by omega) hkey
    exact hnot (heq ▸ hclosed)
  · rename_i hopen
    exact (h.table _ session).mpr ⟨hs, hopen, rfl⟩

/-- A close that finds an entry is the first one of its session and finds the session. -/
theorem Inv.found {st : State} (h : Inv st) {session other : Nat} {id : BitVec 64}
    (hid : st.ids[session]? = some id) (hother : st.connections_[toKey id]? = some other) :
    session < st.ids.length ∧ id = idOf session ∧ other = session ∧ session ∉ st.closed := by
  have hs := (List.getElem?_eq_some_iff.mp hid).1
  rw [h.ids session hs] at hid
  cases hid
  rw [h.lookup hs] at hother
  split at hother
  · cases hother
  · cases hother
    exact ⟨hs, rfl, rfl, ‹_›⟩

/-- A close that finds nothing is not the first one of its session. -/
theorem Inv.notFound {st : State} (h : Inv st) {session : Nat} {id : BitVec 64}
    (hid : st.ids[session]? = some id) (hnone : st.connections_[toKey id]? = none) :
    session < st.ids.length ∧ session ∈ st.closed := by
  have hs := (List.getElem?_eq_some_iff.mp hid).1
  rw [h.ids session hs] at hid
  cases hid
  rw [h.lookup hs] at hnone
  split at hnone
  · exact ⟨hs, ‹_›⟩
  · cases hnone

theorem Inv.holds {st : State} (h : Inv st) (session : Nat) :
    st.Holds session ↔ session < st.ids.length ∧ session ∉ st.closed := by
  constructor
  · rintro ⟨key, hkey⟩
    obtain ⟨hlt, hnot, -⟩ := (h.table key session).mp hkey
    exact ⟨hlt, hnot⟩
  · rintro ⟨hlt, hnot⟩
    exact ⟨_, (h.table _ session).mpr ⟨hlt, hnot, rfl⟩⟩

/-- The entry of a session that is closed for the first time goes. -/
theorem Inv.erased {st : State} (h : Inv st) {session : Nat} (hs : session < st.ids.length)
    (key : Int) (other : Nat) :
    (st.connections_.erase (toKey (idOf session)))[key]? = some other ↔
      other < st.ids.length ∧ other ∉ st.closed ++ [session] ∧ key = toKey (idOf other) := by
  have hfew := h.few
  rw [Std.ExtTreeMap.getElem?_erase, List.mem_append, List.mem_singleton]
  by_cases hkey : toKey (idOf session) = key
  · -- under this key the table holds nobody else
    have hnone : ¬ (other < st.ids.length ∧ ¬ (other ∈ st.closed ∨ other = session) ∧
        key = toKey (idOf other)) := by
      rintro ⟨hlt, hnot, heq⟩
      have := toKey_idOf_inj (by omega) (by omega) (hkey.trans heq)
      exact hnot (Or.inr this.symm)
    rw [if_pos (by simpa using hkey)]
    exact iff_of_false (by simp) hnone
  · have hne : key = toKey (idOf other) → other ≠ session := by
      rintro heq rfl
      exact hkey heq.symm
    rw [if_neg (by simpa using hkey), h.table]
    constructor
    · rintro ⟨hlt, hnot, heq⟩
      exact ⟨hlt, by rintro (hin | hin); exacts [hnot hin, hne heq hin], heq⟩
    · rintro ⟨hlt, hnot, heq⟩
      exact ⟨hlt, fun hin => hnot (Or.inl hin), heq⟩

/-- A session is added under a key that nobody has. -/
theorem Inv.newSession {st : State} (h : Inv st) (hfew : st.ids.length < 2 ^ 32) :
    Inv (newSession st) where
  toNumbered := h.toNumbered.newSession
  few := by
    rw [length_newSession]
    omega
  table := by
    intro key session
    have hnot : st.ids.length ∉ st.closed := fun hin => by
      have := h.closed _ hin
      omega
    have hfresh : st.connections_[toKey (idOf st.ids.length)]? = none := by
      rw [Option.eq_none_iff_forall_ne_some]
      intro other hother
      obtain ⟨hlt, -, hkey⟩ := (h.table _ other).mp hother
      have := toKey_idOf_inj hfew (by omega) hkey
      omega
    rw [getElem?_newSession, h.next, length_newSession]
    by_cases hkey : toKey (idOf st.ids.length) = key
    · rw [if_pos hkey, ← hkey, hfresh, Option.getD_none, Option.some.injEq]
      constructor
      · rintro rfl
        exact ⟨by omega, hnot, rfl⟩
      · rintro ⟨hlt, -, heq⟩
        exact toKey_idOf_inj hfew (by omega) heq
    · rw [if_neg hkey, h.table]
      constructor
      · rintro ⟨hlt, hopen, heq⟩
        exact ⟨by omega, hopen, heq⟩
      · rintro ⟨hlt, hopen, heq⟩
        have hne : session ≠ st.ids.length := by
          rintro rfl
          exact hkey heq.symm
        exact ⟨by omega, hopen, heq⟩

/-- Every other step keeps the table in order. -/
theorem Step.inv {st st' : State} {l : Label} (h : Step hasCallback st l st') (hi : Inv st)
    (hl : l = .newSession → st.ids.length < 2 ^ 32) : Inv st' := by
  cases h with
  | newSession => exact hi.newSession (hl rfl)
  | found session other id hid hother =>
    obtain ⟨hs, rfl, -, -⟩ := hi.found hid hother
    exact ⟨hi.of_same rfl rfl (hi.closed_append hs), hi.few, hi.erased hs⟩
  | notFound session id hid hnone =>
    obtain ⟨hs, hin⟩ := hi.notFound hid hnone
    refine ⟨hi.of_same rfl rfl (hi.closed_append hs), hi.few, fun key other => ?_⟩
    have hmem : other ∈ st.closed ++ [session] ↔ other ∈ st.closed := by
      rw [List.mem_append, List.mem_singleton]
      exact ⟨by rintro (hin | rfl) <;> assumption, Or.inl⟩
    rw [hmem]
    exact hi.table key other
  | report j session hj => exact ⟨hi.of_same rfl rfl hi.closed, hi.few, hi.table⟩

/-! ## What a close does -/

/-- Whichever session is closed next, the first close takes the session itself out of the
table and reports it, and a later one does nothing. -/
def ClosesRight (hasCallback : Bool) (st : State) : Prop :=
  ∀ session st', step hasCallback st (.close session) = some st' →
    if session ∈ st.closed then
      st'.connections_ = st.connections_ ∧ st'.reporting = st.reporting
    else
      st.Holds session ∧ (∀ other, st'.Holds other ↔ st.Holds other ∧ other ≠ session) ∧
        st'.reporting = st.reporting ++ if hasCallback then [session] else []

theorem Inv.closesRight {st : State} (h : Inv st) : ClosesRight hasCallback st := by
  intro session st' hstep
  cases step_inv hstep with
  | found _ other id hid hother =>
    obtain ⟨hs, rfl, rfl, hopen⟩ := h.found hid hother
    rw [if_neg hopen]
    refine ⟨(h.holds other).mpr ⟨hs, hopen⟩, fun s => ?_, rfl⟩
    rw [h.holds]
    simp only [State.Holds, h.erased hs, List.mem_append, List.mem_singleton]
    constructor
    · rintro ⟨key, hlt, hnot, -⟩
      exact ⟨⟨hlt, fun hin => hnot (Or.inl hin)⟩, fun heq => hnot (Or.inr heq)⟩
    · rintro ⟨⟨hlt, hnot⟩, hne⟩
      exact ⟨_, hlt, by rintro (hin | hin); exacts [hnot hin, hne hin], rfl⟩
  | notFound _ id hid hnone =>
    rw [if_pos (h.notFound hid hnone).2]
    exact ⟨rfl, rfl⟩

/-- The session behind the last key is not added while the first one is there. -/
theorem Inv.newSession_same {st : State} (h : Inv st) (hfull : st.ids.length = 2 ^ 32)
    (hopen : 0 ∉ st.closed) : (TcpServer.newSession st).connections_ = st.connections_ := by
  apply Std.ExtTreeMap.ext_getElem?
  intro key
  rw [getElem?_newSession, h.next, hfull, toKey_idOf_wrap]
  split
  · rename_i heq
    rw [← heq, h.lookup (by omega), if_neg hopen, Option.getD_some]
  · rfl

/-- One session more, and two sessions share a key: if the older one is in the table, the
close of the new one goes wrong, and if not, a later close of the older one does. -/
theorem not_closesRight {st : State} (h : Inv st) (hfull : st.ids.length = 2 ^ 32) :
    ¬ ClosesRight hasCallback (newSession st) := by
  intro hright
  have hnum : Numbered (newSession st) := h.toNumbered.newSession
  have hlen : (newSession st).ids.length = 2 ^ 32 + 1 := by
    rw [length_newSession, hfull]
  have hkey : toKey st.sessionid_ = toKey (idOf 0) := by
    rw [h.next, hfull, toKey_idOf_wrap]
  by_cases hzero : 0 ∈ st.closed
  · -- the new session stands under the key of session 0, which is closed once more
    have hentry : (newSession st).connections_[toKey (idOf 0)]? = some st.ids.length := by
      rw [getElem?_newSession, if_pos hkey, h.lookup (by omega), if_pos hzero, Option.getD_none]
    obtain ⟨st', hstep⟩ := hnum.close_enabled hasCallback 0 (by omega)
    have hclose := hright 0 st' hstep
    rw [if_pos (show 0 ∈ (newSession st).closed from hzero)] at hclose
    have hgone : st'.connections_[toKey (idOf 0)]? = none := hnum.close_erases (by omega) hstep
    rw [hclose.1, hentry] at hgone
    cases hgone
  · -- the new session is nowhere in the table
    have hsame := h.newSession_same hfull hzero
    have hopen : 2 ^ 32 ∉ (newSession st).closed := by
      intro hin
      have := h.closed _ hin
      omega
    obtain ⟨st', hstep⟩ := hnum.close_enabled hasCallback (2 ^ 32) (by omega)
    have hclose := hright (2 ^ 32) st' hstep
    rw [if_neg hopen] at hclose
    obtain ⟨⟨key, hentry⟩, -⟩ := hclose
    rw [hsame] at hentry
    have := ((h.table key _).mp hentry).1
    omega

/-- The guard of a run: there is a key left for each new session. -/
def HasKey (st : State) (l : Label) : Prop := l = .newSession → st.ids.length < 2 ^ 32

theorem guarded_hasKey_iff (ls : List Label) (st : State)
    (hrun : run (step hasCallback) {} ls = some st) :
    Guarded (step hasCallback) HasKey {} ls ↔ st.ids.length ≤ 2 ^ 32 := by
  apply guarded_iff_at_end (I := fun _ => True) (Q := fun u : State => u.ids.length ≤ 2 ^ 32)
    (fun _ _ _ _ _ => trivial) _ _ ls {} st trivial (Nat.zero_le _) hrun
  · intro u l u' hl hu'
    cases step_inv hl with
    | newSession =>
      rw [length_newSession] at hu'
      exact Nat.le_of_succ_le hu'
    | _ => exact hu'
  · intro u l u' _ hu hl
    cases step_inv hl with
    | newSession =>
      rw [length_newSession]
      exact ⟨fun hkey => hkey rfl, fun hlt _ => hlt⟩
    | _ => exact iff_of_true (fun hc => by cases hc) hu

theorem run_inv (ls : List Label) (st : State) (hrun : run (step hasCallback) {} ls = some st)
    (hfew : st.ids.length ≤ 2 ^ 32) : Inv st := by
  have hg := (guarded_hasKey_iff ls st hrun).mpr hfew
  apply run_invariant (I := Inv) _ ls {} st inv_initial hg hrun
  intro u l u' hu hkey hl
  exact (step_inv hl).inv hu hkey

/-- **Disconnects.** In every state of a run every close does what it should, exactly if
at most `2 ^ 32` sessions are made. -/
theorem closesRight_iff (hasCallback : Bool) (ls : List Label) (st : State)
    (hrun : run (step hasCallback) {} ls = some st) :
    (∀ as bs u, ls = as ++ bs → run (step hasCallback) {} as = some u →
      ClosesRight hasCallback u) ↔ st.ids.length ≤ 2 ^ 32 := by
  rw [← guarded_hasKey_iff ls st hrun]
  apply always_iff_guarded (I := Inv) _ _ ls {} st inv_initial hrun
  · intro u hu
    exact hu.closesRight
  · intro u l u' hu hl
    by_cases hg : HasKey u l
    · exact Or.inl ⟨hg, (step_inv hl).inv hu hg⟩
    · obtain ⟨rfl, hlen⟩ := Classical.not_imp.mp hg
      have hfew := hu.few
      cases hl
      exact Or.inr ⟨hg, not_closesRight hu (by omega)⟩

/-- Two sessions, one closed twice by different threads. -/
def twice : List Label := [.newSession, .newSession, .close 0, .close 0, .report 0]

theorem closesRight_iff_twice :
    ∃ st, run (step true) {} twice = some st ∧
      (∀ as bs u, twice = as ++ bs → run (step true) {} as = some u → ClosesRight true u) ∧
      st.reporting = [] ∧ st.reported = [0] := by
  have hview : (run (step true) {} twice).map
      (fun st => (st.ids.length, st.reporting, st.reported)) = some (2, [], [0]) := by
    decide +kernel
  obtain ⟨st, hrun, hst⟩ := Option.map_eq_some_iff.mp hview
  simp only [Prod.mk.injEq] at hst
  exact ⟨st, hrun, (closesRight_iff true twice st hrun).mpr (by omega), hst.2⟩

/-- A server on which nothing is closed. -/
theorem run_newSessions (hasCallback : Bool) (n : Nat) :
    ∃ st, run (step hasCallback) {} (List.replicate n .newSession) = some st ∧
      st.ids.length = n ∧ st.closed = [] ∧ st.reporting = [] := by
  induction n with
  | zero => exact ⟨{}, rfl, rfl, rfl, rfl⟩
  | succ n ih =>
    obtain ⟨st, hrun, hlen, hclosed, hreporting⟩ := ih
    refine ⟨newSession st, ?_, by simp [newSession, hlen], hclosed, hreporting⟩
    rw [List.replicate_succ', run_append_of {} st _ _ hrun]
    rfl

/-- The close of session number `2 ^ 32` reports session number 0, which is alive. -/
theorem close_reports_other :
    ∃ st st', run (step true) {} (List.replicate (2 ^ 32) .newSession ++ [.newSession]) = some st ∧
      step true st (.close (2 ^ 32)) = some st' ∧ st.closed = [] ∧
      st.Holds 0 ∧ ¬ st'.Holds 0 ∧ st'.reporting = [0] := by
  obtain ⟨st, hrun, hlen, hclosed, hreporting⟩ := run_newSessions true (2 ^ 32)
  have hi : Inv st := run_inv _ st hrun (by omega)
  have hopen : 0 ∉ st.closed := by
    rw [hclosed]
    exact List.not_mem_nil
  have hsame := hi.newSession_same hlen hopen
  have hlookup : (newSession st).connections_[toKey (idOf (2 ^ 32))]? = some 0 := by
    rw [hsame, toKey_idOf_wrap, hi.lookup (by omega), if_neg hopen]
  have hnum := hi.toNumbered.newSession
  have hlt : 2 ^ 32 < (newSession st).ids.length := by
    rw [length_newSession]
    omega
  obtain ⟨st', hstep⟩ := hnum.close_enabled true _ hlt
  refine ⟨newSession st, st', ?_, hstep, hclosed, ⟨_, hlookup⟩, ?_⟩
  · rw [run_append, hrun]
    rfl
  · cases step_inv hstep with
    | found _ other id hid hother =>
      rw [hnum.ids _ hlt] at hid
      cases hid
      rw [hlookup] at hother
      cases hother
      constructor
      · rintro ⟨key, hkey⟩
        simp only [hsame, toKey_idOf_wrap] at hkey
        exact ((hi.erased (by omega) key 0).mp hkey).2.1 (by simp)
      · show st.reporting ++ [0] = [0]
        rw [hreporting]
        rfl
    | notFound _ id hid hnone =>
      rw [hnum.ids _ hlt] at hid
      cases hid
      rw [hlookup] at hnone
      cases hnone

/-! ## What the table is for -/

/-- A session begins or ends. -/
inductive Event where
  | opens
  | closes (session : Nat)
  deriving Repr, DecidableEq

/-- The sessions that have begun and not ended. -/
structure Live where
  opened : Nat := 0
  live : Set Nat := ∅

def Live.after (a : Live) : Event → Live
  | .opens => ⟨a.opened + 1, insert a.opened a.live⟩
  | .closes session => ⟨a.opened, a.live \ {session}⟩

def view : Label → Option Event
  | .newSession => some .opens
  | .close session => some (.closes session)
  | .report _ => none

/-- The table holds the live sessions. -/
structure Represents (st : State) (a : Live) : Prop extends Inv st where
  opened : a.opened = st.ids.length
  live : ∀ session, session ∈ a.live ↔ st.Holds session

theorem Step.represents {st st' : State} {l : Label} {a : Live} (h : Step hasCallback st l st')
    (hr : Represents st a) (hl : HasKey st l) :
    Represents st' ((view l).elim a a.after) := by
  have hi' := h.inv hr.toInv hl
  have hlive : ∀ session, session ∈ a.live ↔ session < st.ids.length ∧ session ∉ st.closed :=
    fun session => (hr.live session).trans (hr.holds session)
  -- both sides are read off the numbers of the sessions and the closes
  have hclose : ∀ session s,
      s ∈ a.live \ {session} ↔ s < st.ids.length ∧ s ∉ st.closed ++ [session] := by
    intro session s
    simp [hlive, and_assoc, not_or]
  cases h with
  | newSession =>
    refine ⟨hi', ?_, fun session => ?_⟩
    · rw [length_newSession, ← hr.opened]
      rfl
    · rw [hi'.holds, length_newSession]
      show session ∈ insert a.opened a.live ↔
        session < st.ids.length + 1 ∧ session ∉ st.closed
      have hfresh : st.ids.length ∉ st.closed := fun hin => by
        have := hr.closed _ hin
        omega
      rw [Set.mem_insert_iff, hlive, hr.opened, Nat.lt_succ_iff_lt_or_eq]
      constructor
      · rintro (rfl | ⟨hlt, hopen⟩)
        · exact ⟨Or.inr rfl, hfresh⟩
        · exact ⟨Or.inl hlt, hopen⟩
      · rintro ⟨hlt | heq, hopen⟩
        · exact Or.inr ⟨hlt, hopen⟩
        · exact Or.inl heq
  | found session other id hid hother =>
    exact ⟨hi', hr.opened, fun s => (hclose session s).trans (hi'.holds s).symm⟩
  | notFound session id hid hnone =>
    exact ⟨hi', hr.opened, fun s => (hclose session s).trans (hi'.holds s).symm⟩
  | report j session hj => exact ⟨hi', hr.opened, hr.live⟩

/-- **Refinement.** While there are keys, the table is the set of live sessions. -/
theorem run_represents (ls : List Label) (st : State)
    (hrun : run (step hasCallback) {} ls = some st) (hfew : st.ids.length ≤ 2 ^ 32) :
    Represents st ((ls.filterMap view).foldl Live.after {}) := by
  have hg := (guarded_hasKey_iff ls st hrun).mpr hfew
  apply run_simulates (R := Represents) _ ls {} st {} _ hg hrun
  · intro u l u' a hu hkey hl
    exact (step_inv hl).represents hu hkey
  · refine ⟨inv_initial, rfl, fun session => ?_⟩
    simp [State.Holds]

/-- A first close adds a report, and a report only moves. -/
theorem Step.reports {st st' : State} {l : Label} (h : Step true st l st') (hi : Inv st)
    (honce : ∀ s, (st.reporting ++ st.reported).count s = if s ∈ st.closed then 1 else 0) :
    ∀ s, (st'.reporting ++ st'.reported).count s = if s ∈ st'.closed then 1 else 0 := by
  intro s
  cases h with
  | newSession => exact honce s
  | found session other id hid hother =>
    obtain ⟨-, -, rfl, hopen⟩ := hi.found hid hother
    have := honce s
    by_cases heq : other = s
    · subst heq
      simp [List.count_append, hopen] at this ⊢
      omega
    · simp [List.count_append, heq, Ne.symm heq] at this ⊢
      exact this
  | notFound session id hid hnone =>
    have hin := (hi.notFound hid hnone).2
    rw [honce s]
    by_cases heq : s = session
    · simp [heq, hin]
    · simp [heq]
  | report j session hj =>
    obtain ⟨hlt, rfl⟩ := List.getElem?_eq_some_iff.mp hj
    have hperm := (List.getElem_cons_eraseIdx_perm hlt).count_eq s
    have := honce s
    simp only [List.count_append, List.count_cons, List.count_nil] at hperm this ⊢
    omega

/-- Every session that was closed is reported once, counting the threads that are about to
report. -/
theorem reported_once (ls : List Label) (st : State) (hrun : run (step true) {} ls = some st)
    (hfew : st.ids.length ≤ 2 ^ 32) (session : Nat) :
    (st.reporting ++ st.reported).count session = if session ∈ st.closed then 1 else 0 := by
  have hg := (guarded_hasKey_iff ls st hrun).mpr hfew
  let J : State → Prop := fun u => Inv u ∧
    ∀ s, (u.reporting ++ u.reported).count s = if s ∈ u.closed then 1 else 0
  have hJ : J st := by
    apply run_invariant (I := J) _ ls {} st _ hg hrun
    · intro u l u' hu hkey hl
      exact ⟨(step_inv hl).inv hu.1 hkey, (step_inv hl).reports hu.1 hu.2⟩
    · exact ⟨inv_initial, fun s => rfl⟩
  exact hJ.2 session

end Cppim.Net.TcpServer
