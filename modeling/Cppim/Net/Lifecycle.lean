import Cppim.Common.Basic
import Cppim.Net.Acceptor
import Mathlib.Data.List.Induction

/-! What becomes of the sessions of a `TcpServer`, over whole runs of its loops.

`callbacks_in_order` says what the server is told of each session, `server_settles` that
none is left behind, and `loops_balanced` how they are spread over the loops. -/

namespace Cppim.Net.Acceptor

open Cppim.Common Cppim.Lib.Threads Cppim.Lib.Transition

variable {cfg : Config} {st st' : State} {l : Label}

/-! ## The callbacks -/

/-- The callbacks of a session. -/
def record (s : Nat) (calls : List (Nat × Kind)) : List Kind :=
  (calls.filter fun p => p.1 = s).map Prod.snd

/-- The sessions that were connected. -/
def connections (calls : List (Nat × Kind)) : List Nat :=
  (calls.filter fun p => p.2 = .connection).map Prod.fst

theorem record_concat (s t : Nat) (calls : List (Nat × Kind)) (k : Kind) :
    record s (calls ++ [(t, k)]) = record s calls ++ if t = s then [k] else [] := by
  unfold record
  split <;> simp_all

theorem mem_record_of_mem_connections {s : Nat} {calls : List (Nat × Kind)}
    (h : s ∈ connections calls) : .connection ∈ record s calls := by
  simpa [connections, record] using h

/-- What the callbacks say of the sessions that are started and of those that are not. -/
structure Told (flags : List Bool) (reported : List Nat) (calls : List (Nat × Kind)) : Prop where
  fresh : ∀ s : Nat, flags[s]? ≠ some true → ∀ k ∈ record s calls, k = .disconnect
  begun : ∀ s : Nat, flags[s]? = some true →
    ∃ rest, record s calls = .connection :: rest ∧ .connection ∉ rest
  disconnects : ∀ s, (record s calls).count .disconnect = reported.count s
  order : (connections calls).Pairwise (· < ·)

namespace Told

variable {flags : List Bool} {reported : List Nat} {calls : List (Nat × Kind)}

theorem message (h : Told flags reported calls) {s : Nat} (hs : flags[s]? = some true) :
    Told flags reported (calls ++ [(s, .message)]) where
  fresh := by
    intro t ht k hk
    have hne : s ≠ t := by
      rintro rfl
      exact ht hs
    rw [record_concat, if_neg hne, List.append_nil] at hk
    exact h.fresh t ht k hk
  begun := by
    intro t ht
    obtain ⟨rest, hrest, hnot⟩ := h.begun t ht
    refine ⟨rest ++ if s = t then [.message] else [], by rw [record_concat, hrest]; rfl, ?_⟩
    split <;> simp [hnot]
  disconnects := by
    intro t
    rw [record_concat, List.count_append, h.disconnects t]
    split <;> simp
  order := by simpa [connections] using h.order

theorem disconnect (h : Told flags reported calls) (s : Nat) :
    Told flags (reported ++ [s]) (calls ++ [(s, .disconnect)]) where
  fresh := by
    intro t ht k hk
    rw [record_concat] at hk
    rcases List.mem_append.mp hk with hk | hk
    · exact h.fresh t ht k hk
    · split at hk <;> simp_all
  begun := by
    intro t ht
    obtain ⟨rest, hrest, hnot⟩ := h.begun t ht
    refine ⟨rest ++ if s = t then [.disconnect] else [], by rw [record_concat, hrest]; rfl, ?_⟩
    split <;> simp [hnot]
  disconnects := by
    intro t
    rw [record_concat, List.count_append, List.count_append, h.disconnects t]
    split <;> simp_all
  order := by simpa [connections] using h.order

/-- The last session is started, of which nothing was reported. -/
theorem connection (h : Told flags reported calls) {s : Nat} (hs : s + 1 = flags.length)
    (hflag : flags[s]? = some false) (hnone : reported.count s = 0) :
    Told (flags.set s true) reported (calls ++ [(s, .connection)]) := by
  have hrecord : record s calls = [] := by
    have hall := h.fresh s (by simp [hflag])
    have hcount := h.disconnects s
    rw [hnone, List.count_eq_length.mpr fun k hk => (hall k hk).symm] at hcount
    exact List.length_eq_zero_iff.mp hcount
  refine ⟨?_, ?_, ?_, ?_⟩
  · intro t ht k hk
    have hne : s ≠ t := by
      rintro rfl
      exact ht (List.getElem?_set_self (by omega))
    rw [List.getElem?_set_ne hne] at ht
    rw [record_concat, if_neg hne, List.append_nil] at hk
    exact h.fresh t ht k hk
  · intro t ht
    rw [record_concat]
    by_cases heq : s = t
    · subst heq
      exact ⟨[], by rw [hrecord, if_pos rfl]; rfl, List.not_mem_nil⟩
    · rw [List.getElem?_set_ne heq] at ht
      rw [if_neg heq, List.append_nil]
      exact h.begun t ht
  · intro t
    rw [record_concat, List.count_append, h.disconnects t]
    split <;> simp
  · have hbefore : ∀ t ∈ connections calls, t < s := by
      intro t ht
      have hin := mem_record_of_mem_connections ht
      have hstarted : flags[t]? = some true := by
        by_contra hnot
        cases h.fresh t hnot _ hin
      have hlt := (List.getElem?_eq_some_iff.mp hstarted).1
      have hne : t ≠ s := by
        rintro rfl
        simp [hflag] at hstarted
      omega
    have hconcat : connections (calls ++ [(s, .connection)]) = connections calls ++ [s] := by
      simp [connections]
    rw [hconcat, List.pairwise_append]
    exact ⟨h.order, List.pairwise_singleton _ _, fun t ht u hu => by
      rw [List.mem_singleton.mp hu]
      exact hbefore t ht⟩

/-- A session is made. -/
theorem accept (h : Told flags reported calls) : Told (flags ++ [false]) reported calls := by
  have hflag : ∀ t : Nat, (flags ++ [false])[t]? = some true ↔ flags[t]? = some true := by
    intro t
    rw [List.getElem?_append]
    split
    · rfl
    · rename_i hge
      rw [List.getElem?_eq_none (Nat.le_of_not_lt hge)]
      cases t - flags.length <;> simp
  refine ⟨fun t ht => h.fresh t (fun hs => ht ((hflag t).mpr hs)), fun t ht => ?_, h.disconnects,
    h.order⟩
  exact h.begun t ((hflag t).mp ht)

end Told

/-- A call of `close` reports its own session, if it is the first one. -/
theorem Inv.found (h : Inv cfg st) {s : Nat} (hs : s < st.server.ids.length) :
    found cfg st.server s =
      if cfg.hasCallback = true ∧ s ∉ st.server.closed then some s else none := by
  unfold Acceptor.found
  by_cases hcb : cfg.hasCallback = true
  · rw [if_pos hcb, h.server.ids s hs, Option.bind_some, h.server.lookup hs]
    split <;> simp_all
  · simp [hcb]

/-- Each session that was closed is reported once, if anything is. -/
def Once (cfg : Config) (server : TcpServer.State) : Prop :=
  ∀ s, (server.reporting ++ server.reported).count s =
    if cfg.hasCallback = true ∧ s ∈ server.closed then 1 else 0

theorem Inv.once_close (h : Inv cfg st) (honce : Once cfg st.server) {s : Nat}
    {server : TcpServer.State}
    (hserver : TcpServer.step cfg.hasCallback st.server (.close s) = some server) :
    Once cfg server := by
  obtain ⟨hlt, -, hclosed, hreporting, hreported⟩ := close_server hserver
  intro t
  have ht := honce t
  rw [hclosed, hreporting, hreported, h.found hlt]
  by_cases heq : s = t
  · subst heq
    by_cases hin : s ∈ st.server.closed <;> by_cases hcb : cfg.hasCallback = true <;>
      simp_all [List.count_append]
  · have hne := Ne.symm heq
    by_cases hin : s ∈ st.server.closed <;> by_cases hcb : cfg.hasCallback = true <;>
      simp_all [List.count_append]

theorem once_report {server server' : TcpServer.State} {o : Nat} (honce : Once cfg server)
    (hserver : TcpServer.step cfg.hasCallback server (.report (server.reporting.idxOf o)) =
      some server') : Once cfg server' := by
  obtain ⟨-, hclosed, hreporting, hreported⟩ := report_server hserver
  intro t
  have ht := honce t
  have hcount := hreporting.count_eq t
  rw [hclosed, hreported]
  simp only [List.count_append, List.count_cons, List.count_nil] at ht hcount ⊢
  omega

theorem Step.once (hstep : Step cfg st l st') (h : Inv cfg st) (honce : Once cfg st.server) :
    Once cfg st'.server := by
  cases hstep with
  | close s c server hc hstarted hserver => exact h.once_close honce hserver
  | failed s server hstage hserver => exact h.once_close honce hserver
  | lost s c server hc hread hserver => exact h.once_close honce hserver
  | report j s o server hj hserver => exact once_report honce hserver
  | _ => exact honce

/-- Which sessions are started. -/
def State.flags (st : State) : List Bool := st.sessions.map (·.started)

theorem State.flags_of {s : Nat} {c : Session} (hc : st.sessions[s]? = some c) :
    st.flags[s]? = some c.started := by
  simp [flags, hc]

/-- A session that has read something is started. -/
theorem Fits.started {stage : Stage} {closed : List Nat} {closing : List (Nat × Option Nat)}
    {s : Nat} {c : Session} (h : Fits stage closed closing s c) (hread : c.read ≠ .idle) :
    c.started = true := by
  by_contra hnot
  exact hread (h.fresh (by simpa using hnot)).1

/-- A session that goes on stays started, or not started. -/
theorem Told.set {s : Nat} {c c' : Session} {reported : List Nat} {calls : List (Nat × Kind)}
    (h : Told st.flags reported calls) (hc : st.sessions[s]? = some c)
    (heq : c'.started = c.started) :
    Told ((st.sessions.set s c').map (·.started)) reported calls := by
  rw [map_set_of_eq (f := (·.started)) hc heq]
  exact h

theorem Step.told (hstep : Step cfg st l st') (h : Inv cfg st) (honce : Once cfg st.server)
    (htold : Told st.flags st.server.reported st.calls) :
    Told st'.flags st'.server.reported st'.calls := by
  cases hstep with
  | arrive s c hstage hc => exact htold.set hc (by rfl)
  | data s c hc hread => exact htold.set hc (by rfl)
  | fail s c hc hread => exact htold.set hc (by rfl)
  | close s c server hc hstarted hserver =>
    rw [(close_server hserver).2.2.2.2]
    exact htold
  | accept hstage hnext =>
    have hflags : (newSession cfg st).flags = st.flags ++ [false] := by
      simp [State.flags, newSession]
    exact hflags ▸ htold.accept
  | connect s c hstage hc =>
    have hpending : st.stage.pending = some s := by rw [hstage]; rfl
    obtain ⟨hfresh, hopen, -⟩ := (h.fits s c hc).pending hpending
    have hnone := honce s
    rw [if_neg fun hin => hopen hin.2, List.count_append] at hnone
    have hflags : (st.sessions.set s { c with started := true }).map (·.started) =
        st.flags.set s true := by
      rw [List.map_set]
      rfl
    rw [State.flags, hflags]
    refine htold.connection ?_ ?_ (by omega)
    · rw [State.flags, List.length_map]
      exact h.toPlaced.pending s hpending
    · rw [State.flags_of hc, hfresh]
  | failed s server hstage hserver =>
    rw [(close_server hserver).2.2.2.2]
    exact htold
  | startRead s c hstage hc => exact htold.set hc (by rfl)
  | message s c hc hread =>
    refine Told.set (htold.message ?_) hc (by rfl)
    rw [State.flags_of hc, (h.fits s c hc).started (by simp [hread])]
  | lost s c server hc hread hserver =>
    rw [(close_server hserver).2.2.2.2]
    exact htold.set hc (by rfl)
  | report j s o server hj hserver =>
    rw [(report_server hserver).2.2.2]
    exact htold.disconnect o
  | post j s c hj hc => exact htold.set hc (by rfl)
  | closeSocket s c hc hposted => exact htold.set hc (by rfl)
  | _ => exact htold

/-- What is known of a state that a run leads to. -/
structure Holds (cfg : Config) (st : State) : Prop where
  inv : Inv cfg st
  once : Once cfg st.server
  told : Told st.flags st.server.reported st.calls

theorem holds_start (hpos : 0 < cfg.thrnum) : Holds cfg (start cfg) where
  inv := inv_start hpos
  once := by simp [Once, start]
  told := by constructor <;> simp [State.flags, start, record, connections]

theorem run_holds (hpos : 0 < cfg.thrnum) (ls : List Label) (h : Holds cfg st)
    (hrun : run (step cfg) st ls = some st') (hfew : st'.server.ids.length ≤ 2 ^ 32) :
    Holds cfg st' := by
  -- there are fewer sessions in the states before
  refine run_kept (I := fun u : State => u.server.ids.length ≤ 2 ^ 32 → Holds cfg u)
    (fun u l u' hu hl hfew' => ?_) ls st st' (fun _ => h) hrun hfew
  have hstep := step_inv hl
  obtain ⟨hinv, honce, htold⟩ := hu (hstep.sessions_le.trans hfew')
  exact ⟨hstep.inv hpos hinv hfew', hstep.once hinv honce, hstep.told hinv honce htold⟩

/-- **The order of the callbacks.** In every run with as many sessions as there are keys, and
whichever way the threads are interleaved: the clients are announced in the order in which
they were accepted; of a session that was announced it is said before anything else, and
once; a session that never had a client is at most disconnected; no message comes from a
session that was not announced, and no session is disconnected twice. -/
theorem callbacks_in_order (cfg : Config) (hpos : 0 < cfg.thrnum) (ls : List Label) (st : State)
    (hrun : run (step cfg) (start cfg) ls = some st) (hfew : st.server.ids.length ≤ 2 ^ 32) :
    (connections st.calls).Pairwise (· < ·) ∧
    ∀ s, record s st.calls = [] ∨ record s st.calls = [.disconnect] ∨
      ∃ rest, record s st.calls = .connection :: rest ∧ .connection ∉ rest ∧
        rest.count .disconnect ≤ 1 := by
  obtain ⟨hinv, honce, htold⟩ := run_holds hpos ls (holds_start hpos) hrun hfew
  refine ⟨htold.order, fun s => ?_⟩
  have hcount : (record s st.calls).count .disconnect ≤ 1 := by
    have hs := honce s
    rw [List.count_append] at hs
    rw [htold.disconnects s]
    split at hs <;> omega
  by_cases hflag : st.flags[s]? = some true
  · obtain ⟨rest, hrest, hnot⟩ := htold.begun s hflag
    rw [hrest, List.count_cons_of_ne (by simp)] at hcount
    exact Or.inr (Or.inr ⟨rest, hrest, hnot, hcount⟩)
  · have hall := htold.fresh s hflag
    rw [List.count_eq_length.mpr fun k hk => (hall k hk).symm] at hcount
    cases hrecord : record s st.calls with
    | nil => exact Or.inl rfl
    | cons k rest =>
      rw [hrecord, List.length_cons] at hcount
      rw [hrecord] at hall
      have hrest : rest = [] := List.length_eq_zero_iff.mp (by omega)
      refine Or.inr (Or.inl ?_)
      rw [hrest, hall k List.mem_cons_self]

/-- A client comes, sends something and is lost, while the acceptor waits for the next one. -/
def visit : List Label :=
  [.listen, .accept, .arrive, .handleAccept, .startRead, .checkOpen, .accept, .data 0,
    .handleRead 0, .fail 0]

/-- What the loops do behind it. -/
def ending : List Label := [.handleRead 0, .report 0, .post 0, .closeSocket 0]

theorem callbacks_in_order_visit :
    ∃ st, run (step ⟨2, true⟩) (start ⟨2, true⟩) (visit ++ ending) = some st ∧
      record 0 st.calls = [.connection, .message, .disconnect] ∧
      (connections st.calls).Pairwise (· < ·) := by
  have hview : (run (step ⟨2, true⟩) (start ⟨2, true⟩) (visit ++ ending)).map
      (fun st => (record 0 st.calls, st.server.ids.length)) =
      some ([.connection, .message, .disconnect], 2) := by decide +kernel
  obtain ⟨st, hrun, hst⟩ := Option.map_eq_some_iff.mp hview
  simp only [Prod.mk.injEq] at hst
  obtain ⟨horder, -⟩ := callbacks_in_order ⟨2, true⟩ (by decide) _ st hrun (by omega)
  exact ⟨st, hrun, hst.1, horder⟩

/-! ## Progress -/

def Read.weight : Read → Nat
  | idle => 0
  | waiting | completed true => 4
  | completed false => 5

/-- A read that waits is counted as one that fails, since a close makes it fail. -/
def Session.weight (c : Session) : Nat := c.read.weight + c.posted

def Stage.weight (isOpen : Bool) : Stage → Nat
  | posted => 2
  | accepting => if isOpen then 1 else 6
  | waiting _ | returned => 0
  | completed _ true => (if isOpen then 2 else 1) + 4
  | completed _ false => (if isOpen then 2 else 1) + 6
  | connected _ => (if isOpen then 2 else 1) + 5
  | handled => if isOpen then 2 else 1

def closeWeight (p : Nat × Option Nat) : Nat := if p.2.isSome then 3 else 2

/-- No fewer than the steps that the loops can take by themselves. -/
def weight (st : State) : Nat :=
  st.stage.weight st.isOpen + tally Session.weight st.sessions + tally closeWeight st.closing

theorem closeWeight_le (p : Nat × Option Nat) : closeWeight p ≤ 3 := by
  unfold closeWeight
  split <;> omega

theorem Session.weight_asyncRead (c : Session) : c.asyncRead.weight = 4 + c.posted := by
  unfold Session.asyncRead Session.weight
  split <;> rfl

theorem Session.weight_closeSocket {c : Session} (h : 0 < c.posted) :
    c.closeSocket.weight < c.weight := by
  unfold Session.closeSocket Session.weight
  dsimp only
  split
  · rename_i hread
    rw [hread]
    simp only [Read.weight]
    omega
  · omega

theorem Step.weight_lt (hstep : Step cfg st l st') (hown : l.own = true) :
    weight st' < weight st := by
  unfold weight
  cases hstep with
  | listen hstage => simp [hstage, Stage.weight]
  | accept hstage hnext =>
    have hnew : tally Session.weight (newSession cfg st).sessions =
        tally Session.weight st.sessions := by
      simp [newSession, Session.weight, Read.weight]
    dsimp only
    rw [hnew]
    cases hopen : st.isOpen <;> simp [hstage, hopen, newSession, Stage.weight]
  | connect s c hstage hc =>
    dsimp only
    rw [tally_set_of_eq hc (by rfl), hstage]
    simp [Stage.weight]
  | failed s server hstage hserver =>
    have hle := closeWeight_le (s, found cfg st.server s)
    dsimp only
    rw [tally_append, tally_singleton, hstage]
    simp only [Stage.weight]
    omega
  | startRead s c hstage hc =>
    have hset := tally_set (f := Session.weight) hc c.asyncRead
    have hle : c.posted ≤ c.weight := Nat.le_add_left _ _
    rw [Session.weight_asyncRead] at hset
    dsimp only
    rw [hstage]
    simp only [Stage.weight]
    omega
  | checkOpen hstage =>
    dsimp only
    cases hopen : st.isOpen <;> simp [hstage, Stage.weight]
  | message s c hc hread =>
    have hset := tally_set (f := Session.weight) hc c.asyncRead
    have hweight : c.weight = 5 + c.posted := by
      rw [Session.weight, hread]
      rfl
    rw [Session.weight_asyncRead] at hset
    dsimp only
    omega
  | lost s c server hc hread hserver =>
    have hset := tally_set (f := Session.weight) hc { c with read := .idle }
    have hweight : c.weight = 4 + c.posted := by
      rw [Session.weight, hread]
      rfl
    have hidle : ({ c with read := .idle } : Session).weight = c.posted := by
      simp [Session.weight, Read.weight]
    have hle := closeWeight_le (s, found cfg st.server s)
    dsimp only
    rw [tally_append, tally_singleton]
    omega
  | report j s o server hj hserver =>
    have hset := tally_set (f := closeWeight) hj (s, none)
    have hsome : closeWeight (s, some o) = 3 := rfl
    have hnone : closeWeight (s, none) = 2 := rfl
    dsimp only
    omega
  | post j s c hj hc =>
    have hset := tally_set (f := Session.weight) hc { c with posted := c.posted + 1 }
    have hweight : ({ c with posted := c.posted + 1 } : Session).weight = c.weight + 1 := rfl
    have herase := tally_eraseIdx (f := closeWeight) hj
    have hnone : closeWeight (s, none) = 2 := rfl
    dsimp only
    omega
  | closeSocket s c hc hposted =>
    have hset := tally_set (f := Session.weight) hc c.closeSocket
    have hless := Session.weight_closeSocket hposted
    dsimp only
    omega
  | _ => cases hown

/-- The loops have nothing to do. -/
def Settled (cfg : Config) (st : State) : Prop := ∀ l, l.own = true → step cfg st l = none

theorem Settled.not_enabled (h : Settled cfg st) (hown : l.own = true)
    (hl : (step cfg st l).isSome = true) : False := by
  rw [h l hown] at hl
  cases hl

/-- A state in which the loops have nothing to do. -/
theorem settled_of (hstage : (∃ s, st.stage = .waiting s) ∨ st.stage = .returned)
    (hclosing : st.closing = [])
    (hsessions : ∀ c ∈ st.sessions, (c.read = .idle ∨ c.read = .waiting) ∧ c.posted = 0) :
    Settled cfg st := by
  have hsession : ∀ {s : Nat} {c : Session}, st.sessions[s]? = some c →
      (c.read = .idle ∨ c.read = .waiting) ∧ c.posted = 0 := fun hc =>
    hsessions _ (List.mem_of_getElem? hc)
  intro l hown
  by_contra hsome
  obtain ⟨st', hl⟩ := Option.ne_none_iff_exists'.mp hsome
  cases step_inv hl with
  | listen hposted => simp [hposted] at hstage
  | accept haccepting => simp [haccepting] at hstage
  | connect s c hcompleted => simp [hcompleted] at hstage
  | failed s server hcompleted => simp [hcompleted] at hstage
  | startRead s c hconnected => simp [hconnected] at hstage
  | checkOpen hhandled => simp [hhandled] at hstage
  | message s c hc hread => simpa [hread] using (hsession hc).1
  | lost s c server hc hread => simpa [hread] using (hsession hc).1
  | report j s o server hj => simp [hclosing] at hj
  | post j s c hj => simp [hclosing] at hj
  | closeSocket s c hc hposted => exact Nat.ne_of_gt hposted (hsession hc).2
  | _ => cases hown

namespace Inv

/-- A call of `close` goes through. -/
theorem close_enabled (h : Inv cfg st) {s : Nat} (hs : s < st.sessions.length) :
    ∃ server, TcpServer.step cfg.hasCallback st.server (.close s) = some server :=
  h.server.close_enabled cfg.hasCallback s (h.length ▸ hs)

theorem settled_stage (h : Inv cfg st) (hpos : 0 < cfg.thrnum) (hsettled : Settled cfg st) :
    (∃ s, st.stage = .waiting s) ∨ st.stage = .returned := by
  have hlast : ∀ s, s + 1 = st.sessions.length → ∃ c, st.sessions[s]? = some c := fun s hs =>
    ⟨_, List.getElem?_eq_getElem (by omega)⟩
  cases hstage : st.stage with
  | posted =>
    exact (hsettled.not_enabled (l := .listen) rfl (by rw [step, if_pos hstage]; rfl)).elim
  | accepting =>
    have hnext : findNextLoop cfg.thrnum st.next_ < cfg.thrnum := by
      rw [h.next, findNextLoop_mod hpos]
      exact Nat.mod_lt _ hpos
    exact (hsettled.not_enabled (l := .accept) rfl (by rw [step, if_pos ⟨hstage, hnext⟩]; rfl)).elim
  | waiting s => exact Or.inl ⟨s, rfl⟩
  | completed s err =>
    have hs := h.toPlaced.pending s (by rw [hstage]; rfl)
    cases err with
    | false =>
      obtain ⟨c, hc⟩ := hlast s hs
      refine (hsettled.not_enabled (l := .handleAccept) rfl ?_).elim
      simp only [step, hstage, handleAccept, hc]
      rfl
    | true =>
      obtain ⟨server, hserver⟩ := h.close_enabled (s := s) (by omega)
      refine (hsettled.not_enabled (l := .handleAccept) rfl ?_).elim
      simp only [step, hstage, handleAccept, Acceptor.close, hserver]
      rfl
  | connected s =>
    obtain ⟨c, hc⟩ := hlast s (h.toPlaced.connected s hstage)
    refine (hsettled.not_enabled (l := .startRead) rfl ?_).elim
    simp only [step, hstage, hc]
    rfl
  | handled =>
    exact (hsettled.not_enabled (l := .checkOpen) rfl (by rw [step, if_pos hstage]; rfl)).elim
  | returned => exact Or.inr rfl

theorem settled_closing (h : Inv cfg st) (hsettled : Settled cfg st) : st.closing = [] := by
  cases hclosing : st.closing with
  | nil => rfl
  | cons p rest =>
    obtain ⟨s, o⟩ := p
    have hj : st.closing[0]? = some (s, o) := by simp [hclosing]
    cases o with
    | none =>
      have hlt : s < st.sessions.length := by
        rw [h.length]
        exact h.server.closed s (h.closing _ (List.mem_of_getElem? hj))
      refine (hsettled.not_enabled (l := .post 0) rfl ?_).elim
      simp only [step, hj, List.getElem?_eq_getElem hlt]
      rfl
    | some o =>
      have hin : o ∈ st.server.reporting := by
        refine h.reporting.mem_iff.mp (List.mem_filterMap.mpr ⟨(s, some o), ?_, rfl⟩)
        exact List.mem_of_getElem? hj
      refine (hsettled.not_enabled (l := .report 0) rfl ?_).elim
      simp only [step, hj, TcpServer.step, List.getElem?_idxOf hin]
      rfl

/-- Where the loops have nothing to do, no handler waits and no task is posted. -/
theorem settled_session (h : Inv cfg st) (hsettled : Settled cfg st) {s : Nat} {c : Session}
    (hc : st.sessions[s]? = some c) : (c.read = .idle ∨ c.read = .waiting) ∧ c.posted = 0 := by
  have hlt := (List.getElem?_eq_some_iff.mp hc).1
  constructor
  · cases hread : c.read with
    | idle => exact Or.inl rfl
    | waiting => exact Or.inr rfl
    | completed err =>
      refine (hsettled.not_enabled (l := .handleRead s) rfl ?_).elim
      simp only [step, hc, hread, handleRead]
      cases err with
      | false => rfl
      | true =>
        obtain ⟨server, hserver⟩ := h.close_enabled hlt
        simp only [Acceptor.close, hserver]
        rfl
  · by_contra hposted
    refine hsettled.not_enabled (l := .closeSocket s) rfl ?_
    simp only [step, hc]
    rw [if_pos (Nat.pos_of_ne_zero hposted)]
    rfl

end Inv

/-- **No session is left behind.** From every state that can be reached, the loops go on by
themselves only so many times, whatever their order. When they have nothing to do, the
acceptor waits for a client, or it has been closed and has returned. A session is then in
the table exactly as long as it waits for a client, or is connected and reads; of any other
session the socket is closed, no handler and no task refers to it, and it was reported. -/
theorem server_settles (cfg : Config) (hpos : 0 < cfg.thrnum) (ls : List Label) (st : State)
    (hrun : run (step cfg) (start cfg) ls = some st) (os : List Label)
    (hown : ∀ l ∈ os, l.own = true) (st' : State) (hrun' : run (step cfg) st os = some st')
    (hfew : st'.server.ids.length ≤ 2 ^ 32) :
    os.length ≤ weight st ∧
    (Settled cfg st' →
      ((∃ s, st'.stage = .waiting s ∧ st'.isOpen = true) ∨
        st'.stage = .returned ∧ st'.isOpen = false) ∧ st'.closing = [] ∧
      ∀ (s : Nat) c, st'.sessions[s]? = some c →
        (st'.server.Holds s ↔ st'.stage = .waiting s ∨
          c.started = true ∧ c.isOpen = true ∧ c.read = .waiting) ∧
        (¬ st'.server.Holds s → c.isOpen = false ∧ c.read = .idle ∧ c.posted = 0 ∧
          (cfg.hasCallback = true → (record s st'.calls).count .disconnect = 1))) := by
  constructor
  · have hless : ∀ u l u', Label.own l = true → step cfg u l = some u' → weight u' < weight u :=
      fun u l u' hl hs => (step_inv hs).weight_lt hl
    have hle := run_length_le weight hless os st st' hown hrun'
    omega
  · intro hsettled
    have hrun₂ : run (step cfg) (start cfg) (ls ++ os) = some st' := by
      rw [run_append_of _ _ _ _ hrun, hrun']
    obtain ⟨h, honce, htold⟩ := run_holds hpos _ (holds_start hpos) hrun₂ hfew
    have hstage := h.settled_stage hpos hsettled
    have hclosing := h.settled_closing hsettled
    refine ⟨?_, hclosing, fun s c hc => ?_⟩
    · rcases hstage with ⟨s, hs⟩ | hreturned
      · exact Or.inl ⟨s, hs, h.waiting s hs⟩
      · exact Or.inr ⟨hreturned, h.returned hreturned⟩
    have hfits := h.fits s c hc
    have hlt : s < st'.server.ids.length := h.length ▸ (List.getElem?_eq_some_iff.mp hc).1
    obtain ⟨hread, hposted⟩ := h.settled_session hsettled hc
    have hsocket : s ∈ st'.server.closed → c.isOpen = false := by
      intro hin
      rcases hfits.ends hin with ⟨p, hp, -⟩ | hpos | hsocket
      · simp [hclosing] at hp
      · omega
      · exact hsocket
    rw [h.server.holds]
    refine ⟨⟨?_, ?_⟩, ?_⟩
    · rintro ⟨-, hopen⟩
      cases hstarted : c.started with
      | false =>
        -- it is the one that the acceptor waits with
        have hpending := (hfits.fresh hstarted).2.resolve_left hopen
        refine Or.inl ?_
        rcases hstage with ⟨t, ht⟩ | hreturned
        · rw [ht] at hpending ⊢
          cases hpending
          rfl
        · rw [hreturned] at hpending
          cases hpending
      | true =>
        obtain ⟨hsocket, hreads⟩ := hfits.running hstarted hopen
        have hconnected : st'.stage ≠ .connected s := by
          rcases hstage with ⟨t, ht⟩ | hreturned <;> simp [*]
        exact Or.inr ⟨rfl, hsocket, hread.resolve_left (hreads.resolve_right hconnected)⟩
    · rintro (hwaiting | ⟨-, hopen, -⟩)
      · exact ⟨hlt, (hfits.pending (by rw [hwaiting]; rfl)).2.1⟩
      · refine ⟨hlt, fun hin => ?_⟩
        rw [hsocket hin] at hopen
        cases hopen
    · intro hnot
      have hin : s ∈ st'.server.closed := by
        by_contra hopen
        exact hnot ⟨hlt, hopen⟩
      refine ⟨hsocket hin, hread.resolve_right fun hwaiting => ?_, hposted, fun hcb => ?_⟩
      · have hopen := hfits.reads hwaiting
        rw [hsocket hin] at hopen
        cases hopen
      · have hreporting : st'.server.reporting = [] := by
          have hperm := h.reporting
          rw [hclosing] at hperm
          exact hperm.symm.eq_nil
        have hs := honce s
        rw [hreporting, List.nil_append, if_pos ⟨hcb, hin⟩] at hs
        rw [htold.disconnects s, hs]

theorem server_settles_visit :
    ∃ st st' c, run (step ⟨2, true⟩) (start ⟨2, true⟩) visit = some st ∧
      run (step ⟨2, true⟩) st ending = some st' ∧ ending.length ≤ weight st ∧
      Settled ⟨2, true⟩ st' ∧ st'.sessions[0]? = some c ∧ ¬ st'.server.Holds 0 ∧
      c.isOpen = false ∧ c.read = .idle ∧ c.posted = 0 ∧
      st'.stage = .waiting 1 ∧ st'.server.Holds 1 := by
  let c : Session := { loop_ := 0, started := true }
  have hview : ((run (step ⟨2, true⟩) (start ⟨2, true⟩) visit).bind fun st =>
      run (step ⟨2, true⟩) st ending).map
      (fun st => (st.stage, st.closing, st.sessions)) =
      some (.waiting 1, [], [c, { loop_ := 1 }]) := by decide +kernel
  have hview' : ((run (step ⟨2, true⟩) (start ⟨2, true⟩) visit).bind fun st =>
      run (step ⟨2, true⟩) st ending).map
      (fun st => (st.server.ids.length, st.server.closed)) = some (2, [0]) := by decide +kernel
  obtain ⟨st', hboth, hst'⟩ := Option.map_eq_some_iff.mp hview
  obtain ⟨st, hrun, hrun'⟩ := Option.bind_eq_some_iff.mp hboth
  rw [hboth] at hview'
  simp only [Option.map_some, Option.some.injEq, Prod.mk.injEq] at hst' hview'
  obtain ⟨hstage, hclosing, hsessions⟩ := hst'
  obtain ⟨hids, hclosed⟩ := hview'
  have hsettled : Settled ⟨2, true⟩ st' :=
    settled_of (Or.inl ⟨1, hstage⟩) hclosing (by simp [hsessions, c])
  have hboth' : run (step ⟨2, true⟩) (start ⟨2, true⟩) (visit ++ ending) = some st' := by
    rw [run_append_of _ _ _ _ hrun, hrun']
  have hinv := (run_holds (by decide) _ (holds_start (by decide)) hboth' (by omega)).inv
  have hgone : ¬ st'.server.Holds 0 := by
    rw [hinv.server.holds]
    simp [hclosed]
  have hc : st'.sessions[0]? = some c := by simp [hsessions]
  obtain ⟨hlength, hsettles⟩ := server_settles ⟨2, true⟩ (by decide) visit st hrun ending
    (by decide) st' hrun' (by omega)
  obtain ⟨-, -, hall⟩ := hsettles hsettled
  obtain ⟨hopen, hread, hposted, -⟩ := (hall 0 c hc).2 hgone
  have hnext : st'.server.Holds 1 :=
    (hall 1 { loop_ := 1 } (by simp [hsessions])).1.mpr (Or.inl hstage)
  exact ⟨st, st', c, hrun, hrun', hlength, hsettled, hc, hgone, hopen, hread, hposted, hstage,
    hnext⟩

/-! ## The loops -/

/-- The next session goes to the loop `i` whenever this is a multiple of `n`. -/
theorem dvd_iff_add_two_mod {n i : Nat} (hi : i < n) (m : Nat) :
    n ∣ m + (n + 1 - i) % n + 1 ↔ (m + 2) % n = i := by
  have hlt := Nat.mod_lt (m + 2) (Nat.zero_lt_of_lt hi)
  have hsum : (m + (n + 1 - i) % n + 1) % n = ((m + 2) % n + (n - i)) % n := by
    rw [Nat.mod_add_mod, Nat.add_right_comm, Nat.add_mod_mod]
    congr 1
    omega
  rw [Nat.dvd_iff_mod_eq_zero, hsum]
  rcases Nat.lt_trichotomy ((m + 2) % n) i with hless | heq | hmore
  · rw [Nat.mod_eq_of_lt (a := (m + 2) % n + (n - i)) (by omega)]
    omega
  · rw [heq, Nat.add_sub_cancel' (Nat.le_of_lt hi), Nat.mod_self]
    exact iff_of_true rfl rfl
  · have hover : (m + 2) % n + (n - i) = (m + 2) % n - i + n := by omega
    rw [hover, Nat.add_mod_right, Nat.mod_eq_of_lt (a := (m + 2) % n - i) (by omega)]
    omega

/-- How many of the sessions a loop has got, if they are given out in turn. -/
theorem countP_loop {n i : Nat} (hi : i < n) (cs : List Session)
    (h : ∀ (s : Nat) c, cs[s]? = some c → c.loop_ = (s + 2) % n) :
    cs.countP (fun c => c.loop_ = i) = (cs.length + (n + 1 - i) % n) / n := by
  induction cs using List.reverseRecOn with
  | nil =>
    rw [List.length_nil, Nat.zero_add, Nat.div_eq_of_lt (Nat.mod_lt _ (Nat.zero_lt_of_lt hi))]
    rfl
  | append_singleton cs c ih =>
    have hlast : c.loop_ = (cs.length + 2) % n := h cs.length c (by simp)
    have hrest := ih fun s d hd => h s d (by
      rw [List.getElem?_append_left (List.getElem?_eq_some_iff.mp hd).1, hd])
    rw [List.length_append, List.length_singleton, Nat.add_right_comm, Nat.succ_div,
      List.countP_append, hrest]
    simp only [dvd_iff_add_two_mod hi, ← hlast]
    split <;> rename_i hloop <;> simp [hloop]

/-- **The loops share the sessions.** Whatever happens to them, of the sessions that were made
every loop has got its part, or one more. -/
theorem loops_balanced (cfg : Config) (hpos : 0 < cfg.thrnum) (ls : List Label) (st : State)
    (hrun : run (step cfg) (start cfg) ls = some st) (i : Nat) (hi : i < cfg.thrnum) :
    st.sessions.length / cfg.thrnum ≤ st.sessions.countP (fun c => c.loop_ = i) ∧
      st.sessions.countP (fun c => c.loop_ = i) ≤ st.sessions.length / cfg.thrnum + 1 := by
  have hturns : Turns cfg st := run_kept (fun _ _ _ h hl => (step_inv hl).turns hpos h) ls _ st
    (inv_start hpos).toTurns hrun
  have hlt := Nat.mod_lt (cfg.thrnum + 1 - i) hpos
  rw [countP_loop hi st.sessions hturns.loops]
  constructor
  · exact Nat.div_le_div_right (Nat.le_add_right _ _)
  · rw [← Nat.add_div_right _ hpos]
    exact Nat.div_le_div_right (by omega)

theorem loops_balanced_visit :
    ∃ st, run (step ⟨2, true⟩) (start ⟨2, true⟩) visit = some st ∧ st.sessions.length = 2 ∧
      1 ≤ st.sessions.countP (fun c => c.loop_ = 1) := by
  have hview : (run (step ⟨2, true⟩) (start ⟨2, true⟩) visit).map (·.sessions.length) =
      some 2 := by decide +kernel
  obtain ⟨st, hrun, hst⟩ := Option.map_eq_some_iff.mp hview
  obtain ⟨hle, -⟩ := loops_balanced ⟨2, true⟩ (by decide) _ st hrun 1 (by decide)
  rw [hst] at hle
  exact ⟨st, hrun, hst, hle⟩

end Cppim.Net.Acceptor
