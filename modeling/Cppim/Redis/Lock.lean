import Cppim.Lib.Transition
import Cppim.Redis.Client
import Mathlib.Logic.Function.Basic

/-! `redis/RedisClient.{h,cc}`: the mutex of the client and the connection behind it.

`mutex_` is locked and unlocked by hand. `Execute` returns early when `Active` cannot
reconnect, and does not unlock. What hiredis and the network do during an operation is
in `Outside`; the threads that share the client are any type. -/

namespace Cppim.Redis.Lock

open Cppim.Common Cppim.Lib.Transition

/-! ## The connection -/

/-- `redisContext`, known by its error flag. -/
structure Context where
  err : Bool
  deriving Repr, DecidableEq

/-- What one call of `Connect` meets: the context that `redisConnectWithTimeout` returns,
and the replies to the commands behind it. A reply is `none` for `NULL`, and says otherwise
whether it is the status that is asked for. -/
structure Attempt where
  connection : Option Context
  auth : Option Bool
  ping : Option Bool
  select : Option Bool
  deriving Repr, DecidableEq

/-- `redisCommand` returns `NULL` when it has set the error flag. -/
def command (context : Context) (failed : Bool) : Context := ⟨context.err || failed⟩

def Auth (passwd_ : Bytes) (context : Context) (attempt : Attempt) : Bool × Context :=
  if passwd_ = [] then (true, context)
  else (attempt.auth = some true, command context attempt.auth.isNone)

/-- Any reply will do. -/
def Ping (context : Context) (attempt : Attempt) : Bool × Context :=
  (attempt.ping.isSome, command context attempt.ping.isNone)

def Select (context : Context) (attempt : Attempt) : Bool × Context :=
  (attempt.select.isSome, command context attempt.select.isNone)

/-- A context that cannot be used any more stays when one of the commands fails. -/
def Connect (passwd_ : Bytes) (attempt : Attempt) : Bool × Option Context :=
  match attempt.connection with
  | none => (false, none)
  | some context =>
    if context.err then (false, none)
    else
      let (ok, context) := Auth passwd_ context attempt
      if ok then
        let (ok, context) := Ping context attempt
        if ok then
          let (ok, context) := Select context attempt
          (ok, some context)
        else (false, some context)
      else (false, some context)

/-- The `while` loop of `Active`, entered without a context; `left` is `3 - count`. The
last attempt is made and not looked at. -/
def reconnect (passwd_ : Bytes) : Nat → (Nat → Attempt) → Bool × Option Context
  | 0, attempts => (false, (Connect passwd_ (attempts 0)).2)
  | left + 1, attempts =>
    match (Connect passwd_ (attempts 0)).2 with
    | some context => (true, some context)
    | none => reconnect passwd_ left fun i => attempts (i + 1)

def Active (passwd_ : Bytes) (context_ : Option Context) (attempts : Nat → Attempt) :
    Bool × Option Context :=
  match context_ with
  | some context => if context.err then reconnect passwd_ 3 attempts else (true, some context)
  | none => reconnect passwd_ 3 attempts

/-- The attempt gives no context. -/
def Attempt.Refused (attempt : Attempt) : Prop := attempt.connection ≠ some ⟨false⟩

instance (attempt : Attempt) : Decidable attempt.Refused :=
  inferInstanceAs (Decidable (_ ≠ _))

/-- There is a context without error. -/
def Usable (context_ : Option Context) : Prop := context_ = some ⟨false⟩

instance (context_ : Option Context) : Decidable (Usable context_) :=
  inferInstanceAs (Decidable (_ = _))

theorem Connect_eq_none_iff (passwd_ : Bytes) (attempt : Attempt) :
    (Connect passwd_ attempt).2 = none ↔ attempt.Refused := by
  unfold Connect Attempt.Refused
  cases hc : attempt.connection with
  | none => simp
  | some context =>
    obtain ⟨err⟩ := context
    cases err with
    | true => simp
    | false =>
      cases hauth : (Auth passwd_ ⟨false⟩ attempt).1 with
      | false => simp [hauth]
      | true =>
        cases hping : (Ping (Auth passwd_ ⟨false⟩ attempt).2 attempt).1 with
        | false => simp [hauth, hping]
        | true => simp [hauth, hping]

/-- The loop gives up when all attempts but the last were refused. -/
theorem reconnect_eq_false_iff (passwd_ : Bytes) (left : Nat) (attempts : Nat → Attempt) :
    (reconnect passwd_ left attempts).1 = false ↔ ∀ i < left, (attempts i).Refused := by
  induction left generalizing attempts with
  | zero => simp [reconnect]
  | succ left ih =>
    rw [reconnect]
    cases hc : (Connect passwd_ (attempts 0)).2 with
    | some context =>
      have hnot : ¬ (attempts 0).Refused := by
        rw [← Connect_eq_none_iff passwd_, hc]
        simp
      refine iff_of_false (by simp) fun h => hnot (h 0 (by omega))
    | none =>
      have hfirst : (attempts 0).Refused := (Connect_eq_none_iff passwd_ _).mp hc
      rw [ih]
      constructor
      · intro h i hi
        cases i with
        | zero => exact hfirst
        | succ i => exact h i (by omega)
      · intro h i hi
        exact h (i + 1) (by omega)

theorem Active_eq_false_iff (passwd_ : Bytes) (context_ : Option Context)
    (attempts : Nat → Attempt) :
    (Active passwd_ context_ attempts).1 = false ↔
      ¬ Usable context_ ∧ ∀ i < 3, (attempts i).Refused := by
  unfold Active Usable
  cases context_ with
  | none => simp [reconnect_eq_false_iff]
  | some context =>
    obtain ⟨err⟩ := context
    cases err with
    | false => simp
    | true => simp [reconnect_eq_false_iff]

/-! ## The operations -/

/-- `Execute` has two forms. -/
inductive Operation where
  | Execute (cmd : Bytes)
  | ExecuteArgv (cmd : List Bytes)
  | MGet (cmd : List Bytes)
  | HGetAll (cmd : Bytes)
  | PipeLine (cmd : List Bytes)
  deriving Repr, DecidableEq

/-- What an operation meets: the attempts to reconnect, the replies to its commands (`none`
where hiredis reports an error), and whether a pointer that was never set can be read
without harm. -/
structure Outside where
  attempts : Nat → Attempt
  replies : Nat → Option Reply
  survives : Bool

/-- What an operation returns. -/
inductive Answer where
  | reply (reply : Option Reply)
  | values (command : List Bytes)
  | fields (hmap : StringMap)
  | none

/-- How an operation ends. -/
inductive Ending where
  | returned (unlocked : Bool) (context_ : Option Context) (answer : Answer)
  | crashed

/-- What `Execute` leaves behind. -/
structure Executed where
  unlocked : Bool
  context_ : Option Context
  reply : Option Reply

/-- Both forms of `Execute`. The early return leaves the mutex locked. -/
def execute (passwd_ : Bytes) (context_ : Option Context) (outside : Outside) : Executed :=
  match Active passwd_ context_ outside.attempts with
  | (false, context_) => ⟨false, context_, none⟩
  | (true, context_) =>
    let reply := outside.replies 0
    ⟨true, context_.map (command · reply.isNone), reply⟩

/-- The second loop of `PipeLine`. On an error `redisGetReply` leaves `reply` as it is, and
the body of the loop looks into it. -/
def getReplies (survives : Bool) : Context → List (Option Reply) → Option Context
  | context, [] => some context
  | context, reply :: rest =>
    if reply.isSome || survives then getReplies survives (command context reply.isNone) rest
    else none

/-- `Active` is not asked, and `redisAppendCommand` dereferences the context. -/
def pipeLine (context_ : Option Context) (cmd : List Bytes) (outside : Outside) : Ending :=
  if cmd = [] then .returned true context_ .none
  else
    match context_ with
    | none => .crashed
    | some context =>
      match getReplies outside.survives context
          ((List.range cmd.length).map outside.replies) with
      | none => .crashed
      | some context => .returned true (some context) .none

/-- `MGet` and `HGetAll` call `Execute` and read its reply, if there is one. -/
def Operation.body (passwd_ : Bytes) (context_ : Option Context) (outside : Outside) :
    Operation → Ending
  | .Execute _ | .ExecuteArgv _ =>
    let done := execute passwd_ context_ outside
    .returned done.unlocked done.context_ (.reply done.reply)
  | .MGet _ =>
    let done := execute passwd_ context_ outside
    .returned done.unlocked done.context_ (.values (done.reply.elim [] readMGet))
  | .HGetAll _ =>
    let done := execute passwd_ context_ outside
    match done.reply.elim (.ok ∅) readHGetAll with
    | .ok hmap => .returned done.unlocked done.context_ (.fields hmap)
    | .error _ => .crashed
  | .PipeLine cmd => pipeLine context_ cmd outside

/-- The operation ends with a return that leaves the mutex locked. -/
def Ending.Keeps : Ending → Prop
  | .returned unlocked _ _ => unlocked = false
  | .crashed => False

/-- The operation asks `Active`. -/
def Operation.Asks : Operation → Prop
  | .PipeLine _ => False
  | _ => True

/-- `Active` has no usable context, and its first three attempts to reconnect are refused. -/
def Unreachable (context_ : Option Context) (outside : Outside) : Prop :=
  ¬ Usable context_ ∧ ∀ i < 3, (outside.attempts i).Refused

theorem execute_unlocked_iff (passwd_ : Bytes) (context_ : Option Context) (outside : Outside) :
    (execute passwd_ context_ outside).unlocked = false ↔ Unreachable context_ outside := by
  rw [Unreachable, ← Active_eq_false_iff passwd_, execute]
  rcases Active passwd_ context_ outside.attempts with ⟨_ | _, context'⟩ <;> simp

theorem execute_reply_eq_none {passwd_ : Bytes} {context_ : Option Context} {outside : Outside}
    (h : (execute passwd_ context_ outside).unlocked = false) :
    (execute passwd_ context_ outside).reply = none := by
  unfold execute at h ⊢
  split
  · rfl
  · rename_i hactive
    simp [hactive] at h

/-- An operation keeps the mutex exactly if it asks `Active` and is told no. -/
theorem body_keeps_iff (passwd_ : Bytes) (context_ : Option Context) (outside : Outside)
    (op : Operation) :
    (op.body passwd_ context_ outside).Keeps ↔ op.Asks ∧ Unreachable context_ outside := by
  rw [← execute_unlocked_iff passwd_]
  cases op with
  | Execute cmd | ExecuteArgv cmd | MGet cmd =>
    simp [Operation.body, Ending.Keeps, Operation.Asks]
  | HGetAll cmd =>
    simp only [Operation.body, Operation.Asks, true_and]
    constructor
    · intro h
      split at h
      · exact h
      · exact h.elim
    · intro h
      rw [execute_reply_eq_none h]
      exact h
  | PipeLine cmd =>
    refine iff_of_false ?_ fun h => h.1
    intro h
    change (pipeLine context_ cmd outside).Keeps at h
    unfold pipeLine at h
    split at h
    · cases h
    · split at h
      · exact h
      · split at h
        · exact h
        · cases h

/-! ## Threads -/

/-- Where a thread is: outside of the client, in `mutex_.lock()`, or behind it. -/
inductive Doing where
  | idle
  | waiting (op : Operation)
  | inside (op : Operation)
  deriving Repr, DecidableEq

structure State (τ : Type) where
  mutex_ : Option τ
  context_ : Option Context
  doing : τ → Doing
  crashed : Bool

/-- A client that nobody uses yet; the constructor of the server has tried to connect. -/
def start (τ : Type) (context_ : Option Context) : State τ :=
  ⟨none, context_, fun _ => .idle, false⟩

inductive Label (τ : Type) where
  /-- an operation is called -/
  | call (t : τ) (op : Operation)
  /-- `mutex_.lock()` returns -/
  | lock (t : τ)
  /-- the operation returns, or the process ends -/
  | finish (t : τ) (outside : Outside)

section Threads

variable {τ : Type} [DecidableEq τ] {passwd_ : Bytes}

def step (passwd_ : Bytes) (s : State τ) (l : Label τ) : Option (State τ) :=
  if s.crashed then none
  else
    match l with
    | .call t op =>
      if s.doing t = .idle then some { s with doing := Function.update s.doing t (.waiting op) }
      else none
    | .lock t =>
      match s.doing t with
      | .waiting op =>
        if s.mutex_ = none then
          some { s with mutex_ := some t, doing := Function.update s.doing t (.inside op) }
        else none
      | _ => none
    | .finish t outside =>
      match s.doing t with
      | .inside op =>
        match op.body passwd_ s.context_ outside with
        | .returned unlocked context_ _ =>
          some { s with
            mutex_ := if unlocked then none else s.mutex_
            context_ := context_
            doing := Function.update s.doing t .idle }
        | .crashed => some { s with crashed := true }
      | _ => none

/-- The steps, by what they do. -/
inductive Step (passwd_ : Bytes) (s : State τ) : Label τ → State τ → Prop
  | call {t : τ} {op : Operation} : s.doing t = .idle →
      Step passwd_ s (.call t op) { s with doing := Function.update s.doing t (.waiting op) }
  | lock {t : τ} {op : Operation} : s.doing t = .waiting op → s.mutex_ = none →
      Step passwd_ s (.lock t)
        { s with mutex_ := some t, doing := Function.update s.doing t (.inside op) }
  | returned {t : τ} {outside : Outside} {op : Operation} {context_ : Option Context}
      {answer : Answer} : s.doing t = .inside op →
      op.body passwd_ s.context_ outside = .returned true context_ answer →
      Step passwd_ s (.finish t outside) { s with
        mutex_ := none
        context_ := context_
        doing := Function.update s.doing t .idle }
  | kept {t : τ} {outside : Outside} {op : Operation} {context_ : Option Context}
      {answer : Answer} : s.doing t = .inside op →
      op.body passwd_ s.context_ outside = .returned false context_ answer →
      Step passwd_ s (.finish t outside) { s with
        context_ := context_
        doing := Function.update s.doing t .idle }
  | crash {t : τ} {outside : Outside} {op : Operation} :
      s.doing t = .inside op → op.body passwd_ s.context_ outside = .crashed →
      Step passwd_ s (.finish t outside) { s with crashed := true }

theorem step_inv {s s' : State τ} {l : Label τ} (h : step passwd_ s l = some s') :
    s.crashed = false ∧ Step passwd_ s l s' := by
  unfold step at h
  split at h
  · cases h
  · rename_i halive
    refine ⟨by simpa using halive, ?_⟩
    cases l with
    | call t op =>
      dsimp only at h
      split at h
      · cases h
        exact .call ‹_›
      · cases h
    | lock t =>
      dsimp only at h
      split at h
      · split at h
        · cases h
          exact .lock ‹_› ‹_›
        · cases h
      · cases h
    | finish t outside =>
      dsimp only at h
      split at h
      · rename_i op hdoing
        cases hbody : op.body passwd_ s.context_ outside with
        | returned unlocked context_ answer =>
          simp only [hbody, Option.some.injEq] at h
          subst h
          cases unlocked with
          | true => exact .returned hdoing hbody
          | false => exact .kept hdoing hbody
        | crashed =>
          simp only [hbody, Option.some.injEq] at h
          subst h
          exact .crash hdoing hbody
      · cases h

/-- Whoever is inside holds the mutex. -/
def Exclusive (s : State τ) : Prop := ∀ t op, s.doing t = .inside op → s.mutex_ = some t

/-- The mutex is locked, and nobody is inside to unlock it. -/
def Leaked (s : State τ) : Prop := s.mutex_ ≠ none ∧ ∀ t op, s.doing t ≠ .inside op

/-- The mutex is free, or somebody is inside. -/
def Held (s : State τ) : Prop := s.mutex_ = none ∨ ∃ t op, s.doing t = .inside op

omit [DecidableEq τ] in
theorem not_leaked_iff (s : State τ) : ¬ Leaked s ↔ Held s := by
  unfold Leaked Held
  rw [not_and_or, not_not]
  simp only [not_forall, not_not]

omit [DecidableEq τ] in
theorem Exclusive.one {s : State τ} (h : Exclusive s) {t u : τ} {op op' : Operation}
    (ht : s.doing t = .inside op) (hu : s.doing u = .inside op') : u = t :=
  Option.some.inj ((h u op' hu).symm.trans (h t op ht))

/-- A thread that moves, and not to the inside, leaves those inside where they are. -/
theorem inside_of_update {doing : τ → Doing} {t u : τ} {d : Doing} {op : Operation}
    (hd : ∀ op, d ≠ .inside op) (h : Function.update doing t d u = .inside op) :
    u ≠ t ∧ doing u = .inside op := by
  by_cases hut : u = t
  · rw [hut, Function.update_self] at h
    exact absurd h (hd op)
  · rw [Function.update_of_ne hut] at h
    exact ⟨hut, h⟩

theorem exclusive_step {s s' : State τ} {l : Label τ} (h : Exclusive s)
    (hstep : step passwd_ s l = some s') : Exclusive s' := by
  cases (step_inv hstep).2 with
  | call hidle => exact fun u op' hu => h u op' (inside_of_update (by simp) hu).2
  | @lock t op hwait hfree =>
    intro u op' hu
    by_cases hut : u = t
    · rw [hut]
    · have hheld := h u op' (by simpa [hut] using hu)
      rw [hfree] at hheld
      cases hheld
  | returned hin hbody | kept hin hbody =>
    -- nobody else was inside
    intro u op' hu
    obtain ⟨hut, hu⟩ := inside_of_update (by simp) hu
    exact absurd (h.one hin hu) hut
  | crash hin hbody => exact h

/-- The step is the end of an operation that asks `Active` while the server is out of reach. -/
def GivesUp (s : State τ) : Label τ → Prop
  | .finish t outside => ∃ op, s.doing t = .inside op ∧ op.Asks ∧ Unreachable s.context_ outside
  | _ => False

omit [DecidableEq τ] in
theorem givesUp_iff {s : State τ} {t : τ} {op : Operation} (hin : s.doing t = .inside op)
    (passwd_ : Bytes) (outside : Outside) : GivesUp s (.finish t outside) ↔
      (op.body passwd_ s.context_ outside).Keeps := by
  simp [GivesUp, hin, body_keeps_iff]

/-- If the step is the return of an operation, the mutex is free behind it. -/
def Frees (passwd_ : Bytes) (s : State τ) (l : Label τ) : Prop :=
  ∀ t outside s', l = .finish t outside → step passwd_ s l = some s' → s'.crashed = false →
    s'.mutex_ = none

/-- A mutex that is not released stays locked, and nobody gets inside any more. -/
theorem leaked_step {s s' : State τ} {l : Label τ} (h : Leaked s)
    (hstep : step passwd_ s l = some s') : Leaked s' ∧ (∀ t outside, l ≠ .finish t outside) ∧
      ∀ t op, s.doing t = .waiting op → s'.doing t = .waiting op := by
  obtain ⟨hlocked, hnobody⟩ := h
  cases (step_inv hstep).2 with
  | @call t op hidle =>
    refine ⟨⟨hlocked, fun u op' hu => ?_⟩, by simp, fun u op' hu => ?_⟩
    · exact hnobody u op' (inside_of_update (by simp) hu).2
    · have hut : u ≠ t := by
        rintro rfl
        rw [hidle] at hu
        cases hu
      simpa [hut] using hu
  | lock hwait hfree => exact absurd hfree hlocked
  | returned hin _ => exact absurd hin (hnobody _ _)
  | kept hin _ => exact absurd hin (hnobody _ _)
  | crash hin _ => exact absurd hin (hnobody _ _)

/-- **One step.** The mutex stays in somebody's hands unless an operation gives up. -/
theorem step_held_iff {s s' : State τ} {l : Label τ} (hexcl : Exclusive s) (h : Held s)
    (hstep : step passwd_ s l = some s') : ¬ GivesUp s l ↔ Held s' := by
  cases (step_inv hstep).2 with
  | @call t op hidle =>
    refine iff_of_true (by simp [GivesUp]) ?_
    rcases h with hfree | ⟨u, op', hu⟩
    · exact Or.inl hfree
    · have hut : u ≠ t := by
        rintro rfl
        rw [hidle] at hu
        cases hu
      exact Or.inr ⟨u, op', by simpa [hut] using hu⟩
  | @lock t op hwait hfree =>
    exact iff_of_true (by simp [GivesUp]) (Or.inr ⟨t, op, by simp⟩)
  | returned hin hbody =>
    refine iff_of_true ?_ (Or.inl rfl)
    rw [givesUp_iff hin passwd_, hbody]
    simp [Ending.Keeps]
  | @kept t _ op _ _ hin hbody =>
    refine iff_of_false ?_ ?_
    · rw [givesUp_iff hin passwd_, hbody]
      simp [Ending.Keeps]
    · rw [← not_leaked_iff, not_not]
      refine ⟨by simp [hexcl t op hin], fun u op' hu => ?_⟩
      obtain ⟨hut, hu⟩ := inside_of_update (by simp) hu
      exact hut (hexcl.one hin hu)
  | @crash t outside op hin hbody =>
    refine iff_of_true ?_ (Or.inr ⟨t, op, hin⟩)
    rw [givesUp_iff hin passwd_, hbody]
    simp [Ending.Keeps]

/-- The mutex is free behind a return exactly if the operation has not given up. -/
theorem frees_iff {s s' : State τ} {l : Label τ} (hexcl : Exclusive s)
    (hstep : step passwd_ s l = some s') : Frees passwd_ s l ↔ ¬ GivesUp s l := by
  have hfrees : Frees passwd_ s l ↔
      ∀ t outside, l = .finish t outside → s'.crashed = false → s'.mutex_ = none := by
    simp [Frees, hstep]
  obtain ⟨halive, hstep⟩ := step_inv hstep
  rw [hfrees]
  cases hstep with
  | call hidle => exact iff_of_true (by simp) (by simp [GivesUp])
  | lock hwait hfree => exact iff_of_true (by simp) (by simp [GivesUp])
  | returned hin hbody =>
    rw [givesUp_iff hin passwd_, hbody]
    exact iff_of_true (by simp) (by simp [Ending.Keeps])
  | kept hin hbody =>
    rw [givesUp_iff hin passwd_, hbody]
    exact iff_of_false (by simp [halive, hexcl _ _ hin]) (by simp [Ending.Keeps])
  | crash hin hbody =>
    rw [givesUp_iff hin passwd_, hbody]
    exact iff_of_true (by simp) (by simp [Ending.Keeps])

/-! ## Runs -/

omit [DecidableEq τ] in
theorem exclusive_start (context_ : Option Context) : Exclusive (start τ context_) := by
  intro t op h
  cases h

/-- A mutex that is in somebody's hands has been so all the time. -/
theorem held_back {s s' : State τ} {l : Label τ} (hstep : step passwd_ s l = some s')
    (h : Held s') : Held s := by
  rw [← not_leaked_iff] at h ⊢
  exact fun hleaked => h (leaked_step hleaked hstep).1

/-- A guard that says of every step whether the mutex stays in somebody's hands says of a
run whether it is so at the end. -/
theorem guarded_iff_held {G : State τ → Label τ → Prop}
    (hG : ∀ s l s', Exclusive s → Held s → step passwd_ s l = some s' → (G s l ↔ Held s'))
    {context_ : Option Context} {ls : List (Label τ)} {s : State τ}
    (hrun : run (step passwd_) (start τ context_) ls = some s) :
    Guarded (step passwd_) G (start τ context_) ls ↔ Held s :=
  guarded_iff_at_end (fun _ _ _ => exclusive_step) (fun _ _ _ => held_back) hG ls _ s
    (exclusive_start context_) (Or.inl rfl) hrun

/-- Once an operation has given up, no operation gets past `mutex_.lock()`. -/
theorem leaked_run {s s' : State τ} {ls : List (Label τ)} (h : Leaked s)
    (hrun : run (step passwd_) s ls = some s') : s'.mutex_ ≠ none ∧
      (∀ t outside, Label.finish t outside ∉ ls) ∧
      ∀ t op, s.doing t = .waiting op → s'.doing t = .waiting op := by
  induction ls generalizing s with
  | nil =>
    cases hrun
    exact ⟨h.1, by simp, fun _ _ => id⟩
  | cons l ls ih =>
    obtain ⟨m, hstep, hrest⟩ := (run_cons_eq_some s s' l ls).mp hrun
    obtain ⟨hm, hno, hwait⟩ := leaked_step h hstep
    obtain ⟨hlocked, hnone, hwaits⟩ := ih hm hrest
    refine ⟨hlocked, fun t outside hmem => ?_, fun t op ht => hwaits t op (hwait t op ht)⟩
    rcases List.mem_cons.mp hmem with heq | hmem
    · exact hno t outside heq.symm
    · exact hnone t outside hmem

/-- A server that takes every connection and answers every command. -/
def answering : Outside where
  attempts _ := ⟨some ⟨false⟩, some true, some true, some true⟩
  replies _ := some .nil
  survives := true

/-- With the server back, whoever is inside leaves and unlocks, or ends the process. -/
theorem finish_answering (passwd_ : Bytes) {s : State τ} {t : τ} {op : Operation}
    (halive : s.crashed = false) (hin : s.doing t = .inside op) :
    ∃ s', step passwd_ s (.finish t answering) = some s' ∧ (s'.crashed = true ∨
      s'.crashed = false ∧ s'.mutex_ = none ∧ s'.doing = Function.update s.doing t .idle) := by
  have hkeeps : ¬ (op.body passwd_ s.context_ answering).Keeps := by
    rw [body_keeps_iff]
    rintro ⟨-, -, hrefused⟩
    exact hrefused 0 (by decide) rfl
  cases hbody : op.body passwd_ s.context_ answering with
  | crashed => exact ⟨{ s with crashed := true }, by simp [step, halive, hin, hbody], Or.inl rfl⟩
  | returned unlocked context_ answer =>
    have hunlocked : unlocked = true := by simpa [hbody, Ending.Keeps] using hkeeps
    subst hunlocked
    let s' : State τ := ⟨none, context_, Function.update s.doing t .idle, false⟩
    refine ⟨s', by simp [step, halive, hin, hbody, s'], Or.inr ⟨rfl, rfl, rfl⟩⟩

/-- A mutex that is free goes to whoever waits for it. -/
theorem served_of_free (passwd_ : Bytes) {s : State τ} {t : τ} {op : Operation}
    (halive : s.crashed = false) (hfree : s.mutex_ = none) (hwait : s.doing t = .waiting op) :
    ∃ ls s', run (step passwd_) s ls = some s' ∧ (s'.crashed = true ∨ s'.doing t = .idle) := by
  let m : State τ := { s with mutex_ := some t, doing := Function.update s.doing t (.inside op) }
  have hlock : step passwd_ s (.lock t) = some m := by simp [step, halive, hwait, hfree, m]
  have hin : m.doing t = .inside op := by simp [m]
  obtain ⟨s', hfinish, hend⟩ := finish_answering passwd_ (s := m) halive hin
  refine ⟨[.lock t, .finish t answering], s', by simp [run, hlock, hfinish], ?_⟩
  rcases hend with hcrashed | ⟨-, -, hdoing⟩
  · exact Or.inl hcrashed
  · exact Or.inr (by simp [hdoing])

/-- A mutex in somebody's hands reaches whoever waits for it. -/
theorem served_of_held (passwd_ : Bytes) {s : State τ} {t : τ} {op : Operation}
    (halive : s.crashed = false) (hheld : Held s) (hwait : s.doing t = .waiting op) :
    ∃ ls s', run (step passwd_) s ls = some s' ∧ (s'.crashed = true ∨ s'.doing t = .idle) := by
  rcases hheld with hfree | ⟨u, op', hin⟩
  · exact served_of_free passwd_ halive hfree hwait
  · have hne : t ≠ u := by
      rintro rfl
      rw [hwait] at hin
      cases hin
    obtain ⟨m, hfinish, hend⟩ := finish_answering passwd_ halive hin
    rcases hend with hcrashed | ⟨hm, hfree, hdoing⟩
    · exact ⟨[.finish u answering], m, by simp [run, hfinish], Or.inl hcrashed⟩
    · have hwait' : m.doing t = .waiting op := by simpa [hdoing, hne] using hwait
      obtain ⟨ls, s', hrun, hserved⟩ := served_of_free passwd_ hm hfree hwait'
      exact ⟨.finish u answering :: ls, s', (run_cons_eq_some _ _ _ _).mpr ⟨m, hfinish, hrun⟩,
        hserved⟩

/-- **The lock of the client.** Every return of a run leaves the mutex free exactly if none
of its operations has asked `Active` while the server was out of reach. As long as that has
not happened, every thread in `mutex_.lock()` can still be served; once it has, no operation
returns any more, and every thread that waits waits for ever. -/
theorem mutex_free_iff (passwd_ : Bytes) (context_ : Option Context) (ls : List (Label τ))
    (s : State τ) (hrun : run (step passwd_) (start τ context_) ls = some s) :
    (Guarded (step passwd_) (Frees passwd_) (start τ context_) ls ↔
      Guarded (step passwd_) (fun s l => ¬ GivesUp s l) (start τ context_) ls) ∧
    (Guarded (step passwd_) (fun s l => ¬ GivesUp s l) (start τ context_) ls →
      ∀ t op, s.crashed = false → s.doing t = .waiting op →
        ∃ ls' s', run (step passwd_) s ls' = some s' ∧
          (s'.crashed = true ∨ s'.doing t = .idle)) ∧
    (¬ Guarded (step passwd_) (fun s l => ¬ GivesUp s l) (start τ context_) ls →
      ∀ ls' s', run (step passwd_) s ls' = some s' → s'.mutex_ ≠ none ∧
        (∀ t outside, Label.finish t outside ∉ ls') ∧
        ∀ t op, s.doing t = .waiting op → s'.doing t = .waiting op) := by
  have hgives := guarded_iff_held (fun _ _ _ => step_held_iff) hrun
  have hfrees : Guarded (step passwd_) (Frees passwd_) (start τ context_) ls ↔ Held s := by
    refine guarded_iff_held (fun s l s' hexcl hheld hstep => ?_) hrun
    rw [frees_iff hexcl hstep, step_held_iff hexcl hheld hstep]
  rw [hgives]
  refine ⟨hfrees, fun hheld t op halive => served_of_held passwd_ halive hheld, fun hleaked => ?_⟩
  rw [← not_leaked_iff, not_not] at hleaked
  exact fun ls' s' => leaked_run hleaked

end Threads

/-- Nothing listens at the address. -/
def refusing : Outside where
  attempts _ := ⟨none, none, none, none⟩
  replies _ := none
  survives := true

/-- Two threads on a connection that is up: the first gets its reply, the second is inside,
and the first waits with a pipeline. -/
def takingTurns : List (Label Bool) :=
  [.call true (.Execute (bytes "GET key_a")), .lock true,
    .call false (.MGet [bytes "MGET", bytes "key_a"]), .finish true answering, .lock false,
    .call true (.PipeLine [bytes "SET key_a 1", bytes "EXPIRE key_a 1800"])]

/-- The first thread has returned once, and can be served again. -/
theorem second_thread_served :
    ∃ s, run (step []) (start Bool (some ⟨false⟩)) takingTurns = some s ∧
      s.mutex_ = some false ∧
      s.doing true = .waiting (.PipeLine [bytes "SET key_a 1", bytes "EXPIRE key_a 1800"]) ∧
      ∃ ls' s', run (step []) s ls' = some s' ∧ (s'.crashed = true ∨ s'.doing true = .idle) := by
  have hanswered : ∀ s : State Bool, ¬ GivesUp s (.finish true answering) := by
    rintro s ⟨op, -, -, -, hrefused⟩
    exact hrefused 0 (by decide) rfl
  have hguard : Guarded (step []) (fun s l => ¬ GivesUp s l) (start Bool (some ⟨false⟩))
      takingTurns := by
    refine guarded_of_forall _ _ fun l hl s => ?_
    simp only [takingTurns, List.mem_cons, List.not_mem_nil, or_false] at hl
    rcases hl with rfl | rfl | rfl | rfl | rfl | rfl
    · exact id
    · exact id
    · exact id
    · exact hanswered s
    · exact id
    · exact id
  exact ⟨_, rfl, rfl, rfl, (mutex_free_iff [] (some ⟨false⟩) takingTurns _ rfl).2.1 hguard true
    (.PipeLine [bytes "SET key_a 1", bytes "EXPIRE key_a 1800"]) rfl rfl⟩

/-- A thread whose `Execute` finds no server returns with the mutex locked, and the next
thread stays in `mutex_.lock()`. -/
theorem refused_execute_keeps_mutex :
    ∃ s, run (step []) (start Bool none) [.call true (.Execute []), .lock true,
      .finish true refusing] = some s ∧ s.doing true = .idle ∧ s.mutex_ = some true ∧
    ∀ ls s', run (step []) s (.call false (.Execute []) :: ls) = some s' →
      s'.doing false = .waiting (.Execute []) := by
  refine ⟨_, rfl, rfl, rfl, fun ls s' hrun => ?_⟩
  obtain ⟨m, hcall, hrest⟩ := (run_cons_eq_some _ _ _ _).mp hrun
  cases hcall
  refine (leaked_run ⟨by decide, fun t op h => ?_⟩ hrest).2.2 false _ rfl
  cases t <;> cases h

end Cppim.Redis.Lock
