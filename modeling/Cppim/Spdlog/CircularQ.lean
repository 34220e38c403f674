import Cppim.Common.Basic
import Cppim.Lib.Ring
import Cppim.Lib.Transition
import Mathlib.Data.BitVec

/-! `opt/spdlog/details/circular_q.h`: the queue of the log messages, in a vector with one
cell more than it may hold. `circularQ_refines` says that it is a list which drops its
oldest element when it is full. -/

namespace Cppim.Spdlog

open Cppim.Common Cppim.Lib Cppim.Lib.Transition

/-! ## The queue -/

/-- The constructor adds one to the capacity. -/
structure CircularQ (α : Type) where
  max_items_ : Nat
  head_ : Nat
  tail_ : Nat
  v_ : List α
  overrun_counter_ : BitVec 64
  length_eq : v_.length = max_items_
  head_lt : head_ < max_items_
  tail_lt : tail_ < max_items_
  deriving Repr, DecidableEq

namespace CircularQ

variable {α : Type}

/-- `circular_q(max_items)`, with `max_items + 1` below `2 ^ 64`, where a `size_t` would wrap. -/
def ofSize [Inhabited α] (max_items : Nat) : CircularQ α where
  max_items_ := max_items + 1
  head_ := 0
  tail_ := 0
  v_ := List.replicate (max_items + 1) default
  overrun_counter_ := 0
  length_eq := List.length_replicate
  head_lt := Nat.zero_lt_succ _
  tail_lt := Nat.zero_lt_succ _

theorem pos (q : CircularQ α) : 0 < q.max_items_ := Nat.zero_lt_of_lt q.head_lt

/-- The oldest element is overrun if there is no room left. -/
def pushBack (q : CircularQ α) (item : α) : CircularQ α :=
  let tail := (q.tail_ + 1) % q.max_items_
  let pushed : CircularQ α :=
    { q with
      v_ := q.v_.set q.tail_ item
      tail_ := tail
      length_eq := by rw [List.length_set, q.length_eq]
      tail_lt := Nat.mod_lt _ q.pos }
  if tail = q.head_ then
    { pushed with
      head_ := (q.head_ + 1) % q.max_items_
      overrun_counter_ := q.overrun_counter_ + 1
      head_lt := Nat.mod_lt _ q.pos }
  else pushed

/-- The cell keeps what was moved out of it. -/
def popFront (q : CircularQ α) : CircularQ α × α :=
  ({ q with
      head_ := (q.head_ + 1) % q.max_items_
      head_lt := Nat.mod_lt _ q.pos },
    q.v_.get ⟨q.head_, by rw [q.length_eq]; exact q.head_lt⟩)

def empty (q : CircularQ α) : Bool := q.tail_ = q.head_

def full (q : CircularQ α) : Bool := (q.tail_ + 1) % q.max_items_ = q.head_

/-! ## Its content -/

/-- How many elements there are. -/
def size (q : CircularQ α) : Nat := (q.tail_ + (q.max_items_ - q.head_)) % q.max_items_

def content (q : CircularQ α) : List α := Ring.queue q.v_ q.head_ q.size

theorem size_lt (q : CircularQ α) : q.size < q.max_items_ := Nat.mod_lt _ q.pos

/-- The tail is as far behind the head as there are elements. -/
theorem index_size (q : CircularQ α) : Ring.index q.max_items_ q.head_ q.size = q.tail_ := by
  have hhead := q.head_lt
  have hsum : q.head_ + (q.tail_ + (q.max_items_ - q.head_)) = q.tail_ + q.max_items_ := by omega
  rw [Ring.index, size, Nat.add_mod_mod, hsum, Nat.add_mod_right, Nat.mod_eq_of_lt q.tail_lt]

theorem size_of_index {q : CircularQ α} {n : Nat} (hn : n < q.max_items_)
    (h : q.tail_ = Ring.index q.max_items_ q.head_ n) : q.size = n := by
  rw [← Ring.index_inj q.size_lt hn, q.index_size, h]

@[simp] theorem length_content (q : CircularQ α) : q.content.length = q.size :=
  Ring.length_queue _ _ _ (by rw [q.length_eq]; exact q.head_lt)

theorem empty_iff (q : CircularQ α) : q.empty = true ↔ q.content = [] := by
  rw [← List.length_eq_zero_iff, length_content, empty, decide_eq_true_iff]
  constructor
  · intro h
    exact size_of_index q.pos (by rw [Ring.index_zero q.head_lt, h])
  · intro h
    rw [← q.index_size, h, Ring.index_zero q.head_lt]

/-- The cell behind the tail is that of the head if all others are taken. -/
theorem next_tail (q : CircularQ α) :
    (q.tail_ + 1) % q.max_items_ = Ring.index q.max_items_ q.head_ (q.size + 1) := by
  rw [← Ring.index_index, q.index_size]
  rfl

theorem full_iff (q : CircularQ α) : q.full = true ↔ q.content.length + 1 = q.max_items_ := by
  have hlt := q.size_lt
  rw [length_content, full, decide_eq_true_iff, q.next_tail]
  constructor
  · intro h
    by_contra hne
    have hzero := (Ring.index_inj (by omega) q.pos).mp (h.trans (Ring.index_zero q.head_lt).symm)
    omega
  · intro h
    rw [h, Ring.index, Nat.add_mod_right, Nat.mod_eq_of_lt q.head_lt]

section Push

variable (q : CircularQ α) (item : α)

@[simp] theorem max_items_pushBack : (q.pushBack item).max_items_ = q.max_items_ := by
  simp only [pushBack]
  split <;> rfl

theorem v_pushBack : (q.pushBack item).v_ = q.v_.set q.tail_ item := by
  simp only [pushBack]
  split <;> rfl

theorem tail_pushBack :
    (q.pushBack item).tail_ = Ring.index q.max_items_ q.head_ (q.size + 1) := by
  rw [← q.next_tail]
  simp only [pushBack]
  split <;> rfl

theorem head_pushBack : (q.pushBack item).head_ =
    if q.full then Ring.index q.max_items_ q.head_ 1 else q.head_ := by
  simp only [pushBack, full, decide_eq_true_eq]
  split <;> rfl

theorem overrun_counter_pushBack : (q.pushBack item).overrun_counter_ =
    if q.full then q.overrun_counter_ + 1 else q.overrun_counter_ := by
  simp only [pushBack, full, decide_eq_true_eq]
  split <;> rfl

/-- The cells of the queue and the one behind it, after a push. -/
theorem queue_pushBack :
    Ring.queue (q.v_.set q.tail_ item) q.head_ (q.size + 1) = q.content ++ [item] := by
  have hlength := q.length_eq
  have hhead : q.head_ < q.v_.length := by rw [hlength]; exact q.head_lt
  have hsize : q.size < q.v_.length := by rw [hlength]; exact q.size_lt
  have htail : q.tail_ < q.v_.length := by rw [hlength]; exact q.tail_lt
  have hindex : Ring.index q.v_.length q.head_ q.size = q.tail_ := by rw [hlength, q.index_size]
  have hold := Ring.queue_set q.v_ q.head_ q.size q.size item hhead (Nat.le_refl _) hsize
  rw [hindex] at hold
  rw [Ring.queue_succ _ _ _ (by rw [List.length_set]; exact hhead), hold, List.length_set, hindex,
    List.getElem?_set_self htail]
  rfl

theorem content_pushBack :
    (q.pushBack item).content = (q.content ++ [item]).drop (if q.full then 1 else 0) := by
  have hqueue := q.queue_pushBack item
  by_cases hfull : q.full = true
  · have hlast := q.full_iff.mp hfull
    rw [length_content] at hlast
    -- the tail is where the head was, so the queue is as long as before
    have hsize : (q.pushBack item).size = q.size := by
      refine size_of_index (by rw [max_items_pushBack]; exact q.size_lt) ?_
      rw [tail_pushBack, max_items_pushBack, head_pushBack, if_pos hfull, Ring.index_index,
        Nat.add_comm 1]
    rw [content, hsize, v_pushBack, head_pushBack, if_pos hfull, if_pos hfull, ← hqueue,
      Ring.queue, List.length_set, q.length_eq]
    have hhead : q.head_ < (q.v_.set q.tail_ item).length := by
      rw [List.length_set, q.length_eq]
      exact q.head_lt
    rw [List.getElem?_eq_getElem hhead]
    rfl
  · have hroom := mt q.full_iff.mpr hfull
    rw [length_content] at hroom
    have hlt := q.size_lt
    have hsize : (q.pushBack item).size = q.size + 1 := by
      refine size_of_index (by rw [max_items_pushBack]; omega) ?_
      rw [tail_pushBack, max_items_pushBack, head_pushBack, if_neg hfull]
    rw [content, hsize, v_pushBack, head_pushBack, if_neg hfull, if_neg hfull, hqueue,
      List.drop_zero]

end Push

@[simp] theorem max_items_popFront (q : CircularQ α) :
    q.popFront.1.max_items_ = q.max_items_ := rfl

theorem content_popFront {q : CircularQ α} (h : q.content ≠ []) :
    q.content = q.popFront.2 :: q.popFront.1.content := by
  have hsize : 0 < q.size := by
    rw [← length_content]
    exact List.length_pos_iff.mpr h
  obtain ⟨n, hn⟩ : ∃ n, q.size = n + 1 := ⟨q.size - 1, by omega⟩
  have hrest : q.popFront.1.size = n := by
    have hlt := q.size_lt
    refine size_of_index (by rw [max_items_popFront]; omega) ?_
    show q.tail_ = Ring.index q.max_items_ (Ring.index q.max_items_ q.head_ 1) n
    rw [Ring.index_index, Nat.add_comm 1, ← hn, q.index_size]
  have hhead : q.head_ < q.v_.length := by rw [q.length_eq]; exact q.head_lt
  rw [content, content, hn, hrest, Ring.queue, List.getElem?_eq_getElem hhead, q.length_eq]
  rfl

/-! ## The list that it stands for -/

/-- The operations of the queue. -/
inductive Op (α : Type) where
  | push (item : α)
  | pop
  | empty
  | full
  | overrun
  deriving Repr, DecidableEq

inductive Answer (α : Type) where
  | none
  | item (item : α)
  | flag (b : Bool)
  | counter (n : BitVec 64)
  deriving Repr, DecidableEq

def step (q : CircularQ α) : Op α → Except Fault (CircularQ α × Answer α)
  | .push item => .ok (q.pushBack item, .none)
  | .pop => .ok (q.popFront.1, .item q.popFront.2)
  | .empty => .ok (q, .flag q.empty)
  | .full => .ok (q, .flag q.full)
  | .overrun => .ok (q, .counter q.overrun_counter_)

/-- `popFront` is called on elements only. -/
def Fits (q : CircularQ α) : Op α → Prop
  | .pop => q.empty = false
  | _ => True

end CircularQ

/-- A list that holds `capacity` elements, and the number of those that it has dropped, in 64
bits. -/
structure Bounded (α : Type) where
  capacity : Nat
  items : List α := []
  dropped : BitVec 64 := 0
  deriving Repr, DecidableEq

namespace Bounded

variable {α : Type}

open CircularQ

def after (b : Bounded α) : Op α → Bounded α × Answer α
  | .push item =>
    if b.items.length = b.capacity then
      ({ b with items := (b.items ++ [item]).tail, dropped := b.dropped + 1 }, .none)
    else ({ b with items := b.items ++ [item] }, .none)
  | .pop => ({ b with items := b.items.tail }, b.items.head?.elim .none .item)
  | .empty => (b, .flag (b.items = []))
  | .full => (b, .flag (b.items.length = b.capacity))
  | .overrun => (b, .counter b.dropped)

end Bounded

namespace CircularQ

variable {α : Type}

/-- One cell is never used. -/
def bounded (q : CircularQ α) : Bounded α := ⟨q.max_items_ - 1, q.content, q.overrun_counter_⟩

theorem full_eq (q : CircularQ α) : q.full = decide (q.content.length = q.max_items_ - 1) := by
  have hpos := q.pos
  rw [← Bool.coe_iff_coe, q.full_iff, decide_eq_true_iff]
  omega

theorem step_refines (q : CircularQ α) (op : Op α) (h : q.Fits op) :
    ∃ q' answer, q.step op = .ok (q', answer) ∧ q.bounded.after op = (q'.bounded, answer) := by
  cases op with
  | push item =>
    refine ⟨_, _, rfl, ?_⟩
    have hfull := q.full_eq
    by_cases hlast : q.content.length = q.max_items_ - 1
    · rw [decide_eq_true hlast] at hfull
      rw [bounded, Bounded.after, if_pos hlast, bounded, max_items_pushBack,
        content_pushBack, overrun_counter_pushBack, if_pos hfull, if_pos hfull, List.drop_one]
    · rw [decide_eq_false hlast] at hfull
      have hroom : ¬ q.full = true := by rw [hfull]; decide
      rw [bounded, Bounded.after, if_neg hlast, bounded, max_items_pushBack,
        content_pushBack, overrun_counter_pushBack, if_neg hroom, if_neg hroom, List.drop_zero]
  | pop =>
    refine ⟨_, _, rfl, ?_⟩
    have hsome : q.content ≠ [] := by
      rw [Ne, ← empty_iff]
      simp only [Fits] at h
      simp [h]
    have hcontent := content_popFront hsome
    simp only [bounded, Bounded.after, Prod.mk.injEq, Bounded.mk.injEq]
    rw [hcontent]
    exact ⟨⟨rfl, rfl, rfl⟩, rfl⟩
  | empty =>
    refine ⟨_, _, rfl, ?_⟩
    have hempty : q.empty = decide (q.content = []) := by
      rw [← Bool.coe_iff_coe, q.empty_iff, decide_eq_true_iff]
    rw [hempty]
    rfl
  | full =>
    refine ⟨_, _, rfl, ?_⟩
    rw [q.full_eq]
    rfl
  | overrun => exact ⟨_, _, rfl, rfl⟩

/-- **The queue is a bounded list.** Whatever is pushed, popped and asked, as long as nothing
is popped from an empty queue: the answers are those of a list that drops its oldest element
when it is full, and so is the content afterwards. -/
theorem circularQ_refines [Inhabited α] (max_items : Nat) (ops : List (Op α))
    (hfits : Guarded (landed step) Fits (ofSize max_items : CircularQ α) ops) :
    ∃ (q : CircularQ α) (answers : List (Answer α)),
      exec step (ofSize max_items) ops = .ok (q, answers) ∧
      follow Bounded.after { capacity := max_items } ops = (q.bounded, answers) := by
  have hinitial : (ofSize max_items : CircularQ α).bounded = { capacity := max_items } := by
    have hsize : (ofSize max_items : CircularQ α).size = 0 :=
      size_of_index (Nat.zero_lt_succ _) (Ring.index_zero (Nat.zero_lt_succ _)).symm
    simp only [bounded, content, hsize]
    rfl
  rw [← hinitial]
  exact exec_refines bounded step_refines ops _ hfits

instance (q : CircularQ α) : (op : Op α) → Decidable (q.Fits op)
  | .pop => inferInstanceAs (Decidable (q.empty = false))
  | .push _ | .empty | .full | .overrun => inferInstanceAs (Decidable True)

/-- Three elements in a queue for two. -/
theorem circularQ_refines_three :
    ∃ q answers, exec step (ofSize 2 : CircularQ Nat)
        [.push 7, .push 8, .full, .push 9, .pop, .overrun] = .ok (q, answers) ∧
      answers = [.none, .none, .flag true, .none, .item 8, .counter 1] ∧ q.content = [9] := by
  obtain ⟨q, answers, hrun, hfollow⟩ := circularQ_refines 2
    [.push 7, .push 8, .full, .push 9, .pop, .overrun] (by decide +kernel)
  have habstract : follow Bounded.after ({ capacity := 2 } : Bounded Nat)
      [.push 7, .push 8, .full, .push 9, .pop, .overrun] =
      (⟨2, [9], 1⟩, [.none, .none, .flag true, .none, .item 8, .counter 1]) := by decide +kernel
  rw [habstract] at hfollow
  obtain ⟨hq, hanswers⟩ := Prod.mk.inj hfollow
  exact ⟨q, answers, hrun, hanswers.symm, (congrArg Bounded.items hq).symm⟩

end CircularQ

end Cppim.Spdlog
