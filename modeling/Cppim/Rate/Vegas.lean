import Mathlib.Data.Int.Init
import Mathlib.Tactic.Common

/-! `rate/Sample.h`, `rate/Vegas.h`, `rate/Limiter.h`: the limiter in front of the
HTTP handlers. Each closure that `Acquire` returns is one step here. An `int64_t`
is an `Int`, and the `double` arithmetic is a parameter (`Doubles`): nothing below
depends on what it computes. -/

namespace Cppim.Rate

/-! ## Samples -/

structure Sample where
  count_ : Int := 0
  maxInFlight_ : Int := 0
  drop_ : Int := 0
  totalRTT_ : Int := 0
  deriving Repr, DecidableEq

namespace Sample

def Add (s : Sample) (rtt inflight : Int) (drop : Bool) : Sample where
  count_ := s.count_ + 1
  maxInFlight_ := max s.maxInFlight_ inflight
  drop_ := if drop then 1 else s.drop_
  totalRTT_ := s.totalRTT_ + rtt

def RTT (s : Sample) : Int := if s.count_ = 0 then 0 else s.totalRTT_.tdiv s.count_

end Sample

/-! ## The limit -/

inductive Op where
  | Ignore | Success | Drop
  deriving Repr, DecidableEq

def minWindowTime_ : Int := 500 * 1000 * 1000
def maxWindowTime_ : Int := 2000 * 1000 * 1000
def minLimit_ : Int := 8
def maxLimit_ : Int := 4096

/-- The limit is always between its bounds. -/
structure Vegas where
  limit_ : Int := minLimit_
  inFlight_ : Int := 0
  updateTime_ : Int := 0
  minRTT_ : Int := 0
  sample_ : Sample := {}
  probes_ : Int := 100
  min_le : minLimit_ ≤ limit_ := by decide
  le_max : limit_ ≤ maxLimit_ := by decide
  deriving Repr, DecidableEq

/-- The `double` expressions of the done closure, with `threshold` for
`sqrt(limit) / 2`. -/
structure Doubles where
  /-- `limit * (1 - minRTT / lastRTT)`, truncated -/
  queue : (limit minRTT lastRTT : Int) → Int
  /-- `queue < k * threshold` -/
  below : (queue k limit : Int) → Bool
  /-- `queue > k * threshold` -/
  above : (queue k limit : Int) → Bool
  /-- `limit + k * threshold`, truncated -/
  adjust : (limit k : Int) → Int

namespace Vegas

/-- The limit that a sample asks for, or `none` where the closure returns early. -/
def newLimit (d : Doubles) (s : Sample) (limit queue : Int) : Option Int :=
  if s.drop_ ≠ 0 then some (d.adjust limit (-1))
  else if s.maxInFlight_ * 2 < limit then none
  else if d.below queue 1 limit then some (d.adjust limit 6)
  else if d.below queue 2 limit then some (d.adjust limit 3)
  else if d.below queue 3 limit then some (d.adjust limit 1)
  else if d.above queue 6 limit then some (d.adjust limit (-1))
  else none

def window (lastRTT : Int) : Int :=
  if lastRTT * 5 < minWindowTime_ then minWindowTime_
  else if lastRTT * 5 > maxWindowTime_ then maxWindowTime_
  else lastRTT * 5

/-- `max(minLimit_, min(maxLimit_, limit))` -/
def setLimit (v : Vegas) (limit : Int) : Vegas :=
  { v with
    limit_ := max minLimit_ (min maxLimit_ limit)
    min_le := Int.le_max_left _ _
    le_max := by simp only [minLimit_, maxLimit_]; omega }

/-- What the closure does under the mutex with the full sample `s`; `rand` is the
value of `std::rand()`. -/
def update (d : Doubles) (v : Vegas) (s : Sample) (end_ rand : Int) : Vegas :=
  let v := { v with sample_ := {} }
  let lastRTT := s.RTT
  if lastRTT ≤ 0 then v
  else
    let v := { v with updateTime_ := end_ + window lastRTT }
    let limit := v.limit_
    let queue := d.queue limit v.minRTT_ lastRTT
    let v := { v with probes_ := v.probes_ - 1 }
    let v :=
      if v.probes_ ≤ 0 ∧ (s.maxInFlight_ * 2 < limit ∨ s.maxInFlight_ ≤ minLimit_) then
        { v with probes_ := 3 * limit + rand.tmod (3 * limit), minRTT_ := lastRTT }
      else v
    let v := if v.minRTT_ = 0 ∨ lastRTT < v.minRTT_ then { v with minRTT_ := lastRTT } else v
    match newLimit d s limit queue with
    | some limit => v.setLimit limit
    | none => v

/-- The first half of `Acquire`: the number in flight, this caller included, and
whether it is admitted. -/
def Acquire (v : Vegas) : Vegas × Int × Bool :=
  let inFlight := v.inFlight_ + 1
  ({ v with inFlight_ := inFlight }, inFlight, inFlight ≤ v.limit_)

/-- The closure that `Acquire` returns, with the `inFlight` it captured; `end_` is
the clock when it is called. -/
def done (d : Doubles) (v : Vegas) (inFlight start : Int) (op : Op) (end_ rand : Int) : Vegas :=
  let v := { v with inFlight_ := v.inFlight_ - 1 }
  if op = .Ignore then v
  else
    let s := v.sample_.Add (end_ - start) inFlight (op = .Drop)
    let v := { v with sample_ := s }
    if v.updateTime_ < end_ ∧ 16 ≤ s.count_ then update d v s end_ rand else v

@[simp] theorem update_inFlight (d : Doubles) (v : Vegas) (s : Sample) (end_ rand : Int) :
    (update d v s end_ rand).inFlight_ = v.inFlight_ := by
  simp only [update]
  split
  · rfl
  · split <;> split <;> split <;> rfl

/-- The sample is replaced whatever it asks for. -/
theorem update_sample (d : Doubles) (v : Vegas) (s : Sample) (end_ rand : Int) :
    (update d v s end_ rand).sample_ = {} := by
  simp only [update]
  split
  · rfl
  · split <;> split <;> split <;> rfl

theorem update_of_nonpos (d : Doubles) (v : Vegas) {s : Sample} (h : s.RTT ≤ 0)
    (end_ rand : Int) : update d v s end_ rand = { v with sample_ := {} } := by
  simp only [update, if_pos h]

theorem update_updateTime (d : Doubles) (v : Vegas) {s : Sample} (h : 0 < s.RTT)
    (end_ rand : Int) : (update d v s end_ rand).updateTime_ = end_ + window s.RTT := by
  simp only [update, if_neg (Int.not_le.mpr h)]
  split <;> split <;> split <;> rfl

theorem window_bounds (lastRTT : Int) :
    minWindowTime_ ≤ window lastRTT ∧ window lastRTT ≤ maxWindowTime_ := by
  unfold window minWindowTime_ maxWindowTime_
  split
  · omega
  · split <;> omega

@[simp] theorem done_inFlight (d : Doubles) (v : Vegas) (inFlight start : Int) (op : Op)
    (end_ rand : Int) : (done d v inFlight start op end_ rand).inFlight_ = v.inFlight_ - 1 := by
  simp only [done]
  split
  · rfl
  · split
    · rw [update_inFlight]
    · rfl

end Vegas

/-! ## The limiter -/

/-- `Limiter::Allow`: the captured `inFlight` of an admitted request. A refused one
gives its place back at once. -/
def Allow (v : Vegas) : Vegas × Option Int :=
  match v.Acquire with
  | (v, inFlight, true) => (v, some inFlight)
  | (v, _, false) => ({ v with inFlight_ := v.inFlight_ - 1 }, none)

theorem Allow_admitted (v : Vegas) (h : v.inFlight_ < v.limit_) :
    Allow v = ({ v with inFlight_ := v.inFlight_ + 1 }, some (v.inFlight_ + 1)) := by
  have hle : v.inFlight_ + 1 ≤ v.limit_ := h
  simp [Allow, Vegas.Acquire, hle]

theorem Allow_refused (v : Vegas) (h : ¬ v.inFlight_ < v.limit_) : Allow v = (v, none) := by
  have hle : ¬ v.inFlight_ + 1 ≤ v.limit_ := h
  simp [Allow, Vegas.Acquire, hle]

end Cppim.Rate
