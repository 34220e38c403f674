import Cppim.Redis.Commands

/-! Redis with `EXPIRE`, as the program depends on it. The server is not part of the program:
a `Service` is any server that executes commands, and `Lawful` names what it has to keep to.
Each law is about one command, and says what is found under every name at any time from then
on, as long as no other command comes. The times are in milliseconds. -/

namespace Cppim.Redis

open Cppim.Common

/-- What a name holds: a string, or the fields of a hash. -/
def Content.cell (redis : Content) (name : Bytes) : Option Bytes × List (Bytes × Bytes) :=
  (redis.strings name, redis.hashes name)

def Content.Holds (redis : Content) (name : Bytes) : Prop := redis.cell name ≠ (none, [])

instance (redis : Content) (name : Bytes) : Decidable (redis.Holds name) :=
  inferInstanceAs (Decidable (redis.cell name ≠ (none, [])))

theorem Content.strings_eq (redis : Content) (n : Bytes) : redis.strings n = (redis.cell n).1 := rfl

theorem Content.hashes_eq (redis : Content) (n : Bytes) : redis.hashes n = (redis.cell n).2 := rfl

structure Service where
  State : Type
  /-- a server that holds nothing -/
  empty : State
  /-- a command at a time, as its words -/
  execute : State → Nat → List Bytes → State
  /-- what is found at a time; the fields of a hash in the order in which they were set -/
  view : State → Nat → Content

namespace Service

/-- The name is removed between the two times. -/
def Expires (R : Service) (redis : R.State) (now t : Nat) (name : Bytes) : Prop :=
  (R.view redis now).Holds name ∧ ¬ (R.view redis t).Holds name

instance (R : Service) (redis : R.State) (now t : Nat) (name : Bytes) :
    Decidable (R.Expires redis now t name) :=
  inferInstanceAs (Decidable (_ ∧ _))

/-- What the commands do that the logic server sends. -/
structure Lawful (R : Service) : Prop where
  empty : ∀ t n, (R.view R.empty t).cell n = (none, [])
  /-- the time that the name had is taken away -/
  set : ∀ redis now t name value n, now ≤ t →
    (R.view (R.execute redis now [bytes "SET", name, value]) t).cell n =
      if n = name then (some value, []) else (R.view redis t).cell n
  del : ∀ redis now t name n, now ≤ t →
    (R.view (R.execute redis now [bytes "DEL", name]) t).cell n =
      if n = name then (none, []) else (R.view redis t).cell n
  /-- a name that is there is removed with all that it holds when the time is over, and not
  before; nothing happens to one that is not -/
  expire : ∀ redis now t name seconds n, now ≤ t → 0 < seconds → seconds < 2 ^ 31 →
    (R.view (R.execute redis now [bytes "EXPIRE", name, formatInt (seconds : Nat)]) t).cell n =
      if n = name then
        if t ≤ now + 1000 * seconds then (R.view redis now).cell n else (none, [])
      else (R.view redis t).cell n
  /-- a hash keeps its time, and a new one has none -/
  hset : ∀ redis now t name field value n, now ≤ t →
    (R.view (R.execute redis now [bytes "HSET", name, field, value]) t).cell n =
      if n = name ∧ R.Expires redis now t name then (none, [])
      else ((R.view redis t).hset name field value).cell n
  hdel : ∀ redis now t name field n, now ≤ t →
    (R.view (R.execute redis now [bytes "HDEL", name, field]) t).cell n =
      ((R.view redis t).hdel name field).cell n
  /-- `HDEL` without a field is refused -/
  hdelNone : ∀ redis now t name n, now ≤ t →
    (R.view (R.execute redis now [bytes "HDEL", name]) t).cell n = (R.view redis t).cell n

/-- `RedisClient::PipeLine`: the commands are executed in order, each at a time of its own. -/
def pipeLine (R : Service) (redis : R.State) (times : List Nat) (commands : List Bytes) :
    R.State :=
  (times.zip commands).foldl (fun redis p => R.execute redis p.1 (words p.2)) redis

theorem pipeLine_eq (R : Service) (redis : R.State) (times : List Nat) (commands : List Bytes) :
    R.pipeLine redis times commands =
      (times.zip (commands.map words)).foldl (fun redis p => R.execute redis p.1 p.2) redis := by
  rw [pipeLine, List.zip_map_right, List.foldl_map]
  rfl

end Service

end Cppim.Redis
