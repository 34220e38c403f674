import Cppim.Common.HashMap
import Cppim.Common.Number

/-! `redis/RedisClient.cc`: how `MGet` and `HGetAll` read the reply of the server,
and what a Redis that answers replies from its content. -/

namespace Cppim.Redis

open Cppim.Common

/-- `redisReply` -/
inductive Reply where
  | nil
  | string (str : Bytes)
  | integer (n : Int)
  | array (elements : List Reply)
  | error (str : Bytes)
  deriving Repr

/-- A string or an integer as text; other elements have none. -/
def Reply.text : Reply → Option Bytes
  | .string str => some str
  | .integer n => some (formatInt n)
  | _ => none

/-- The loop of `MGet` skips the elements that have no text. -/
def readMGet : Reply → List Bytes
  | .array elements => elements.filterMap Reply.text
  | _ => []

/-- The loop of `HGetAll`. `key` and `value` are declared outside of the loop and
keep what an earlier pair put there. -/
def readPairs : List Reply → Bytes → Bytes → StringMap → Except Fault StringMap
  | [], _, _, hmap => .ok hmap
  | [_], _, _, _ => .error .invalidRead
  | k :: v :: rest, key, value, hmap =>
    let key := match k with
      | .string str => str
      | _ => key
    let value := v.text.getD value
    readPairs rest key value (hmap.insertIfNew key value)

def readHGetAll : Reply → Except Fault StringMap
  | .array elements => readPairs elements [] [] ∅
  | _ => .ok ∅

/-! ## A Redis that answers -/

/-- The content that the program stores: strings, and hashes with one value a field. -/
structure Content where
  strings : Bytes → Option Bytes
  hashes : Bytes → List (Bytes × Bytes)
  nodup : ∀ name, ((hashes name).map Prod.fst).Nodup

namespace Content

/-- One element a key, in order, and nil for an absent one. -/
def mgetReply (redis : Content) (keys : List Bytes) : Reply :=
  .array (keys.map fun key => (redis.strings key).elim .nil .string)

/-- Every field once, followed by its value. -/
def hgetallReply (redis : Content) (name : Bytes) : Reply :=
  .array ((redis.hashes name).flatMap fun p => [.string p.1, .string p.2])

def MGet (redis : Content) (keys : List Bytes) : List Bytes := readMGet (redis.mgetReply keys)

def HGetAll (redis : Content) (name : Bytes) : Except Fault StringMap :=
  readHGetAll (redis.hgetallReply name)

theorem MGet_eq (redis : Content) (keys : List Bytes) :
    redis.MGet keys = keys.filterMap redis.strings := by
  have htext : ∀ key, Reply.text ((redis.strings key).elim .nil .string) = redis.strings key := by
    intro key
    cases redis.strings key <;> rfl
  simp only [MGet, mgetReply, readMGet, List.filterMap_map]
  exact congrArg (List.filterMap · keys) (funext htext)

theorem readPairs_strings (pairs : List (Bytes × Bytes)) (key value : Bytes) (hmap : StringMap) :
    readPairs (pairs.flatMap fun p => [.string p.1, .string p.2]) key value hmap =
      .ok (pairs.foldl (fun m p => m.insertIfNew p.1 p.2) hmap) := by
  induction pairs generalizing key value hmap with
  | nil => rfl
  | cons p pairs ih =>
    simp only [List.flatMap_cons, List.cons_append, List.nil_append, readPairs, ih,
      List.foldl_cons, Reply.text, Option.getD_some]

/-- What `HGetAll` returns is the hash. -/
theorem HGetAll_ok (redis : Content) (name : Bytes) :
    ∃ m, redis.HGetAll name = .ok m ∧
      ∀ field value : Bytes, m[field]? = some value ↔ (field, value) ∈ redis.hashes name := by
  refine ⟨_, readPairs_strings (redis.hashes name) [] [] ∅, ?_⟩
  intro field value
  rw [getElem?_foldl_insertIfNew _ (redis.nodup name) ∅ (by simp)]
  simp

end Content

end Cppim.Redis
