import Cppim.Common.Util
import Cppim.Redis.Client
import Mathlib.Data.List.TakeWhile
import Mathlib.Logic.Function.Basic

/-! What the commands that the program sends do to the content of Redis. `RedisClient::PipeLine`
hands each command as one text to `redisAppendCommand`, which cuts it into its words, and
Redis executes them in order; nothing expires here. A name holds a string or a hash: a hash
command on a string is refused. -/

namespace Cppim.Redis

open Cppim.Common Cppim.Lib

/-! ## Texts and words -/

/-- `fmt::format("{} {} {}", ..)`: the parts with a blank between them. -/
def text (parts : List Bytes) : Bytes := [32].intercalate parts

/-- The words that `redisAppendCommand` makes of a text without `%`: it ends at the first
zero, and is cut at its blanks; an empty word does not count. -/
def words (text : Bytes) : List Bytes :=
  ((text.takeWhile (· ≠ 0)).splitOn 32).filter (· ≠ [])

/-- A part that stays one word: it is not empty and has no blank, no `%`, which starts a
format, and no zero. -/
def IsWord (part : Bytes) : Prop := part ≠ [] ∧ ∀ c ∈ part, c ≠ 32 ∧ c ≠ 37 ∧ c ≠ 0

theorem isWord_iff_all (part : Bytes) :
    (!part.isEmpty && part.all fun c => c != 32 && c != 37 && c != 0) = true ↔ IsWord part := by
  simp [IsWord, and_assoc]

instance (part : Bytes) : Decidable (IsWord part) := decidable_of_iff _ (isWord_iff_all part)

theorem not_mem_intercalate {c : UInt8} (hc : c ≠ 32) {parts : List Bytes}
    (h : ∀ part ∈ parts, c ∉ part) : c ∉ text parts := by
  induction parts with
  | nil => simp [text, List.intercalate]
  | cons part parts ih =>
    have hrest := ih fun other hother => h other (List.mem_cons_of_mem _ hother)
    cases parts with
    | nil => simpa [text] using h part (by simp)
    | cons next parts =>
      rw [text, List.intercalate_cons_cons]
      simp only [List.mem_append, List.mem_singleton, not_or]
      exact ⟨⟨h part (by simp), hc⟩, hrest⟩

/-- Parts without a blank and a zero come apart again, and the empty ones are dropped. -/
theorem words_text {parts : List Bytes} (hne : parts ≠ [])
    (h : ∀ part ∈ parts, 32 ∉ part ∧ 0 ∉ part) : words (text parts) = parts.filter (· ≠ []) := by
  have hzero : (text parts).takeWhile (· ≠ 0) = text parts := by
    rw [List.takeWhile_eq_self_iff]
    intro c hc
    have hno := not_mem_intercalate (c := 0) (by decide) fun part hpart => (h part hpart).2
    simp only [decide_eq_true_eq]
    rintro rfl
    exact hno hc
  rw [words, hzero, text, List.splitOn_intercalate 32 (fun part hpart => (h part hpart).1) hne]

theorem IsWord.free {part : Bytes} (h : IsWord part) : 32 ∉ part ∧ 0 ∉ part :=
  ⟨fun hc => (h.2 32 hc).1 rfl, fun hc => (h.2 0 hc).2.2 rfl⟩

theorem words_text_of_isWord {parts : List Bytes} (hne : parts ≠ [])
    (h : ∀ part ∈ parts, IsWord part) : words (text parts) = parts := by
  rw [words_text hne fun part hpart => (h part hpart).free, List.filter_eq_self]
  exact fun part hpart => decide_eq_true (h part hpart).1

/-- Decimals, with or without a sign, are words. -/
theorem isWord_decimal (n : Nat) : IsWord (Decimal.decimal n) := by
  refine ⟨Decimal.decimal_ne_nil n, fun c hc => ?_⟩
  have hrange := Decimal.decimal_range n c hc
  refine ⟨?_, ?_, ?_⟩ <;> rintro rfl <;> simp at hrange

theorem isWord_append {a b : Bytes} (ha : IsWord a) (hb : ∀ c ∈ b, c ≠ 32 ∧ c ≠ 37 ∧ c ≠ 0) :
    IsWord (a ++ b) :=
  ⟨fun h => ha.1 (List.append_eq_nil_iff.mp h).1, List.forall_mem_append.mpr ⟨ha.2, hb⟩⟩

theorem isWord_formatInt (n : Int) : IsWord (formatInt n) := by
  unfold formatInt
  split
  · exact isWord_append (by decide) (isWord_decimal _).2
  · exact isWord_decimal _

namespace Content

def empty : Content where
  strings := fun _ => none
  hashes := fun _ => []
  nodup := fun _ => List.nodup_nil

/-- One hash is replaced. -/
theorem nodup_update (redis : Content) (name : Bytes) {pairs : List (Bytes × Bytes)}
    (h : (pairs.map Prod.fst).Nodup) (n : Bytes) :
    ((Function.update redis.hashes name pairs n).map Prod.fst).Nodup := by
  by_cases hn : n = name
  · rw [hn, Function.update_self]
    exact h
  · rw [Function.update_of_ne hn]
    exact redis.nodup n

/-- `SET` replaces whatever the name holds. -/
def set (redis : Content) (name value : Bytes) : Content where
  strings := Function.update redis.strings name (some value)
  hashes := Function.update redis.hashes name []
  nodup := redis.nodup_update name List.nodup_nil

def del (redis : Content) (name : Bytes) : Content where
  strings := Function.update redis.strings name none
  hashes := Function.update redis.hashes name []
  nodup := redis.nodup_update name List.nodup_nil

/-- The hash without a field. -/
def without (pairs : List (Bytes × Bytes)) (field : Bytes) : List (Bytes × Bytes) :=
  pairs.filter fun p => p.1 ≠ field

theorem nodup_without {pairs : List (Bytes × Bytes)} (h : (pairs.map Prod.fst).Nodup)
    (field : Bytes) : ((without pairs field).map Prod.fst).Nodup :=
  h.sublist (List.filter_sublist.map Prod.fst)

theorem mem_without {pairs : List (Bytes × Bytes)} {field : Bytes} {p : Bytes × Bytes} :
    p ∈ without pairs field ↔ p ∈ pairs ∧ p.1 ≠ field := by
  simp [without]

theorem nodup_append_field {pairs : List (Bytes × Bytes)} (h : (pairs.map Prod.fst).Nodup)
    (field value : Bytes) :
    ((without pairs field ++ [(field, value)]).map Prod.fst).Nodup := by
  rw [List.map_append, List.nodup_append]
  refine ⟨nodup_without h field, by simp, ?_⟩
  intro f hf g hg
  obtain ⟨p, hp, rfl⟩ := List.mem_map.mp hf
  rw [List.map_singleton, List.mem_singleton] at hg
  rw [hg]
  exact (mem_without.mp hp).2

/-- `HSET` -/
def hset (redis : Content) (name field value : Bytes) : Content :=
  if (redis.strings name).isSome then redis
  else
    { redis with
      hashes := Function.update redis.hashes name
        (without (redis.hashes name) field ++ [(field, value)])
      nodup := redis.nodup_update name (nodup_append_field (redis.nodup name) field value) }

/-- `HDEL` of one field -/
def hdel (redis : Content) (name field : Bytes) : Content :=
  { redis with
    hashes := Function.update redis.hashes name (without (redis.hashes name) field)
    nodup := redis.nodup_update name (nodup_without (redis.nodup name) field) }

/-- A command that is given as its words; every other one changes nothing. -/
def execute (redis : Content) : List Bytes → Content
  | [command, name, field, value] =>
    if command = bytes "HSET" then redis.hset name field value else redis
  | [command, name, value] =>
    if command = bytes "SET" then redis.set name value
    else if command = bytes "HDEL" then redis.hdel name value
    else redis
  | [command, name] => if command = bytes "DEL" then redis.del name else redis
  | _ => redis

def pipeLine (redis : Content) (commands : List Bytes) : Content :=
  commands.foldl (fun redis command => redis.execute (words command)) redis

/-! ## What is found afterwards -/

theorem strings_set (redis : Content) (name value n : Bytes) :
    (redis.set name value).strings n = if n = name then some value else redis.strings n := by
  simp only [set, Function.update_apply]

theorem hashes_set_of_ne (redis : Content) {name value n : Bytes} (h : n ≠ name) :
    (redis.set name value).hashes n = redis.hashes n := by
  simp only [set, Function.update_of_ne h]

theorem strings_del (redis : Content) (name n : Bytes) :
    (redis.del name).strings n = if n = name then none else redis.strings n := by
  simp only [del, Function.update_apply]

theorem hashes_del_of_ne (redis : Content) {name n : Bytes} (h : n ≠ name) :
    (redis.del name).hashes n = redis.hashes n := by
  simp only [del, Function.update_of_ne h]

@[simp] theorem strings_hset (redis : Content) (name field value : Bytes) :
    (redis.hset name field value).strings = redis.strings := by
  unfold hset
  split <;> rfl

theorem mem_hashes_hset (redis : Content) {name field value : Bytes}
    (hname : redis.strings name = none) (n : Bytes) (p : Bytes × Bytes) :
    p ∈ (redis.hset name field value).hashes n ↔
      (n = name ∧ p = (field, value)) ∨
        (p ∈ redis.hashes n ∧ ¬ (n = name ∧ p.1 = field)) := by
  simp only [hset, hname, Option.isSome_none, Bool.false_eq_true, ↓reduceIte]
  by_cases hn : n = name
  · rw [hn, Function.update_self, List.mem_append, mem_without, List.mem_singleton]
    simp [or_comm]
  · rw [Function.update_of_ne hn]
    simp [hn]

@[simp] theorem strings_hdel (redis : Content) (name field : Bytes) :
    (redis.hdel name field).strings = redis.strings := rfl

theorem mem_hashes_hdel (redis : Content) (name field n : Bytes) (p : Bytes × Bytes) :
    p ∈ (redis.hdel name field).hashes n ↔
      p ∈ redis.hashes n ∧ ¬ (n = name ∧ p.1 = field) := by
  simp only [hdel]
  by_cases hn : n = name
  · rw [hn, Function.update_self, mem_without]
    simp
  · rw [Function.update_of_ne hn]
    simp [hn]

end Content

end Cppim.Redis
