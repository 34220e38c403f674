import Cppim.Redis.Service

/-! A server that keeps to the laws: a name can have a time at which it is removed with all
that it holds. `SET` and `DEL` take that time away, a hash keeps it as long as it has a field,
and `EXPIRE` sets it anew for a name that is still there. -/

namespace Cppim.Redis

open Cppim.Common Cppim.Lib

structure Expiring where
  content : Content
  /-- when a name is removed, if it is to be -/
  ends : Bytes → Option Nat
  /-- only a name that is there has a time -/
  held : ∀ name time, ends name = some time → content.Holds name

namespace Expiring

def empty : Expiring := ⟨.empty, fun _ => none, fun _ _ h => nomatch h⟩

/-- The time of the name has passed. -/
def Over (redis : Expiring) (now : Nat) (name : Bytes) : Prop :=
  ∃ time ∈ redis.ends name, time < now

instance (redis : Expiring) (now : Nat) (name : Bytes) : Decidable (redis.Over now name) :=
  inferInstanceAs (Decidable (∃ time ∈ redis.ends name, time < now))

theorem Over.mono {redis : Expiring} {now t : Nat} {name : Bytes} (h : redis.Over now name)
    (hle : now ≤ t) : redis.Over t name := by
  obtain ⟨time, hmem, hlt⟩ := h
  exact ⟨time, hmem, Nat.lt_of_lt_of_le hlt hle⟩

/-- What is found at a time. -/
def view (redis : Expiring) (now : Nat) : Content where
  strings := fun name => if redis.Over now name then none else redis.content.strings name
  hashes := fun name => if redis.Over now name then [] else redis.content.hashes name
  nodup := by
    intro name
    split
    · exact List.nodup_nil
    · exact redis.content.nodup name

/-- The argument of `EXPIRE`. -/
def seconds (arg : Bytes) : Nat := (atoi arg).toNat

/-- A name that is removed, or that a command has left with nothing, loses its time. -/
def kept (redis : Expiring) (now : Nat) (content : Content) (n : Bytes) : Option Nat :=
  if redis.Over now n ∨ ¬ content.Holds n then none else redis.ends n

/-- The times after a command that has left `content`. -/
def endsAfter (redis : Expiring) (now : Nat) (content : Content) (n : Bytes) :
    List Bytes → Option Nat
  | [verb, name, arg] =>
    if verb = bytes "EXPIRE" ∧ n = name ∧ content.Holds n then some (now + 1000 * seconds arg)
    else if verb = bytes "SET" ∧ n = name then none
    else redis.kept now content n
  | _ => redis.kept now content n

theorem holds_of_kept {redis : Expiring} {now : Nat} {content : Content} {n : Bytes} {time : Nat}
    (h : redis.kept now content n = some time) : content.Holds n := by
  unfold kept at h
  split at h
  · cases h
  · rename_i hnot
    exact not_not.mp (not_or.mp hnot).2

theorem holds_of_endsAfter {redis : Expiring} {now : Nat} {content : Content} {n : Bytes}
    {command : List Bytes} {time : Nat}
    (h : redis.endsAfter now content n command = some time) : content.Holds n := by
  unfold endsAfter at h
  split at h
  · split at h
    · rename_i hexpire
      exact hexpire.2.2
    · split at h
      · cases h
      · exact holds_of_kept h
  · exact holds_of_kept h

/-- A command at a time, as its words. -/
def execute (redis : Expiring) (now : Nat) (command : List Bytes) : Expiring where
  content := (redis.view now).execute command
  ends := fun n => redis.endsAfter now ((redis.view now).execute command) n command
  held := fun _ _ h => holds_of_endsAfter h

def service : Service := ⟨Expiring, empty, execute, view⟩

/-! ## The laws -/

theorem cell_view (redis : Expiring) (now : Nat) (name : Bytes) :
    (redis.view now).cell name =
      if redis.Over now name then (none, []) else redis.content.cell name := by
  simp only [Content.cell, view]
  split <;> rfl

/-- A name whose time is kept, and that has nothing after the command if it had nothing
before. -/
theorem cell_view_kept {redis redis' : Expiring} {now t : Nat} (hle : now ≤ t) {name : Bytes}
    (f : Option Bytes × List (Bytes × Bytes) → Option Bytes × List (Bytes × Bytes))
    (hf : f (none, []) = (none, []))
    (hcell : redis'.content.cell name = f ((redis.view now).cell name))
    (hends : redis'.ends name = redis.kept now redis'.content name) :
    (redis'.view t).cell name = f ((redis.view t).cell name) := by
  rw [cell_view, cell_view]
  by_cases hover : redis.Over now name
  · have hnone : redis'.content.cell name = (none, []) := by
      rw [hcell, cell_view, if_pos hover, hf]
    rw [if_pos (hover.mono hle), hf, hnone, ite_self]
  · rw [cell_view, if_neg hover] at hcell
    by_cases hholds : redis'.content.Holds name
    · have hsame : redis'.Over t name ↔ redis.Over t name := by
        rw [kept, if_neg (by simp [hover, hholds])] at hends
        simp only [Over, hends]
      simp only [hsame]
      split
      · exact hf.symm
      · exact hcell
    · have hnone : redis'.content.cell name = (none, []) := not_not.mp hholds
      rw [hnone, ite_self]
      split
      · exact hf.symm
      · exact hnone.symm.trans hcell

theorem execute_expire (redis : Content) (name arg : Bytes) :
    redis.execute [bytes "EXPIRE", name, arg] = redis := by
  have hexpire : bytes "EXPIRE" ≠ bytes "SET" ∧ bytes "EXPIRE" ≠ bytes "HDEL" := by decide
  simp [Content.execute, hexpire]

theorem seconds_formatInt {n : Nat} (h : n < 2 ^ 31) : seconds (formatInt (n : Nat)) = n := by
  have hdecimal : formatInt (n : Nat) = Decimal.decimal n := by simp [formatInt]
  rw [seconds, hdecimal, atoi_decimal h, Int.toNat_natCast]

/-- `EXPIRE` changes what a name holds only if its new time passes. -/
theorem cell_expire (redis : Expiring) {now t : Nat} (hle : now ≤ t) (name arg n : Bytes) :
    ((redis.execute now [bytes "EXPIRE", name, arg]).view t).cell n =
      if n = name then
        if t ≤ now + 1000 * seconds arg then (redis.view now).cell n else (none, [])
      else (redis.view t).cell n := by
  by_cases hn : n = name
  · subst hn
    have hcontent : (redis.execute now [bytes "EXPIRE", n, arg]).content = redis.view now :=
      execute_expire (redis.view now) n arg
    rw [if_pos rfl, cell_view, hcontent]
    by_cases hholds : (redis.view now).Holds n
    · have hover : (redis.execute now [bytes "EXPIRE", n, arg]).Over t n ↔
          ¬ t ≤ now + 1000 * seconds arg := by
        simp [Over, execute, execute_expire, endsAfter, hholds]
      simp only [hover]
      exact ite_not ..
    · rw [not_not.mp hholds, ite_self, ite_self]
  · rw [if_neg hn]
    refine cell_view_kept hle id rfl ?_ ?_
    · simp only [execute, execute_expire, id]
    · simp [execute, endsAfter, hn]

theorem cell_set (redis : Expiring) {now t : Nat} (hle : now ≤ t) (name value n : Bytes) :
    ((redis.execute now [bytes "SET", name, value]).view t).cell n =
      if n = name then (some value, []) else (redis.view t).cell n := by
  have hverb : bytes "SET" ≠ bytes "EXPIRE" := by decide
  have hcontent : (redis.execute now [bytes "SET", name, value]).content =
      (redis.view now).set name value := by
    simp [execute, Content.execute]
  by_cases hn : n = name
  · subst hn
    have hover : ¬ (redis.execute now [bytes "SET", n, value]).Over t n := by
      simp [Over, execute, endsAfter, hverb]
    rw [if_pos rfl, cell_view, if_neg hover, hcontent]
    simp [Content.cell, Content.set]
  · rw [if_neg hn]
    refine cell_view_kept hle id rfl ?_ ?_
    · rw [hcontent]
      simp [Content.cell, Content.strings_set, Content.hashes_set_of_ne, hn]
    · simp [execute, endsAfter, hverb, hn]

theorem cell_del (redis : Expiring) {now t : Nat} (hle : now ≤ t) (name n : Bytes) :
    ((redis.execute now [bytes "DEL", name]).view t).cell n =
      if n = name then (none, []) else (redis.view t).cell n := by
  have hcontent : (redis.execute now [bytes "DEL", name]).content =
      (redis.view now).del name := by
    simp [execute, Content.execute]
  by_cases hn : n = name
  · subst hn
    have hcell : ((redis.view now).del n).cell n = (none, []) := by
      simp [Content.cell, Content.del]
    rw [if_pos rfl, cell_view, hcontent, hcell, ite_self]
  · rw [if_neg hn]
    refine cell_view_kept hle id rfl ?_ rfl
    rw [hcontent]
    simp [Content.cell, Content.strings_del, Content.hashes_del_of_ne, hn]

theorem cell_hdel_eq (redis : Content) (name field n : Bytes) :
    (redis.hdel name field).cell n =
      if n = name then (redis.strings n, Content.without (redis.hashes n) field)
      else redis.cell n := by
  by_cases hn : n = name
  · simp [Content.cell, Content.hdel, hn]
  · simp [Content.cell, Content.hdel, hn]

/-- A hash that loses a field keeps its time, or is gone. -/
theorem cell_hdel (redis : Expiring) {now t : Nat} (hle : now ≤ t) (name field n : Bytes) :
    ((redis.execute now [bytes "HDEL", name, field]).view t).cell n =
      ((redis.view t).hdel name field).cell n := by
  have hverb : bytes "HDEL" ≠ bytes "EXPIRE" ∧ bytes "HDEL" ≠ bytes "SET" := by decide
  have hcontent : (redis.execute now [bytes "HDEL", name, field]).content =
      (redis.view now).hdel name field := by
    simp [execute, Content.execute, hverb]
  have hends : (redis.execute now [bytes "HDEL", name, field]).ends n =
      redis.kept now (redis.execute now [bytes "HDEL", name, field]).content n := by
    simp [execute, endsAfter, hverb]
  rw [cell_hdel_eq]
  by_cases hn : n = name
  · subst hn
    rw [if_pos rfl]
    refine cell_view_kept hle (fun c => (c.1, Content.without c.2 field)) rfl ?_ hends
    rw [hcontent, cell_hdel_eq, if_pos rfl]
    rfl
  · rw [if_neg hn]
    refine cell_view_kept hle id rfl ?_ hends
    rw [hcontent, cell_hdel_eq, if_neg hn]
    rfl

/-- What `HSET` makes of what the name holds. -/
def withField (field value : Bytes) :
    Option Bytes × List (Bytes × Bytes) → Option Bytes × List (Bytes × Bytes)
  | (none, pairs) => (none, Content.without pairs field ++ [(field, value)])
  | cell => cell

theorem cell_hset_eq (redis : Content) (name field value n : Bytes) :
    (redis.hset name field value).cell n =
      if n = name then withField field value (redis.cell n) else redis.cell n := by
  by_cases hname : redis.strings name = none
  · by_cases hn : n = name <;> simp [Content.cell, Content.hset, withField, hname, hn]
  · obtain ⟨old, hold⟩ := Option.ne_none_iff_exists'.mp hname
    rw [Content.hset, if_pos (by rw [hold]; rfl)]
    split
    · rename_i hn
      simp [Content.cell, withField, hn, hold]
    · rfl

/-- What is not there has no time, and does not come back. -/
theorem not_holds_later (redis : Expiring) {now t : Nat} (hle : now ≤ t) {n : Bytes}
    (h : ¬ (redis.view now).Holds n) : ¬ (redis.view t).Holds n := by
  have hnone : (redis.view now).cell n = (none, []) := not_not.mp h
  rw [cell_view] at hnone
  rw [Content.Holds, cell_view, not_not]
  split at hnone
  · rename_i hover
    rw [if_pos (hover.mono hle)]
  · rw [hnone, ite_self]

/-- A hash that gets a field keeps its time; a new one has none. -/
theorem cell_hset (redis : Expiring) {now t : Nat} (hle : now ≤ t) (name field value n : Bytes) :
    ((redis.execute now [bytes "HSET", name, field, value]).view t).cell n =
      if n = name ∧ (redis.view now).Holds name ∧ ¬ (redis.view t).Holds name then (none, [])
      else ((redis.view t).hset name field value).cell n := by
  have hcontent : (redis.execute now [bytes "HSET", name, field, value]).content =
      (redis.view now).hset name field value := by
    simp [execute, Content.execute]
  have hends : (redis.execute now [bytes "HSET", name, field, value]).ends n =
      redis.kept now (redis.execute now [bytes "HSET", name, field, value]).content n := rfl
  by_cases hn : n = name
  · subst hn
    have hnew : ((redis.view now).hset n field value).Holds n := by
      rw [Content.Holds, cell_hset_eq, if_pos rfl]
      cases hcell : (redis.view now).cell n with
      | mk string pairs => cases string <;> simp [withField]
    rw [cell_view, hcontent, cell_hset_eq, if_pos rfl, cell_hset_eq, if_pos rfl]
    rw [hcontent, kept] at hends
    by_cases hholds : (redis.view now).Holds n
    · -- the name is there, and keeps its time
      have hnow : ¬ redis.Over now n := fun hover =>
        hholds (by rw [cell_view, if_pos hover])
      rw [if_neg (by simp [hnow, hnew])] at hends
      have hover : (redis.execute now [bytes "HSET", n, field, value]).Over t n ↔
          redis.Over t n := by simp only [Over, hends]
      rw [if_congr hover rfl rfl]
      by_cases ht : redis.Over t n
      · have hgone : ¬ (redis.view t).Holds n := by
          rw [Content.Holds, cell_view, if_pos ht]
          simp
        rw [if_pos ht, if_pos ⟨rfl, hholds, hgone⟩]
      · have hsame : (redis.view t).cell n = (redis.view now).cell n := by
          rw [cell_view, cell_view, if_neg ht, if_neg hnow]
        have hstays : (redis.view t).Holds n := by
          rw [Content.Holds, hsame]
          exact hholds
        rw [if_neg ht, if_neg fun h => h.2.2 hstays, hsame]
    · -- the name is not there, and has no time
      have hnone : (redis.execute now [bytes "HSET", n, field, value]).ends n = none := by
        rw [hends]
        split
        · rfl
        · rename_i hkept
          by_contra hsome
          obtain ⟨time, htime⟩ := Option.ne_none_iff_exists'.mp hsome
          apply hholds
          rw [Content.Holds, cell_view, if_neg (not_or.mp hkept).1]
          exact redis.held n time htime
      have hover : ¬ (redis.execute now [bytes "HSET", n, field, value]).Over t n := by
        simp [Over, hnone]
      rw [if_neg hover, if_neg fun h => hholds h.2.1, not_not.mp hholds,
        not_not.mp (redis.not_holds_later hle hholds)]
  · rw [if_neg fun h => hn h.1, cell_hset_eq, if_neg hn]
    refine cell_view_kept hle id rfl ?_ hends
    rw [hcontent, cell_hset_eq, if_neg hn]
    rfl

theorem cell_hdelNone (redis : Expiring) {now t : Nat} (hle : now ≤ t) (name n : Bytes) :
    ((redis.execute now [bytes "HDEL", name]).view t).cell n = (redis.view t).cell n := by
  have hverb : bytes "HDEL" ≠ bytes "DEL" := by decide
  refine cell_view_kept hle id rfl ?_ rfl
  simp [execute, Content.execute, hverb]

theorem lawful : service.Lawful where
  empty := fun t n => by
    show (empty.view t).cell n = _
    rw [cell_view]
    exact ite_self _
  set := fun redis _ _ name value n hle => cell_set redis hle name value n
  del := fun redis _ _ name n hle => cell_del redis hle name n
  expire := fun redis now t name seconds n hle _ hlt => by
    refine (cell_expire redis hle name (formatInt (seconds : Nat)) n).trans ?_
    rw [seconds_formatInt hlt]
    rfl
  hset := fun redis _ _ name field value n hle => cell_hset redis hle name field value n
  hdel := fun redis _ _ name field n hle => cell_hdel redis hle name field n
  hdelNone := fun redis _ _ name n hle => cell_hdelNone redis hle name n

end Expiring

end Cppim.Redis
