import Mathlib.Algebra.Group.Nat.Defs
import Mathlib.Data.List.Basic
import Mathlib.Data.List.Perm.Basic

/-! What every component shares: bytes for `char`, the ways a C++ call can fail
to return, and `std::map` keyed by byte strings. -/

namespace Cppim.Common

/-- `char` and `uint8_t`; a `std::string` is a list of them. -/
abbrev Bytes := List UInt8

/-- The bytes of an ASCII literal. -/
def bytes (s : String) : Bytes := s.toList.map fun c => UInt8.ofNat c.toNat

/-- Ways in which a call does not return to its caller. -/
inductive Fault where
  /-- an `assert` is false -/
  | assertion
  /-- `std::length_error` from building a `std::string` -/
  | lengthError
  /-- `std::invalid_argument` from `std::stoi` -/
  | invalidArgument
  /-- `std::out_of_range` from `std::stoi` -/
  | outOfRange
  /-- a past-the-end iterator is dereferenced -/
  | endIterator
  /-- memory past the end of a container is read -/
  | invalidRead
  /-- a deleted object is used -/
  | useAfterFree
  deriving Repr, DecidableEq

@[simp] theorem ok_bind {α β : Type} (a : α) (f : α → Except Fault β) :
    (Except.ok a >>= f) = f a := rfl

@[simp] theorem error_bind {α β : Type} (e : Fault) (f : α → Except Fault β) :
    (Except.error e >>= f) = .error e := rfl

@[simp] theorem pure_eq_ok {α : Type} (a : α) : (pure a : Except Fault α) = .ok a := rfl

/-- `assert(p)` -/
def assert (p : Prop) [Decidable p] : Except Fault Unit :=
  if p then .ok () else .error .assertion

@[simp] theorem assert_of (p : Prop) [Decidable p] (h : p) : assert p = .ok () := by
  simp [assert, h]

/-- `std::string(p, n)`, reading `n` bytes of the memory at `p`; a length above
`max_size()` throws. -/
def makeString (mem : Bytes) (n : Nat) : Except Fault Bytes :=
  if n < 2 ^ 63 then .ok (mem.take n) else .error .lengthError

/-- The `n` bytes of a container that start at the front of what is left of it. -/
def slice (mem : Bytes) (n : Nat) : Except Fault Bytes :=
  if n ≤ mem.length then .ok (mem.take n) else .error .invalidRead

/-- A loop that can fault, on elements that do not make it fault. -/
theorem mapM_ok {α β : Type} (f : α → Except Fault β) (g : α → β) (xs : List α)
    (h : ∀ x ∈ xs, f x = .ok (g x)) : xs.mapM f = .ok (xs.map g) := by
  induction xs with
  | nil => rfl
  | cons x xs ih =>
    rw [List.mapM_cons, h x (by simp), ih fun y hy => h y (by simp [hy])]
    rfl

/-- A loop that can fault goes through all elements or stops at the first that does. -/
theorem mapM_cases {ε α β : Type} (f : α → Except ε β) (xs : List α) :
    (∃ ys, xs.mapM f = .ok ys ∧ ∀ y, y ∈ ys ↔ ∃ x ∈ xs, f x = .ok y) ∧
      (∀ x ∈ xs, ∃ y, f x = .ok y) ∨
    (∃ e, xs.mapM f = .error e) ∧ ¬ ∀ x ∈ xs, ∃ y, f x = .ok y := by
  induction xs with
  | nil => exact Or.inl ⟨⟨[], rfl, by simp⟩, by simp⟩
  | cons x xs ih =>
    rw [List.mapM_cons]
    cases hx : f x with
    | error e => exact Or.inr ⟨⟨e, rfl⟩, fun h => by simpa [hx] using h x (by simp)⟩
    | ok y =>
      rcases ih with ⟨⟨ys, hys, hmem⟩, hall⟩ | ⟨⟨e, he⟩, hnot⟩
      · refine Or.inl ⟨⟨y :: ys, by rw [hys]; rfl, fun z => ?_⟩, ?_⟩
        · simp [hmem, hx, eq_comm]
        · simpa [hx] using hall
      · exact Or.inr ⟨⟨e, by rw [he]; rfl⟩, fun h => hnot fun z hz => h z (by simp [hz])⟩

/-- Changing an element without changing its image. -/
theorem map_set_of_eq {α β : Type} {f : α → β} {xs : List α} {i : Nat} {x y : α}
    (h : xs[i]? = some x) (hf : f y = f x) : (xs.set i y).map f = xs.map f := by
  obtain ⟨hi, rfl⟩ := List.getElem?_eq_some_iff.mp h
  rw [List.map_set, hf]
  apply List.ext_getElem?
  intro j
  by_cases hj : i = j
  · subst hj
    simp [hi]
  · rw [List.getElem?_set_ne hj]

/-- An element is the one that is taken out, or it stays. -/
theorem mem_eraseIdx_or_eq {α : Type} {xs : List α} {i : Nat} {x y : α} (h : xs[i]? = some x)
    (hy : y ∈ xs) : y ∈ xs.eraseIdx i ∨ y = x := by
  obtain ⟨hlt, rfl⟩ := List.getElem?_eq_some_iff.mp h
  exact (List.mem_cons.mp ((List.getElem_cons_eraseIdx_perm hlt).mem_iff.mpr hy)).symm

/-- Values that have no duplicates come from one place each. -/
theorem eq_of_nodup_filterMap {α β : Type} {f : α → Option β} {xs : List α} {i j : Nat} {a b : α}
    {y : β} (h : (xs.filterMap f).Nodup) (hi : xs[i]? = some a) (hj : xs[j]? = some b)
    (ha : f a = some y) (hb : f b = some y) : i = j := by
  have hne := List.pairwise_iff_getElem.mp (List.pairwise_filterMap.mp h)
  obtain ⟨hilt, rfl⟩ := List.getElem?_eq_some_iff.mp hi
  obtain ⟨hjlt, rfl⟩ := List.getElem?_eq_some_iff.mp hj
  rcases Nat.lt_trichotomy i j with hlt | heq | hlt
  · exact absurd rfl (hne i j hilt hjlt hlt y ha y hb)
  · exact heq
  · exact absurd rfl (hne j i hjlt hilt hlt y hb y ha)

/-! ## Lengths in an `int32_t` -/

theorem toInt_ofNat_of_lt (n : Nat) (h : n < 2 ^ 31) : (BitVec.ofNat 32 n).toInt = n := by
  rw [BitVec.toInt_eq_toNat_of_lt] <;> simp <;> omega

/-- An `int32_t` that holds a length keeps it when it becomes a `size_t`. -/
theorem signExtend_ofNat_of_lt (n : Nat) (h : n < 2 ^ 31) :
    ((BitVec.ofNat 32 n).signExtend 64).toNat = n := by
  have hmsb : (BitVec.ofNat 32 n).msb = false := by
    rw [BitVec.msb_eq_decide]
    simp
    omega
  rw [BitVec.signExtend_eq_setWidth_of_msb_false hmsb]
  simp
  omega

/-- `std::map<std::string, std::string>`: sorted by key, one value a key. -/
abbrev StringMap := Std.ExtTreeMap Bytes Bytes

instance : DecidableEq StringMap := inferInstance

/-- Inserting pairs of different keys makes the map of these pairs. -/
theorem getElem?_foldl_insertIfNew (pairs : List (Bytes × Bytes))
    (hnodup : (pairs.map Prod.fst).Nodup) (m : StringMap) (hm : ∀ p ∈ pairs, p.1 ∉ m)
    (field value : Bytes) :
    (pairs.foldl (fun m p => m.insertIfNew p.1 p.2) m)[field]? = some value ↔
      (field, value) ∈ pairs ∨ m[field]? = some value := by
  induction pairs generalizing m with
  | nil => simp
  | cons p pairs ih =>
    rw [List.map_cons, List.nodup_cons] at hnodup
    have hp : p.1 ∉ m := hm p (by simp)
    have hrest : ∀ q ∈ pairs, q.1 ∉ m.insertIfNew p.1 p.2 := by
      intro q hq hmem
      rw [Std.ExtTreeMap.mem_insertIfNew, Std.LawfulEqCmp.compare_eq_iff_eq] at hmem
      rcases hmem with heq | hmem
      · exact hnodup.1 (List.mem_map.mpr ⟨q, hq, heq.symm⟩)
      · exact hm q (by simp [hq]) hmem
    rw [List.foldl_cons, ih hnodup.2 _ hrest, Std.ExtTreeMap.getElem?_insertIfNew]
    by_cases hk : p.1 = field
    · subst hk
      have hnot : ∀ v, (p.1, v) ∉ pairs := fun v hv =>
        hnodup.1 (List.mem_map.mpr ⟨_, hv, rfl⟩)
      simp [hp, hnot, Prod.ext_iff, eq_comm]
    · have hne : (field, value) ≠ p := fun h => hk (by rw [← h])
      simp [hk, hne]

/-- Inserting pairs of different keys overwrites what was there. -/
theorem getElem?_foldl_insert (pairs : List (Bytes × Bytes)) (hnodup : (pairs.map Prod.fst).Nodup)
    (m : StringMap) (key value : Bytes) :
    (pairs.foldl (fun m elem => m.insert elem.1 elem.2) m)[key]? = some value ↔
      (key, value) ∈ pairs ∨ key ∉ pairs.map Prod.fst ∧ m[key]? = some value := by
  induction pairs generalizing m with
  | nil => simp
  | cons p pairs ih =>
    rw [List.map_cons, List.nodup_cons] at hnodup
    rw [List.foldl_cons, ih hnodup.2, Std.ExtTreeMap.getElem?_insert]
    by_cases hk : p.1 = key
    · subst hk
      have hnot : ∀ v, (p.1, v) ∉ pairs := fun v hv =>
        hnodup.1 (List.mem_map.mpr ⟨_, hv, rfl⟩)
      simp only [List.mem_cons, Prod.ext_iff, hnot, hnodup.1]
      simp [eq_comm]
    · have hne : (key, value) ≠ p := fun h => hk (by rw [← h])
      simp [hk, hne, Ne.symm hk]

end Cppim.Common
