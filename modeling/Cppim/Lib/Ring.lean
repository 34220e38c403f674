import Mathlib.Data.Nat.ModEq

/-! Rings: a list of cells in which a queue is stored from some cell on, and goes on at the
first cell behind the last one. -/

namespace Cppim.Lib.Ring

variable {α : Type}

/-- The cell `i` places behind `head`. -/
def index (n head i : Nat) : Nat := (head + i) % n

theorem index_lt {n : Nat} (hn : 0 < n) (head i : Nat) : index n head i < n :=
  Nat.mod_lt _ hn

theorem index_zero {n head : Nat} (h : head < n) : index n head 0 = head :=
  Nat.mod_eq_of_lt h

theorem index_index (n head i j : Nat) : index n (index n head i) j = index n head (i + j) := by
  rw [index, index, index, Nat.mod_add_mod, Nat.add_assoc]

/-- Less than a round apart, two places are the same cell only if they are the same. -/
theorem index_inj {n head i j : Nat} (hi : i < n) (hj : j < n) :
    index n head i = index n head j ↔ i = j := by
  constructor
  · intro h
    have hmod : (head + i) ≡ (head + j) [MOD n] := h
    have hij := Nat.ModEq.add_left_cancel' head hmod
    rwa [Nat.ModEq, Nat.mod_eq_of_lt hi, Nat.mod_eq_of_lt hj] at hij
  · rintro rfl
    rfl

/-- The queue of `count` elements that begins at `head`. -/
def queue (cells : List α) (head : Nat) : Nat → List α
  | 0 => []
  | count + 1 => (cells[head]?).toList ++ queue cells (index cells.length head 1) count

theorem length_queue (cells : List α) (head count : Nat) (h : head < cells.length) :
    (queue cells head count).length = count := by
  induction count generalizing head with
  | zero => rfl
  | succ count ih =>
    have hpos : 0 < cells.length := Nat.zero_lt_of_lt h
    simp [queue, h, ih _ (index_lt hpos head 1)]

/-- An element more at the end. -/
theorem queue_succ (cells : List α) (head count : Nat) (h : head < cells.length) :
    queue cells head (count + 1) =
      queue cells head count ++ (cells[index cells.length head count]?).toList := by
  induction count generalizing head with
  | zero => simp [queue, index_zero h]
  | succ count ih =>
    have hpos : 0 < cells.length := Nat.zero_lt_of_lt h
    rw [queue, ih _ (index_lt hpos head 1), index_index, Nat.add_comm 1 count, ← List.append_assoc]
    rfl

/-- A cell behind the queue is free. -/
theorem queue_set (cells : List α) (head count i : Nat) (x : α) (h : head < cells.length)
    (hle : count ≤ i) (hi : i < cells.length) :
    queue (cells.set (index cells.length head i) x) head count = queue cells head count := by
  induction count generalizing head i with
  | zero => rfl
  | succ count ih =>
    have hpos : 0 < cells.length := Nat.zero_lt_of_lt h
    obtain ⟨k, rfl⟩ : ∃ k, i = 1 + k := ⟨i - 1, by omega⟩
    have hne : index cells.length head (1 + k) ≠ head := by
      intro heq
      have hzero := (index_inj hi hpos).mp (heq.trans (index_zero h).symm)
      omega
    rw [queue, queue, List.length_set, List.getElem?_set_ne hne, ← index_index,
      ih (index cells.length head 1) k (index_lt hpos head 1) (by omega) (by omega)]

end Cppim.Lib.Ring
