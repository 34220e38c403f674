import Cppim.Common.Basic
import Cppim.Lib.Cut

/-! `common/util.hpp`. -/

namespace Cppim.Common

open Cppim.Lib

/-- One turn of the loop of `split`: the tokens so far and the one in progress. -/
def splitStep (sep : Bytes) (p : List Bytes × Bytes) (ch : UInt8) : List Bytes × Bytes :=
  if ch ∈ sep then (p.1 ++ [p.2], []) else (p.1, p.2 ++ [ch])

def split (src sep : Bytes) : List Bytes :=
  let p := src.foldl (splitStep sep) ([], [])
  if p.2 ≠ [] ∨ p.1 ≠ [] then p.1 ++ [p.2] else p.1

theorem foldl_splitStep_empty_iff (sep src : Bytes) (p : List Bytes × Bytes) :
    src.foldl (splitStep sep) p = ([], []) ↔ src = [] ∧ p = ([], []) := by
  induction src generalizing p with
  | nil => simp
  | cons ch src ih =>
    rw [List.foldl_cons, ih]
    simp only [splitStep]
    split <;> simp

theorem split_eq_nil_iff (src sep : Bytes) : split src sep = [] ↔ src = [] := by
  have hempty := foldl_splitStep_empty_iff sep src ([], [])
  rw [Prod.ext_iff] at hempty
  simp only [and_true] at hempty
  rw [← hempty, split]
  split <;> rename_i h
  · simp only [List.append_eq_nil_iff, List.cons_ne_nil, and_false, false_iff, not_and]
    intro h₁ h₂
    simp [h₁, h₂] at h
  · simp only [not_or, not_not] at h
    simp [h]

/-- The loop has cut the text at the separators; what it holds stands in front. -/
theorem foldl_splitStep_eq (sep src : Bytes) (tokens : List Bytes) (s : Bytes) :
    (src.foldl (splitStep sep) (tokens, s)).1 ++ [(src.foldl (splitStep sep) (tokens, s)).2] =
      tokens ++ (src.splitOnP (· ∈ sep)).modifyHead (s ++ ·) := by
  induction src generalizing tokens s with
  | nil => simp
  | cons ch src ih =>
    obtain ⟨first, rest, hsplit⟩ :=
      List.exists_cons_of_ne_nil (List.splitOnP_ne_nil (· ∈ sep) src)
    rw [List.foldl_cons, List.splitOnP_cons_eq_if_modifyHead]
    by_cases hch : ch ∈ sep
    · simp [splitStep, hch, ih, hsplit]
    · simp [splitStep, hch, ih, hsplit]

/-- `split` cuts at the separators, except that it makes no token of an empty text. -/
theorem split_eq (src sep : Bytes) :
    split src sep = if src = [] then [] else src.splitOnP (· ∈ sep) := by
  by_cases h : src = []
  · rw [if_pos h, split_eq_nil_iff]
    exact h
  · have hcond : (src.foldl (splitStep sep) ([], [])).2 ≠ [] ∨
        (src.foldl (splitStep sep) ([], [])).1 ≠ [] := by
      by_contra hno
      simp only [not_or, not_not] at hno
      exact h ((foldl_splitStep_empty_iff sep src ([], [])).mp (Prod.ext hno.2 hno.1)).1
    obtain ⟨first, rest, hsplit⟩ :=
      List.exists_cons_of_ne_nil (List.splitOnP_ne_nil (· ∈ sep) src)
    simp only [split, hcond, h, ↓reduceIte, foldl_splitStep_eq, hsplit, List.modifyHead_cons,
      List.nil_append]

/-! ## One separator -/

theorem split_singleton (src : Bytes) (c : UInt8) :
    split src [c] = if src = [] then [] else src.splitOn c := by
  have hsep : (fun x : UInt8 => decide (x ∈ [c])) = (· == c) := by
    funext x
    simp
    rfl
  rw [split_eq, List.splitOn, hsep]

/-- Only a list of nothing and a list of one empty text are joined to an empty text. -/
theorem intercalate_eq_nil {c : UInt8} {tokens : List Bytes}
    (h : [c].intercalate tokens = []) : tokens = [] ∨ tokens = [[]] := by
  cases tokens with
  | nil => exact Or.inl rfl
  | cons token rest =>
    cases rest with
    | nil =>
      rw [List.intercalate_singleton] at h
      exact Or.inr (by rw [h])
    | cons token' rest =>
      rw [List.intercalate_cons_cons] at h
      simp at h

/-- **`split` and joining undo each other.** The tokens of a text hold no separator, there is
one more of them than separators, and joined they are the text again; an empty text has
none. Texts without a separator that are joined come apart again, unless there are none of
them or one that is empty. -/
theorem split_join (c : UInt8) :
    (∀ src, (∀ token ∈ split src [c], c ∉ token) ∧ (split src [c] = [] ↔ src = []) ∧
      (src ≠ [] → (split src [c]).length = 1 + src.count c ∧
        [c].intercalate (split src [c]) = src)) ∧
    ∀ tokens : List Bytes, tokens ≠ [] → tokens ≠ [[]] → (∀ token ∈ tokens, c ∉ token) →
      split ([c].intercalate tokens) [c] = tokens := by
  constructor
  · intro src
    refine ⟨fun token htoken => ?_, split_eq_nil_iff src [c], fun hsrc => ?_⟩
    · rw [split_singleton] at htoken
      split at htoken
      · cases htoken
      · exact Cut.not_mem_of_mem_splitOn htoken
    · rw [split_singleton, if_neg hsrc]
      exact ⟨Cut.length_splitOn c src, List.intercalate_splitOn c⟩
  · intro tokens hne hempty hfree
    have hsrc : [c].intercalate tokens ≠ [] := fun h =>
      (intercalate_eq_nil h).elim hne hempty
    rw [split_singleton, if_neg hsrc]
    exact List.splitOn_intercalate c hfree hne

example : split (bytes ",a,,b,") (bytes ",") =
    [[], bytes "a", [], bytes "b", []] := by decide

end Cppim.Common
