import Mathlib.Data.List.Basic

/-! Cutting a list at the first occurrence of a pattern, the shape of
`std::find`, `std::search` and `std::string::find`. `cut pat xs` is the part
before the first occurrence of `pat` and the part behind it. -/

namespace Cppim.Lib.Cut

variable {α : Type} [DecidableEq α]

def cut (pat : List α) : List α → Option (List α × List α)
  | [] => if pat = [] then some ([], []) else none
  | x :: xs =>
    if pat <+: x :: xs then some ([], (x :: xs).drop pat.length)
    else (cut pat xs).map fun p => (x :: p.1, p.2)

theorem cut_at_front {pat xs : List α} (h : pat <+: xs) :
    cut pat xs = some ([], xs.drop pat.length) := by
  cases xs with
  | nil => simp [cut, List.prefix_nil.mp h]
  | cons x xs => simp [cut, h]

theorem cut_cons_of_not {pat : List α} {x : α} {xs : List α} (h : ¬ pat <+: x :: xs) :
    cut pat (x :: xs) = (cut pat xs).map fun p => (x :: p.1, p.2) := by
  simp [cut, h]

/-- A list with an element in front is cut at its front, or behind the element. -/
theorem cut_cons_cases {pat : List α} {x : α} {xs pre post : List α}
    (h : cut pat (x :: xs) = some (pre, post)) :
    pat <+: x :: xs ∧ pre = [] ∧ post = (x :: xs).drop pat.length ∨
    ¬ pat <+: x :: xs ∧ ∃ pre', pre = x :: pre' ∧ cut pat xs = some (pre', post) := by
  by_cases hp : pat <+: x :: xs
  · rw [cut_at_front hp] at h
    cases h
    exact Or.inl ⟨hp, rfl, rfl⟩
  · rw [cut_cons_of_not hp] at h
    obtain ⟨⟨pre', post'⟩, hcut, he⟩ := Option.map_eq_some_iff.mp h
    cases he
    exact Or.inr ⟨hp, pre', rfl, hcut⟩

theorem eq_nil_of_cut_nil {pat pre post : List α} (h : cut pat [] = some (pre, post)) :
    pat = [] ∧ pre = [] ∧ post = [] := by
  rw [cut] at h
  split at h
  · cases h
    exact ⟨‹_›, rfl, rfl⟩
  · cases h

/-- What is cut apart is the list itself. -/
theorem eq_of_cut {pat xs pre post : List α} (h : cut pat xs = some (pre, post)) :
    xs = pre ++ pat ++ post := by
  induction xs generalizing pre with
  | nil =>
    obtain ⟨rfl, rfl, rfl⟩ := eq_nil_of_cut_nil h
    rfl
  | cons x xs ih =>
    rcases cut_cons_cases h with ⟨⟨ys, hys⟩, rfl, rfl⟩ | ⟨-, pre', rfl, hcut⟩
    · simp [← hys]
    · simp [ih hcut]

/-- More input behind the list does not move the first occurrence. -/
theorem cut_append {pat xs pre post : List α} (h : cut pat xs = some (pre, post)) (ys : List α) :
    cut pat (xs ++ ys) = some (pre, post ++ ys) := by
  induction xs generalizing pre with
  | nil =>
    obtain ⟨rfl, rfl, rfl⟩ := eq_nil_of_cut_nil h
    exact cut_at_front (List.nil_prefix)
  | cons x xs ih =>
    rcases cut_cons_cases h with ⟨hp, rfl, rfl⟩ | ⟨hp, pre', rfl, hcut⟩
    · rw [cut_at_front (hp.trans (List.prefix_append _ _)),
        List.drop_append_of_le_length hp.length_le]
    · have hlen : pat.length ≤ (x :: xs).length := by
        rw [eq_of_cut hcut]
        simp
        omega
      have hp' : ¬ pat <+: x :: (xs ++ ys) := fun hc =>
        hp (List.prefix_of_prefix_length_le hc (List.prefix_append (x :: xs) ys) hlen)
      rw [List.cons_append, cut_cons_of_not hp', ih hcut]
      rfl

/-- Where there is no occurrence there is nothing to cut. -/
theorem cut_eq_none_iff {pat xs : List α} : cut pat xs = none ↔ ¬ pat <:+: xs := by
  induction xs with
  | nil => simp [cut]
  | cons x xs ih =>
    rw [List.infix_cons_iff, not_or]
    by_cases hp : pat <+: x :: xs
    · simp [cut_at_front hp, hp]
    · rw [cut_cons_of_not hp, Option.map_eq_none_iff, ih]
      simp [hp]

/-- An occurrence that only more input completes ends inside that input. -/
theorem cut_late {pat xs ys pre post : List α} (hnone : cut pat xs = none)
    (h : cut pat (xs ++ ys) = some (pre, post)) : post.length < ys.length := by
  by_contra hle
  have heq := eq_of_cut h
  have hsuffix : ys <:+ post :=
    List.suffix_of_suffix_length_le (heq ▸ List.suffix_append xs ys) (List.suffix_append _ post)
      (by omega)
  obtain ⟨mid, rfl⟩ := hsuffix
  rw [← List.append_assoc] at heq
  refine cut_eq_none_iff.mp hnone ⟨pre, mid, ?_⟩
  exact (List.append_cancel_right heq).symm

/-- A pattern of two elements behind a list without it. -/
theorem cut_pair {a b : α} (hab : a ≠ b) {xs : List α} (h : cut [a, b] xs = none) :
    cut [a, b] (xs ++ [a, b]) = some (xs, []) := by
  induction xs with
  | nil => exact cut_at_front (List.prefix_refl _)
  | cons x xs ih =>
    have hnot : ¬ [a, b] <+: x :: xs := by
      intro hc
      simp [cut_at_front hc] at h
    rw [cut_cons_of_not hnot, Option.map_eq_none_iff] at h
    have hlate : ¬ [a, b] <+: x :: (xs ++ [a, b]) := by
      intro hc
      cases xs with
      | nil => simp [hab.symm] at hc
      | cons y ys => exact hnot (by simpa using hc)
    rw [List.cons_append, cut_cons_of_not hlate, ih h]
    rfl

/-- A single element cuts exactly where it first occurs. -/
theorem cut_singleton {a : α} {pre post : List α} (h : a ∉ pre) :
    cut [a] (pre ++ a :: post) = some (pre, post) := by
  induction pre with
  | nil => exact cut_at_front (List.prefix_append [a] post)
  | cons x pre ih =>
    have hx : ¬ [a] <+: x :: (pre ++ a :: post) := by
      intro hc
      exact h (by simp [(List.cons_prefix_cons.mp hc).1])
    rw [List.cons_append, cut_cons_of_not hx, ih (fun hm => h (by simp [hm]))]
    rfl

theorem cut_singleton_iff {a : α} {xs pre post : List α} :
    cut [a] xs = some (pre, post) ↔ xs = pre ++ a :: post ∧ a ∉ pre := by
  constructor
  · intro h
    have hxs := eq_of_cut h
    have hmem : a ∈ xs := by simp [hxs]
    obtain ⟨pre', post', rfl, hpre⟩ := List.eq_append_cons_of_mem hmem
    rw [cut_singleton hpre] at h
    cases h
    exact ⟨rfl, hpre⟩
  · rintro ⟨rfl, hpre⟩
    exact cut_singleton hpre

theorem cut_singleton_eq_none {a : α} {xs : List α} : cut [a] xs = none ↔ a ∉ xs := by
  constructor
  · intro h hm
    obtain ⟨pre, post, rfl, hpre⟩ := List.eq_append_cons_of_mem hm
    simp [cut_singleton hpre] at h
  · intro h
    cases hc : cut [a] xs with
    | none => rfl
    | some p => exact absurd (by simp [eq_of_cut hc]) h

/-- The parts before and behind the last occurrence of an element, the shape of
`std::string::find_last_of`. -/
def cutLast (a : α) (xs : List α) : Option (List α × List α) :=
  (cut [a] xs.reverse).map fun p => (p.2.reverse, p.1.reverse)

theorem cutLast_of_not_mem {a : α} {pre post : List α} (h : a ∉ post) :
    cutLast a (pre ++ a :: post) = some (pre, post) := by
  have hrev : (pre ++ a :: post).reverse = post.reverse ++ a :: pre.reverse := by simp
  rw [cutLast, hrev, cut_singleton (by simpa using h)]
  simp

/-! ## Cutting at every occurrence

`List.splitOn` cuts everywhere; the library has the two round trips with
`List.intercalate`. -/

theorem splitOn_cons (a x : α) (xs : List α) : (x :: xs).splitOn a =
    if x = a then [] :: xs.splitOn a else (xs.splitOn a).modifyHead (x :: ·) := by
  rw [List.splitOn, List.splitOnP_cons_eq_if_modifyHead]
  by_cases h : x = a <;> simp [h, List.splitOn]

theorem exists_splitOn_eq_cons (a : α) (xs : List α) :
    ∃ first rest, xs.splitOn a = first :: rest :=
  List.exists_cons_of_ne_nil (List.splitOnP_ne_nil _ xs)

theorem not_mem_of_mem_splitOn {a : α} {xs piece : List α} (h : piece ∈ xs.splitOn a) :
    a ∉ piece := by
  induction xs generalizing piece with
  | nil =>
    obtain rfl : piece = [] := by simpa [List.splitOn] using h
    exact List.not_mem_nil
  | cons x xs ih =>
    obtain ⟨first, rest, hsplit⟩ := exists_splitOn_eq_cons a xs
    rw [splitOn_cons, hsplit] at h
    rw [hsplit] at ih
    by_cases hx : x = a
    · rw [if_pos hx] at h
      rcases List.mem_cons.mp h with rfl | h
      · exact List.not_mem_nil
      · exact ih h
    · rw [if_neg hx, List.modifyHead_cons] at h
      rcases List.mem_cons.mp h with rfl | h
      · rw [List.mem_cons, not_or]
        exact ⟨Ne.symm hx, ih List.mem_cons_self⟩
      · exact ih (List.mem_cons_of_mem _ h)

theorem length_splitOn (a : α) (xs : List α) : (xs.splitOn a).length = 1 + xs.count a := by
  induction xs with
  | nil => rfl
  | cons x xs ih =>
    rw [splitOn_cons]
    by_cases hx : x = a
    · rw [if_pos hx, List.length_cons, ih, hx, List.count_cons_self]
      omega
    · rw [if_neg hx, List.length_modifyHead, ih, List.count_cons_of_ne hx]

end Cppim.Lib.Cut
