import Mathlib.Data.List.Perm.Basic

/-! A list and the images of its elements under a partial function, paired by
position. Elements without an image leave a gap, so that the pairs are right only
if all of these stand at the end (`Leading`). Pairs that are sorted by their first
component lose nothing (`flatMap_filter_perm`). -/

namespace Cppim.Lib.Pairing

variable {α β : Type} (f : α → Option β)

/-- The elements with their images. -/
def paired (xs : List α) : List (β × α) := xs.filterMap fun x => (f x).map fun y => (y, x)

/-- No element without an image stands in front of one that has one. -/
def Leading (xs : List α) : Prop := xs.Pairwise fun a b => (f b).isSome → (f a).isSome

variable {f}

theorem Leading.zip_eq {xs : List α} (h : Leading f xs) :
    (xs.filterMap f).zip xs = paired f xs := by
  induction xs with
  | nil => rfl
  | cons x xs ih =>
    obtain ⟨hx, hxs⟩ := List.pairwise_cons.mp h
    cases hf : f x with
    | some y => simp [paired, hf, ih hxs]
    | none =>
      -- everything behind `x` has no image either
      have hnone : ∀ b ∈ xs, f b = none := by
        intro b hb
        simpa [hf] using hx b hb
      have hmap : xs.filterMap f = [] := List.filterMap_eq_nil_iff.mpr hnone
      have hpaired : paired f xs = [] := by
        refine List.filterMap_eq_nil_iff.mpr fun b hb => ?_
        simp [hnone b hb]
      simp [hf, hmap, paired] at hpaired ⊢
      exact hpaired

/-- If only elements with an image are paired, they all stand in front. -/
theorem leading_of_zip {xs : List α} (h : ∀ p ∈ (xs.filterMap f).zip xs, (f p.2).isSome) :
    Leading f xs := by
  induction xs with
  | nil => exact .nil
  | cons x xs ih =>
    cases hf : f x with
    | some y =>
      simp only [List.filterMap_cons, hf, List.zip_cons_cons, List.forall_mem_cons] at h
      exact List.pairwise_cons.mpr ⟨fun b _ _ => by simp [hf], ih h.2⟩
    | none =>
      cases hmap : xs.filterMap f with
      | cons b bs =>
        have hmem : (b, x) ∈ ((x :: xs).filterMap f).zip (x :: xs) := by simp [hf, hmap]
        simpa [hf] using h _ hmem
      | nil =>
        have hnone := List.filterMap_eq_nil_iff.mp hmap
        refine List.pairwise_cons.mpr ⟨fun b hb hsome => ?_, ih (by simp [hmap])⟩
        simp [hnone b hb] at hsome

theorem map_snd_filter_paired [DecidableEq β] (xs : List α) (y : β) :
    ((paired f xs).filter (·.1 = y)).map Prod.snd = xs.filter (f · = some y) := by
  induction xs with
  | nil => rfl
  | cons x xs ih =>
    cases hf : f x with
    | none => simpa [paired, hf] using ih
    | some z =>
      by_cases hz : z = y
      · simpa [paired, hf, hz] using ih
      · simpa [paired, hf, hz] using ih

theorem map_snd_paired (xs : List α) (h : ∀ x ∈ xs, (f x).isSome) :
    (paired f xs).map Prod.snd = xs := by
  induction xs with
  | nil => rfl
  | cons x xs ih =>
    obtain ⟨y, hy⟩ := Option.isSome_iff_exists.mp (h x (by simp))
    have hrest := ih fun x hx => h x (by simp [hx])
    simpa [paired, hy] using hrest

/-- Pairs, taken name by name, are the same pairs in some order. -/
theorem flatMap_filter_perm [DecidableEq β] {ks : List β} {ps : List (β × α)}
    (hnodup : ks.Nodup) (hall : ∀ p ∈ ps, p.1 ∈ ks) :
    (ks.flatMap fun k => ps.filter (·.1 = k)).Perm ps := by
  induction ks generalizing ps with
  | nil =>
    have hnil : ps = [] := List.eq_nil_iff_forall_not_mem.mpr fun p hp => by simpa using hall p hp
    simp [hnil]
  | cons k ks ih =>
    obtain ⟨hk, hks⟩ := List.nodup_cons.mp hnodup
    -- the pairs with another name than `k`
    have hrest : (ks.flatMap fun k' => ps.filter (·.1 = k')).Perm
        (ps.filter fun p => !decide (p.1 = k)) := by
      have hsame : ∀ k' ∈ ks, ps.filter (·.1 = k') =
          (ps.filter fun p => !decide (p.1 = k)).filter (·.1 = k') := by
        intro k' hk'
        rw [List.filter_filter]
        refine List.filter_congr fun p _ => ?_
        by_cases hp : p.1 = k'
        · have hne : k' ≠ k := fun h => hk (h ▸ hk')
          simp [hp, hne]
        · simp [hp]
      rw [List.flatMap_congr hsame]
      refine ih hks fun p hp => ?_
      obtain ⟨hmem, hne⟩ := List.mem_filter.mp hp
      exact (List.mem_cons.mp (hall p hmem)).resolve_left (by simpa using hne)
    rw [List.flatMap_cons]
    exact (hrest.append_left _).trans (List.filter_append_perm _ ps)

end Cppim.Lib.Pairing
