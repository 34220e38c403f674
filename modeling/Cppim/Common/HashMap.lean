import Cppim.Common.Basic
import Cppim.Lib.Pairing
import Mathlib.Data.List.Induction
import Mathlib.Data.List.Nodup

/-! `std::unordered_map` keyed by strings. The content is a map; the order in
which a loop over it visits the elements is the library's choice and a parameter
here (`HashOrder`). -/

namespace Cppim.Common

abbrev HashMap (β : Type) := Std.ExtTreeMap Bytes β

/-- An order in which the keys of a hash map are visited. -/
structure HashOrder where
  visit : List Bytes → List Bytes
  perm : ∀ ks, (visit ks).Perm ks

namespace HashOrder

/-- The elements that a range-based `for` goes through. -/
def elements {β : Type} (order : HashOrder) (m : HashMap β) : List (Bytes × β) :=
  (order.visit m.keys).filterMap fun k => m[k]?.map fun v => (k, v)

theorem mem_elements {β : Type} (order : HashOrder) (m : HashMap β) (k : Bytes) (v : β) :
    (k, v) ∈ order.elements m ↔ m[k]? = some v := by
  simp only [elements, List.mem_filterMap, (order.perm m.keys).mem_iff, Option.map_eq_some_iff,
    Prod.mk.injEq, Std.ExtTreeMap.mem_keys]
  constructor
  · rintro ⟨k', -, v', hv, rfl, rfl⟩
    exact hv
  · intro hv
    have hk : k ∈ m := Std.ExtTreeMap.mem_iff_isSome_getElem?.mpr (by rw [hv]; rfl)
    exact ⟨k, hk, v, hv, rfl, rfl⟩

/-- No key is visited twice. -/
theorem nodup_elements {β : Type} (order : HashOrder) (m : HashMap β) :
    ((order.elements m).map Prod.fst).Nodup := by
  have hnodup : (order.visit m.keys).Nodup := (order.perm m.keys).nodup_iff.mpr m.nodup_keys
  rw [elements, List.map_filterMap]
  refine List.Nodup.filterMap (fun a a' b hb hb' => ?_) hnodup
  simp only [Option.map_map, Option.mem_def, Option.map_eq_some_iff, Function.comp] at hb hb'
  obtain ⟨_, _, rfl⟩ := hb
  obtain ⟨_, _, rfl⟩ := hb'
  rfl

theorem elements_eq_nil_iff {β : Type} (order : HashOrder) (m : HashMap β) :
    order.elements m = [] ↔ m = ∅ := by
  constructor
  · intro h
    apply Std.ExtTreeMap.ext_getElem?
    intro k
    cases hv : m[k]? with
    | none => simp
    | some v =>
      have hmem := (order.mem_elements m k v).mpr hv
      simp [h] at hmem
  · rintro rfl
    simp [elements]

/-- The order of the keys themselves. -/
def sorted : HashOrder := ⟨id, fun _ => .refl _⟩

end HashOrder

/-- `m[key].push_back(x)` -/
def pushBack (m : HashMap (List Bytes)) (key x : Bytes) : HashMap (List Bytes) :=
  m.insert key ((m[key]?).getD [] ++ [x])

/-- The lists that `m[key].push_back(x)` builds from pairs of a key and an `x`. -/
def group (pairs : List (Bytes × Bytes)) : HashMap (List Bytes) :=
  pairs.foldl (fun m p => pushBack m p.1 p.2) ∅

/-- The list under a key: the elements paired with it, in order. -/
theorem getElem?_group (pairs : List (Bytes × Bytes)) (key : Bytes) :
    (group pairs)[key]? =
      if key ∈ pairs.map Prod.fst then some ((pairs.filter (·.1 = key)).map Prod.snd)
      else none := by
  induction pairs using List.reverseRecOn with
  | nil => simp [group]
  | append_singleton pairs p ih =>
    have hstep : group (pairs ++ [p]) = pushBack (group pairs) p.1 p.2 := by
      simp [group]
    rw [hstep, pushBack, Std.ExtTreeMap.getElem?_insert]
    by_cases hk : p.1 = key
    · subst hk
      by_cases hm : p.1 ∈ pairs.map Prod.fst
      · simp only [ih, hm, ↓reduceIte, Option.getD_some]
        simp
      · have hnone : pairs.filter (·.1 = p.1) = [] := by
          rw [List.filter_eq_nil_iff]
          intro q hq hqp
          exact hm (List.mem_map.mpr ⟨q, hq, by simpa using hqp⟩)
        simp only [ih, hm, ↓reduceIte, Option.getD_none]
        simp [hnone]
    · have hmem : key ∈ (pairs ++ [p]).map Prod.fst ↔ key ∈ pairs.map Prod.fst := by
        simp only [List.map_append, List.map_cons, List.map_nil, List.mem_append,
          List.mem_singleton, or_iff_left_iff_imp]
        exact fun h => absurd h.symm hk
      simp only [hmem]
      simp [ih, hk]

theorem group_ne_nil {pairs : List (Bytes × Bytes)} {key : Bytes} {xs : List Bytes}
    (h : (group pairs)[key]? = some xs) : xs ≠ [] := by
  rw [getElem?_group] at h
  split at h
  · rename_i hm
    obtain ⟨p, hp, rfl⟩ := List.mem_map.mp hm
    cases h
    simp only [ne_eq, List.map_eq_nil_iff, List.filter_eq_nil_iff, not_forall]
    exact ⟨p, hp, by simp⟩
  · cases h

theorem group_eq_empty_iff (pairs : List (Bytes × Bytes)) : group pairs = ∅ ↔ pairs = [] := by
  constructor
  · intro h
    cases pairs with
    | nil => rfl
    | cons p pairs =>
      have hp := getElem?_group (p :: pairs) p.1
      simp [h] at hp
  · rintro rfl
    rfl

/-! ## Visiting a grouped list -/

/-- What is visited under a key is what was paired with it. -/
theorem keys_of_elements {order : HashOrder} {pairs : List (Bytes × Bytes)}
    {elem : Bytes × List Bytes} (h : elem ∈ order.elements (group pairs)) :
    elem.2 = (pairs.filter (·.1 = elem.1)).map Prod.snd := by
  have hget := (order.mem_elements _ elem.1 elem.2).mp h
  rw [getElem?_group] at hget
  split at hget
  · exact (Option.some.inj hget).symm
  · cases hget

/-- A key that something is paired with is visited. -/
theorem exists_element (order : HashOrder) {pairs : List (Bytes × Bytes)} {p : Bytes × Bytes}
    (h : p ∈ pairs) : ∃ elem ∈ order.elements (group pairs), elem.1 = p.1 ∧ p.2 ∈ elem.2 := by
  have hget := getElem?_group pairs p.1
  rw [if_pos (List.mem_map.mpr ⟨p, h, rfl⟩)] at hget
  refine ⟨(p.1, _), (order.mem_elements _ _ _).mpr hget, rfl, ?_⟩
  exact List.mem_map.mpr ⟨p, by simp [h], rfl⟩

/-- What is visited under all keys is what was paired with them, in some order. -/
theorem perm_elements_group (order : HashOrder) (pairs : List (Bytes × Bytes)) :
    ((order.elements (group pairs)).flatMap Prod.snd).Perm (pairs.map Prod.snd) := by
  have hkeys : (order.elements (group pairs)).flatMap Prod.snd =
      (((order.elements (group pairs)).map Prod.fst).flatMap fun key =>
        pairs.filter (·.1 = key)).map Prod.snd := by
    rw [List.flatMap_map, List.map_flatMap]
    exact List.flatMap_congr fun elem helem => keys_of_elements helem
  rw [hkeys]
  refine (Lib.Pairing.flatMap_filter_perm (order.nodup_elements _) fun p hp => ?_).map _
  obtain ⟨elem, helem, heq, -⟩ := exists_element order hp
  exact List.mem_map.mpr ⟨elem, helem, heq⟩

/-! ## Inverting a map -/

section Invert

variable (order order' : HashOrder) (m : StringMap)

/-- The keys of a map, grouped by their values. -/
def inverted : List (Bytes × List Bytes) :=
  order'.elements (group ((order.elements m).map Prod.swap))

variable {order order' m}

/-- Under a value stand the keys that have it. -/
theorem mem_inverted {elem : Bytes × List Bytes} (h : elem ∈ inverted order order' m)
    (key : Bytes) : key ∈ elem.2 ↔ m[key]? = some elem.1 := by
  rw [keys_of_elements h, ← order.mem_elements m]
  constructor
  · intro hkey
    obtain ⟨p, hp, rfl⟩ := List.mem_map.mp hkey
    obtain ⟨hp, hvalue⟩ := List.mem_filter.mp hp
    obtain ⟨q, hq, rfl⟩ := List.mem_map.mp hp
    rw [← of_decide_eq_true hvalue]
    exact hq
  · intro hmem
    exact List.mem_map.mpr ⟨(elem.1, key), List.mem_filter.mpr
      ⟨List.mem_map.mpr ⟨_, hmem, rfl⟩, by simp⟩, rfl⟩

theorem nodup_of_inverted {elem : Bytes × List Bytes} (h : elem ∈ inverted order order' m) :
    elem.2.Nodup := by
  have hnodup : (((order.elements m).map Prod.swap).map Prod.snd).Nodup := by
    rw [List.map_map]
    exact order.nodup_elements m
  rw [keys_of_elements h]
  exact hnodup.sublist (List.filter_sublist.map Prod.snd)

theorem inverted_ne_nil {elem : Bytes × List Bytes} (h : elem ∈ inverted order order' m) :
    elem.2 ≠ [] :=
  group_ne_nil ((order'.mem_elements _ _ _).mp h)

/-- Every value that a key has is visited. -/
theorem exists_inverted {key value : Bytes} (h : m[key]? = some value) :
    ∃ elem ∈ inverted order order' m, elem.1 = value ∧ key ∈ elem.2 :=
  exists_element order' (List.mem_map.mpr ⟨_, (order.mem_elements m key value).mpr h, rfl⟩)

/-- No key stands under two values. -/
theorem inverted_disjoint :
    (inverted order order' m).Pairwise fun elem elem' => elem.2.Disjoint elem'.2 := by
  have hone : (inverted order order' m).Pairwise fun elem elem' => elem.1 ≠ elem'.1 :=
    List.pairwise_map.mp (order'.nodup_elements _)
  refine hone.imp_of_mem fun {elem elem'} h h' hne key hkey hkey' => hne ?_
  have hvalue := (mem_inverted h key).mp hkey
  exact Option.some.inj (hvalue.symm.trans ((mem_inverted h' key).mp hkey'))

end Invert

end Cppim.Common
