import Mathlib.Data.Nat.Digits.Lemmas

/-! Decimal text. `decimal n` is the text of `n` without leading zeros, as
`std::to_string` writes it; `value` reads a list of digits back. -/

namespace Cppim.Lib.Decimal

/-- The number a list of digits denotes, most significant digit first. -/
def value (base : Nat) (ds : List Nat) : Nat := ds.foldl (fun acc d => acc * base + d) 0

/-- The digits of `n`, most significant first; `0` has one digit. -/
def digits (n : Nat) : List Nat := if n = 0 then [0] else (Nat.digits 10 n).reverse

def decimal (n : Nat) : List UInt8 := (digits n).map fun d => UInt8.ofNat (48 + d)

theorem digits_lt (n : Nat) : ∀ d ∈ digits n, d < 10 := by
  intro d hd
  by_cases hn : n = 0
  · simp only [digits, hn, ↓reduceIte, List.mem_singleton] at hd
    omega
  · simp only [digits, hn, ↓reduceIte, List.mem_reverse] at hd
    exact Nat.digits_lt_base (by omega) hd

theorem value_digits (n : Nat) : value 10 (digits n) = n := by
  by_cases hn : n = 0
  · simp [digits, hn, value]
  · have h := Nat.ofDigits_digits 10 n
    rw [Nat.ofDigits_eq_foldr] at h
    simp only [digits, hn, ↓reduceIte, value, List.foldl_reverse]
    have hfun : (fun d acc : Nat => acc * 10 + d) = fun d acc : Nat => (d : Nat) + 10 * acc := by
      funext d acc
      omega
    rw [hfun]
    exact h

/-- The text of a number starts with a digit, which is zero only for `0`. -/
theorem digits_head (n : Nat) : ∃ d ds, digits n = d :: ds ∧ (d = 0 → digits n = [0]) := by
  by_cases hn : n = 0
  · exact ⟨0, [], by simp [digits, hn], fun _ => by simp [digits, hn]⟩
  · have hne : Nat.digits 10 n ≠ [] := Nat.digits_ne_nil_iff_ne_zero.mpr hn
    refine ⟨(Nat.digits 10 n).getLast hne, ((Nat.digits 10 n).dropLast).reverse, ?_, ?_⟩
    · simp only [digits, hn, ↓reduceIte]
      conv_lhs => rw [← List.dropLast_append_getLast hne]
      rw [List.reverse_append, List.reverse_singleton, List.singleton_append]
    · exact fun h0 => absurd h0 (Nat.getLast_digit_ne_zero 10 hn)

theorem decimal_ne_nil (n : Nat) : decimal n ≠ [] := by
  obtain ⟨d, ds, hds, -⟩ := digits_head n
  simp [decimal, hds]

theorem digit_toNat (d : Nat) (h : d < 10) : (UInt8.ofNat (48 + d)).toNat = 48 + d := by
  rw [UInt8.toNat_ofNat', Nat.mod_eq_of_lt (by omega)]

/-- Only digits occur in decimal text. -/
theorem decimal_range (n : Nat) : ∀ c ∈ decimal n, 48 ≤ c.toNat ∧ c.toNat ≤ 57 := by
  intro c hc
  obtain ⟨d, hd, rfl⟩ := List.mem_map.mp hc
  have hlt := digits_lt n d hd
  rw [digit_toNat d hlt]
  omega

/-- The digits are read back from the text. -/
theorem decimal_back (n : Nat) : (decimal n).map (fun c => c.toNat - 48) = digits n := by
  rw [decimal, List.map_map]
  conv_rhs => rw [← List.map_id (digits n)]
  apply List.map_congr_left
  intro d hd
  show (UInt8.ofNat (48 + d)).toNat - 48 = d
  rw [digit_toNat d (digits_lt n d hd)]
  omega

theorem decimal_injective : Function.Injective decimal := by
  intro m n h
  rw [← value_digits m, ← value_digits n, ← decimal_back m, ← decimal_back n, h]

/-! ## Leading zeros -/

/-- At least `w` digits. -/
def zeroPadded (w n : Nat) : List UInt8 := List.replicate (w - (decimal n).length) 48 ++ decimal n

theorem value_zeros (k : Nat) (ds : List Nat) :
    value 10 (List.replicate k 0 ++ ds) = value 10 ds := by
  induction k with
  | zero => rfl
  | succ k ih => rw [← ih, List.replicate_succ, List.cons_append, value, value, List.foldl_cons]

theorem value_zeroPadded (w n : Nat) :
    value 10 ((zeroPadded w n).map fun c => c.toNat - 48) = n := by
  rw [zeroPadded, List.map_append, List.map_replicate, decimal_back]
  exact (value_zeros _ _).trans (value_digits n)

theorem zeroPadded_injective (w : Nat) : Function.Injective (zeroPadded w) := by
  intro m n h
  rw [← value_zeroPadded w m, ← value_zeroPadded w n, h]

theorem zeroPadded_range (w n : Nat) : ∀ c ∈ zeroPadded w n, 48 ≤ c.toNat ∧ c.toNat ≤ 57 := by
  intro c hc
  rcases List.mem_append.mp hc with hc | hc
  · rw [List.eq_of_mem_replicate hc]
    decide
  · exact decimal_range n c hc

theorem length_decimal_le {w n : Nat} (hw : 0 < w) (hn : n < 10 ^ w) : (decimal n).length ≤ w := by
  rw [decimal, List.length_map, digits]
  split
  · exact hw
  · rw [List.length_reverse]
    exact (Nat.digits_length_le_iff (by decide) n).mpr hn

theorem length_zeroPadded {w n : Nat} (hw : 0 < w) (hn : n < 10 ^ w) :
    (zeroPadded w n).length = w := by
  have hlen := length_decimal_le hw hn
  rw [zeroPadded, List.length_append, List.length_replicate]
  omega

end Cppim.Lib.Decimal
