import Mathlib.Algebra.Order.Group.Nat
import Mathlib.Data.List.Basic

/-! Base-128 varints: seven bits a byte, the lowest first, the top bit set in every byte
but the last. `decode_encode` is the round trip with anything behind it, and
`length_encode` says that the length found by comparing with powers of two is the length
written. -/

namespace Cppim.Lib.Varint

/-- `n` in at most `k` bytes. -/
def encode : Nat → Nat → List UInt8
  | 0, _ => []
  | k + 1, n =>
    if n < 128 then [UInt8.ofNat n] else UInt8.ofNat (n % 128 + 128) :: encode k (n / 128)

/-- The number at the start, of at most `k` bytes, and what is behind it. -/
def decode : Nat → List UInt8 → Option (Nat × List UInt8)
  | 0, _ => none
  | _ + 1, [] => none
  | k + 1, b :: bs =>
    if b.toNat < 128 then some (b.toNat, bs)
    else (decode k bs).map fun p => (b.toNat - 128 + 128 * p.1, p.2)

theorem decode_encode (k n : Nat) (hk : 0 < k) (h : n < 128 ^ k) (rest : List UInt8) :
    decode k (encode k n ++ rest) = some (n, rest) := by
  induction k generalizing n with
  | zero => omega
  | succ k ih =>
    unfold encode
    split
    · rename_i hlt
      have hbyte : (UInt8.ofNat n).toNat = n := by
        rw [UInt8.toNat_ofNat']
        omega
      simp only [List.cons_append, List.nil_append, decode, hbyte, if_pos hlt]
    · rename_i hge
      have hbyte : (UInt8.ofNat (n % 128 + 128)).toNat = n % 128 + 128 := by
        rw [UInt8.toNat_ofNat']
        omega
      have hmore : ¬ n % 128 + 128 < 128 := by omega
      have hpos : 0 < k := by
        rcases Nat.eq_zero_or_pos k with rfl | hpos
        · exact absurd h hge
        · exact hpos
      rw [pow_succ] at h
      simp only [List.cons_append, decode, hbyte, if_neg hmore,
        ih (n / 128) hpos (by omega), Option.map_some, Option.some.injEq, Prod.mk.injEq, and_true]
      omega

/-- At least one byte is read. -/
theorem decode_lt {k n : Nat} {bs rest : List UInt8} (h : decode k bs = some (n, rest)) :
    rest.length < bs.length := by
  induction k generalizing n bs with
  | zero => cases h
  | succ k ih =>
    cases bs with
    | nil => cases h
    | cons b bs =>
      simp only [decode] at h
      split at h
      · cases h
        simp
      · obtain ⟨p, hp, heq⟩ := Option.map_eq_some_iff.mp h
        cases heq
        have := ih hp
        simp only [List.length_cons]
        omega

/-- A byte below 128 is a number of its own. -/
theorem decode_byte (k : Nat) {b : UInt8} (h : b.toNat < 128) (bs : List UInt8) :
    decode (k + 1) (b :: bs) = some (b.toNat, bs) := by
  simp only [decode, if_pos h]

/-! ## Lengths -/

/-- The length as it is found without writing: by comparing with powers of two. -/
def size (n : Nat) : Nat :=
  if n < 2 ^ 7 then 1
  else if n < 2 ^ 14 then 2
  else if n < 2 ^ 21 then 3
  else if n < 2 ^ 28 then 4
  else if n < 2 ^ 35 then 5
  else if n < 2 ^ 42 then 6
  else if n < 2 ^ 49 then 7
  else if n < 2 ^ 56 then 8
  else if n < 2 ^ 63 then 9
  else 10

theorem length_encode_of_lt (k : Nat) {n : Nat} (h : n < 128) : (encode (k + 1) n).length = 1 := by
  simp [encode, h]

theorem length_encode_of_le (k : Nat) {n : Nat} (h : 128 ≤ n) :
    (encode (k + 1) n).length = (encode k (n / 128)).length + 1 := by
  simp [encode, Nat.not_lt.mpr h]

/-- The number of groups of seven bits. -/
theorem length_encode_of_pow (k j n : Nat) (hj : j < k) (hlow : j = 0 ∨ 128 ^ j ≤ n)
    (hhigh : n < 128 ^ (j + 1)) : (encode k n).length = j + 1 := by
  induction j generalizing k n with
  | zero =>
    obtain ⟨k, rfl⟩ : ∃ k', k = k' + 1 := ⟨k - 1, by omega⟩
    exact length_encode_of_lt k (by simpa using hhigh)
  | succ j ih =>
    obtain ⟨k, rfl⟩ : ∃ k', k = k' + 1 := ⟨k - 1, by omega⟩
    have hpos : 0 < 128 ^ j := Nat.pow_pos (by omega)
    rw [pow_succ] at hhigh
    have hlow : 128 ^ j * 128 ≤ n := by
      rw [← pow_succ]
      exact hlow.resolve_left (by omega)
    have hge : 128 ≤ n := Nat.le_trans (Nat.le_mul_of_pos_left 128 hpos) hlow
    rw [length_encode_of_le k hge, ih k (n / 128) (by omega) (Or.inr ?_) (by omega)]
    exact (Nat.le_div_iff_mul_le (by omega)).mpr hlow

theorem length_encode (n : Nat) (h : n < 2 ^ 64) : (encode 10 n).length = size n := by
  have hpow := length_encode_of_pow 10
  unfold size
  split
  · exact hpow 0 n (by omega) (Or.inl rfl) (by omega)
  split
  · exact hpow 1 n (by omega) (Or.inr (by omega)) (by omega)
  split
  · exact hpow 2 n (by omega) (Or.inr (by omega)) (by omega)
  split
  · exact hpow 3 n (by omega) (Or.inr (by omega)) (by omega)
  split
  · exact hpow 4 n (by omega) (Or.inr (by omega)) (by omega)
  split
  · exact hpow 5 n (by omega) (Or.inr (by omega)) (by omega)
  split
  · exact hpow 6 n (by omega) (Or.inr (by omega)) (by omega)
  split
  · exact hpow 7 n (by omega) (Or.inr (by omega)) (by omega)
  split
  · exact hpow 8 n (by omega) (Or.inr (by omega)) (by omega)
  · exact hpow 9 n (by omega) (Or.inr (by omega)) (by omega)

end Cppim.Lib.Varint
