import Mathlib.Data.List.Induction
import Mathlib.Algebra.Order.Group.Nat

/-! Fixed-width big-endian words over bytes. `toBytes k n` writes the low `8 * k`
bits of `n`, most significant byte first, and `ofBytes` reads any byte string
back; `ofBytes_toBytes` and `toBytes_ofBytes` are the two round trips. -/

namespace Cppim.Lib.BigEndian

/-- The `k` bytes of `n`, most significant first; higher bits are dropped. -/
def toBytes : Nat → Nat → List UInt8
  | 0, _ => []
  | k + 1, n => toBytes k (n / 256) ++ [UInt8.ofNat n]

/-- The number a byte string denotes, most significant byte first. -/
def ofBytes (bs : List UInt8) : Nat := bs.foldl (fun acc b => acc * 256 + b.toNat) 0

@[simp] theorem toBytes_length (k n : Nat) : (toBytes k n).length = k := by
  induction k generalizing n with
  | zero => rfl
  | succ k ih => simp [toBytes, ih]

@[simp] theorem ofBytes_nil : ofBytes [] = 0 := rfl

theorem ofBytes_snoc (bs : List UInt8) (b : UInt8) :
    ofBytes (bs ++ [b]) = ofBytes bs * 256 + b.toNat := by
  simp [ofBytes]

theorem ofBytes_toBytes (k n : Nat) : ofBytes (toBytes k n) = n % 256 ^ k := by
  induction k generalizing n with
  | zero => simp [toBytes, Nat.mod_one]
  | succ k ih =>
    have hsplit : n % 256 ^ (k + 1) = n % 256 + 256 * (n / 256 % 256 ^ k) := by
      rw [pow_succ', Nat.mod_mul]
    rw [toBytes, ofBytes_snoc, ih, UInt8.toNat_ofNat', hsplit]
    omega

theorem toBytes_ofBytes (bs : List UInt8) : toBytes bs.length (ofBytes bs) = bs := by
  induction bs using List.reverseRecOn with
  | nil => rfl
  | append_singleton bs b ih =>
    have hb := b.toNat_lt
    have hdiv : (ofBytes bs * 256 + b.toNat) / 256 = ofBytes bs := by omega
    have hlow : UInt8.ofNat (ofBytes bs * 256 + b.toNat) = b := by
      apply UInt8.toNat_inj.mp
      rw [UInt8.toNat_ofNat']
      omega
    rw [ofBytes_snoc, List.length_append, List.length_singleton, toBytes, hdiv, ih, hlow]

/-- A machine word survives the trip through its bytes. -/
theorem ofNat_ofBytes_toBytes (k : Nat) (x : BitVec (8 * k)) :
    BitVec.ofNat (8 * k) (ofBytes (toBytes k x.toNat)) = x := by
  have hx : x.toNat < 256 ^ k := by
    have h := x.isLt
    rwa [pow_mul] at h
  rw [ofBytes_toBytes, Nat.mod_eq_of_lt hx, BitVec.ofNat_toNat, BitVec.setWidth_eq]

/-- Only the low bits of a number are written. -/
theorem toBytes_ofNat (k n : Nat) :
    toBytes k (BitVec.ofNat (8 * k) n).toNat = toBytes k n := by
  have h := toBytes_ofBytes (toBytes k n)
  rwa [toBytes_length, ofBytes_toBytes, show (256 : Nat) ^ k = 2 ^ (8 * k) from
    (pow_mul 2 8 k).symm, ← BitVec.toNat_ofNat] at h

end Cppim.Lib.BigEndian
