import Cppim.Common.Basic
import Cppim.Lib.Decimal
import Mathlib.Tactic.IntervalCases

/-! The number parsers of the C library that the program calls: `strtoull`,
`strtol` through `atoi` and `std::stoi`, and `std::to_string`. -/

namespace Cppim.Common

open Cppim.Lib

def isspace (c : UInt8) : Bool := c = 32 || (9 ≤ c && c ≤ 13)

def digitVal (c : UInt8) : Option Nat :=
  if 48 ≤ c ∧ c ≤ 57 then some (c.toNat - 48)
  else if 97 ≤ c ∧ c ≤ 122 then some (c.toNat - 87)
  else if 65 ≤ c ∧ c ≤ 90 then some (c.toNat - 55)
  else none

/-- The digits at the front of a string. -/
def digitsOf (base : Nat) : Bytes → List Nat
  | [] => []
  | c :: cs =>
    match digitVal c with
    | some d => if d < base then d :: digitsOf base cs else []
    | none => []

/-- An optional sign; `true` is minus. -/
def takeSign : Bytes → Bool × Bytes
  | 45 :: cs => (true, cs)
  | 43 :: cs => (false, cs)
  | cs => (false, cs)

/-- Base `0` means hexadecimal behind `0x`, octal behind `0`, else decimal. -/
def takeBase (base : Nat) (s : Bytes) : Nat × Bytes :=
  if base = 0 then
    match s with
    | 48 :: x :: cs =>
      if (x = 120 ∨ x = 88) ∧ digitsOf 16 cs ≠ [] then (16, cs) else (8, s)
    | 48 :: _ => (8, s)
    | _ => (10, s)
  else (base, s)

/-- What the `strto*` functions read: a sign and a magnitude, `none` without digits. -/
def scanNumber (base : Nat) (s : Bytes) : Bool × Option Nat :=
  let signed := takeSign (s.dropWhile isspace)
  let based := takeBase base signed.2
  let ds := digitsOf based.1 based.2
  (signed.1, if ds = [] then none else some (Decimal.value based.1 ds))

def strtoull (s : Bytes) (base : Nat) : BitVec 64 :=
  match scanNumber base s with
  | (_, none) => 0
  | (neg, some n) =>
    if n < 2 ^ 64 then (if neg then -BitVec.ofNat 64 n else BitVec.ofNat 64 n)
    else BitVec.allOnes 64

/-- `strtol(s, &end, 10)` on a 64-bit `long`, with `end == s` as `none`; the value
saturates. -/
def strtol (s : Bytes) : Option Int :=
  match scanNumber 10 s with
  | (_, none) => none
  | (neg, some n) =>
    some (max (-2 ^ 63) (min (2 ^ 63 - 1) (if neg then -(n : Int) else n)))

/-- `atoi`: the low 32 bits of `strtol`. -/
def atoi (s : Bytes) : Int := (BitVec.ofInt 32 ((strtol s).getD 0)).toInt

def stoi (s : Bytes) : Except Fault Int :=
  match strtol s with
  | none => .error .invalidArgument
  | some n => if -2 ^ 31 ≤ n ∧ n < 2 ^ 31 then .ok n else .error .outOfRange

/-- `std::to_string` of a `uint64_t` -/
def to_string (n : BitVec 64) : Bytes := Decimal.decimal n.toNat

/-- `std::to_string` of a signed integer, and what `fmt` writes for one -/
def formatInt (n : Int) : Bytes := (if n < 0 then [45] else []) ++ Decimal.decimal n.natAbs

/-- What `fmt` writes for a signed integer with the format `{:0wd}`; the sign counts as one
of the `w` characters -/
def formatPadded (w : Nat) (n : Int) : Bytes :=
  if n < 0 then 45 :: Decimal.zeroPadded (w - 1) n.natAbs else Decimal.zeroPadded w n.natAbs

theorem zeroPadded_ne_minus (w n : Nat) (rest : Bytes) : Decimal.zeroPadded w n ≠ 45 :: rest := by
  intro h
  have hrange := Decimal.zeroPadded_range w n 45 (by simp [h])
  revert hrange
  decide

/-- The texts of different numbers differ. -/
theorem formatPadded_injective (w : Nat) : Function.Injective (formatPadded w) := by
  intro m n h
  by_cases hm : m < 0 <;> by_cases hn : n < 0 <;> simp only [formatPadded, hm, hn, ↓reduceIte,
    List.cons.injEq, true_and] at h
  · have habs := Decimal.zeroPadded_injective _ h
    omega
  · exact absurd h.symm (zeroPadded_ne_minus _ _ _)
  · exact absurd h (zeroPadded_ne_minus _ _ _)
  · have habs := Decimal.zeroPadded_injective _ h
    omega

theorem formatInt_eq_formatPadded (n : Int) : formatInt n = formatPadded 0 n := by
  by_cases hn : n < 0 <;> simp [formatInt, formatPadded, Decimal.zeroPadded, hn]

theorem formatInt_injective : Function.Injective formatInt := by
  intro m n h
  rw [formatInt_eq_formatPadded, formatInt_eq_formatPadded] at h
  exact formatPadded_injective 0 h

theorem length_formatPadded {w : Nat} {n : Int} (hw : 0 < w) (hpos : 0 ≤ n) (hn : n < 10 ^ w) :
    (formatPadded w n).length = w := by
  rw [formatPadded, if_neg (by omega)]
  refine Decimal.length_zeroPadded hw ?_
  obtain ⟨k, rfl⟩ := Int.eq_ofNat_of_zero_le hpos
  exact_mod_cast hn

/-! ## Reading decimal text back -/

theorem digitVal_digit (d : Nat) (h : d < 10) : digitVal (UInt8.ofNat (48 + d)) = some d := by
  have hd := Decimal.digit_toNat d h
  have hr : (48 : UInt8) ≤ UInt8.ofNat (48 + d) ∧ UInt8.ofNat (48 + d) ≤ 57 := by
    simp only [UInt8.le_iff_toNat_le, hd]
    exact ⟨by simp, by simp; omega⟩
  rw [digitVal, if_pos hr, hd, Nat.add_sub_cancel_left]

theorem digitsOf_map (base : Nat) (ds : List Nat) (hb : base ≤ 10) (h : ∀ d ∈ ds, d < base) :
    digitsOf base (ds.map fun d => UInt8.ofNat (48 + d)) = ds := by
  induction ds with
  | nil => rfl
  | cons d ds ih =>
    have hd : d < base := h d (by simp)
    have hrest := ih fun d hd => h d (by simp [hd])
    simp only [List.map_cons, digitsOf, digitVal_digit d (by omega), hd, ↓reduceIte, hrest]

theorem takeSign_digit (d : Nat) (h : d < 10) (cs : Bytes) :
    takeSign ((UInt8.ofNat (48 + d) :: cs).dropWhile isspace) =
      (false, UInt8.ofNat (48 + d) :: cs) := by
  interval_cases d <;> rfl

theorem takeBase_digit (d : Nat) (h : d < 10) (h0 : d ≠ 0) (cs : Bytes) :
    takeBase 0 (UInt8.ofNat (48 + d) :: cs) = (10, UInt8.ofNat (48 + d) :: cs) := by
  interval_cases d
  · exact absurd rfl h0
  all_goals rfl

/-- Decimal text is read back in base 10, and in base 0 as well, since it has no
leading zero. -/
theorem scanNumber_decimal (base n : Nat) (hb : base = 0 ∨ base = 10) :
    scanNumber base (Decimal.decimal n) = (false, some n) := by
  obtain ⟨d, ds, hds, hzero⟩ := Decimal.digits_head n
  have hlt := Decimal.digits_lt n
  have hval := Decimal.value_digits n
  rw [hds] at hlt hval
  by_cases h0 : d = 0 ∧ base = 0
  · obtain ⟨h0, rfl⟩ := h0
    have hd := hzero h0
    rw [hds] at hd
    rw [Decimal.decimal, hds, hd, ← hval, hd]
    rfl
  · have hbase : takeBase base (Decimal.decimal n) = (10, Decimal.decimal n) := by
      rcases hb with rfl | rfl
      · rw [Decimal.decimal, hds]
        exact takeBase_digit d (hlt d (by simp)) (fun h => h0 ⟨h, rfl⟩) _
      · rfl
    have hsign : takeSign ((Decimal.decimal n).dropWhile isspace) = (false, Decimal.decimal n) := by
      rw [Decimal.decimal, hds]
      exact takeSign_digit d (hlt d (by simp)) _
    have hread : digitsOf 10 (Decimal.decimal n) = d :: ds := by
      rw [Decimal.decimal, hds]
      exact digitsOf_map 10 _ (Nat.le_refl _) hlt
    simp only [scanNumber, hsign, hbase, hread, hval, reduceCtorEq, ↓reduceIte]

theorem atoi_decimal {n : Nat} (h : n < 2 ^ 31) : atoi (Decimal.decimal n) = n := by
  have hlong : strtol (Decimal.decimal n) = some (n : Int) := by
    simp only [strtol, scanNumber_decimal 10 n (Or.inr rfl), Bool.false_eq_true, ↓reduceIte,
      Option.some.injEq]
    omega
  rw [atoi, hlong, Option.getD_some, BitVec.ofInt_natCast]
  exact toInt_ofNat_of_lt n h

theorem strtoull_to_string (n : BitVec 64) : strtoull (to_string n) 0 = n := by
  have hn := n.isLt
  simp only [strtoull, to_string, scanNumber_decimal 0 n.toNat (Or.inl rfl), hn, ↓reduceIte,
    Bool.false_eq_true, BitVec.ofNat_toNat, BitVec.setWidth_eq]

end Cppim.Common
