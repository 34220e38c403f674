import Cppim.Common.ByteDeque
import Mathlib.Algebra.Group.Int.Defs
import Mathlib.Data.List.Infix

/-! Integers of mixed widths in one `Buffer`.

The integer operations of `common/Buffer.h` write in network order through unsigned
types. Whatever the widths, and however appending and reading alternate, signed values
come back in the order in which they were appended; prepended ones come back in the
opposite order, ahead of what was there. -/

namespace Cppim.Common.Integers

open Cppim.Lib Cppim.Lib.Transition Cppim.Common.ByteDeque Buffer

/-- A value of `int8_t`, `int16_t`, `int32_t` or `int64_t`. -/
structure Value where
  width : Width
  val : Int
  lower : -2 ^ (8 * width.size - 1) ≤ val
  upper : val < 2 ^ (8 * width.size - 1)
  deriving Repr, DecidableEq

namespace Value

/-- The value converted to the unsigned type of its width. -/
def bits (v : Value) : BitVec (8 * v.width.size) := BitVec.ofInt _ v.val

/-- The conversion back to the signed type. -/
def ofBits (w : Width) (x : BitVec (8 * w.size)) : Value where
  width := w
  val := x.toInt
  lower := x.le_toInt
  upper := x.toInt_lt

theorem ofBits_bits (v : Value) : ofBits v.width v.bits = v := by
  obtain ⟨w, n, hlow, hup⟩ := v
  have hpos : 0 < 8 * w.size := by cases w <;> decide
  simp only [ofBits, bits, BitVec.toInt_ofInt_eq_self hpos hlow hup]

def bytes (v : Value) : Bytes := BigEndian.toBytes v.width.size v.bits.toNat

@[simp] theorem bytes_length (v : Value) : v.bytes.length = v.width.size :=
  BigEndian.toBytes_length _ _

theorem bits_ofBytes (v : Value) : BitVec.ofNat _ (BigEndian.ofBytes v.bytes) = v.bits :=
  BigEndian.ofNat_ofBytes_toBytes _ _

end Value

/-- How the values stand in a buffer. -/
def encode : List Value → Bytes
  | [] => []
  | v :: vs => v.bytes ++ encode vs

theorem encode_append (vs ws : List Value) : encode (vs ++ ws) = encode vs ++ encode ws := by
  induction vs with
  | nil => rfl
  | cons v vs ih => rw [List.cons_append, encode, ih, encode, List.append_assoc]

/-- How many bytes integers of these widths take. -/
def total : List Width → Nat
  | [] => 0
  | w :: ws => w.size + total ws

/-- The integers among the answers. -/
def values : List Answer → List Value
  | [] => []
  | .int w x :: answers => Value.ofBits w x :: values answers
  | .void :: answers => values answers
  | .str _ :: answers => values answers

/-! ## Single operations -/

theorem append_value (b : Buffer) (v : Value) :
    ∃ b', Operation.onBuffer b (.appendInt v.width v.bits) = .ok (b', .void) ∧
      b'.readable = b.readable ++ v.bytes := by
  obtain ⟨b', a, hb, hd⟩ := Operation.refines b (.appendInt v.width v.bits) trivial
  obtain ⟨hread, rfl⟩ := Prod.mk.injEq _ _ _ _ ▸ hd
  exact ⟨b', hb, hread.symm⟩

theorem read_value (b : Buffer) (v : Value) (rest : Bytes) (h : b.readable = v.bytes ++ rest) :
    ∃ b', Operation.onBuffer b (.readInt v.width) = .ok (b', .int v.width v.bits) ∧
      b'.readable = rest := by
  have hsize : v.width.size ≤ b.readableBytes := by
    rw [← readable_length, h, List.length_append, v.bytes_length]
    exact Nat.le_add_right _ _
  obtain ⟨b', a, hb, hd⟩ := Operation.refines b (.readInt v.width) hsize
  rw [Operation.onDeque, h, List.drop_left' v.bytes_length, List.take_left' v.bytes_length,
    v.bits_ofBytes] at hd
  obtain ⟨hread, rfl⟩ := Prod.mk.injEq _ _ _ _ ▸ hd
  exact ⟨b', hb, hread.symm⟩

theorem prepend_value (b : Buffer) (v : Value) (h : v.width.size ≤ b.prependableBytes) :
    ∃ b', Operation.onBuffer b (.prependInt v.width v.bits) = .ok (b', .void) ∧
      b'.readable = v.bytes ++ b.readable ∧
      v.width.size + b'.prependableBytes = b.prependableBytes := by
  obtain ⟨b', hb, hread⟩ := b.prepend_ok v.bytes (v.bytes_length.le.trans h)
  refine ⟨b', ?_, hread, ?_⟩
  · have hprepend : v.width.prependInt b v.bits = .ok b' := by
      rw [v.width.prependInt_eq]
      exact hb
    rw [Operation.onBuffer, hprepend]
    rfl
  · have hroom := prepend_room hb
    rwa [v.bytes_length] at hroom

/-! ## Appending and reading by turns -/

inductive Access where
  | append (v : Value)
  | read (w : Width)
  deriving Repr, DecidableEq

def Access.operation : Access → Operation
  | .append v => .appendInt v.width v.bits
  | .read w => .readInt w

/-- The values that are appended, in order. -/
def written : List Access → List Value
  | [] => []
  | .append v :: ops => v :: written ops
  | .read _ :: ops => written ops

/-- The widths that are read, in order. -/
def asked : List Access → List Width
  | [] => []
  | .append _ :: ops => asked ops
  | .read w :: ops => w :: asked ops

/-- The reads ask for the values that are pending and those still to be appended, and never
for more bytes than have been written. -/
structure Paired (pending : List Value) (ops : List Access) : Prop where
  asked_eq : asked ops = (pending ++ written ops).map Value.width
  behind : ∀ as, as <+: ops → total (asked as) ≤ total ((pending ++ written as).map Value.width)

theorem Paired.done {pending : List Value} (h : Paired pending []) : pending = [] := by
  simpa [asked, written] using h.asked_eq.symm

theorem Paired.append {pending : List Value} {v : Value} {ops : List Access}
    (h : Paired pending (.append v :: ops)) : Paired (pending ++ [v]) ops := by
  have hpending : ∀ vs, (pending ++ [v]) ++ vs = pending ++ v :: vs := fun vs => by simp
  refine ⟨by rw [hpending]; exact h.asked_eq, fun as has => ?_⟩
  rw [hpending]
  exact h.behind (.append v :: as) (List.cons_prefix_cons.mpr ⟨rfl, has⟩)

/-- There is a value for a read, and it has the width that is read. -/
theorem Paired.read {pending : List Value} {w : Width} {ops : List Access}
    (h : Paired pending (.read w :: ops)) :
    ∃ v rest, pending = v :: rest ∧ w = v.width ∧ Paired rest ops := by
  cases pending with
  | nil =>
    -- a first read of at least one byte while there is none
    have hfirst := h.behind [.read w] (List.cons_prefix_cons.mpr ⟨rfl, List.nil_prefix⟩)
    cases w <;> simp [asked, written, total, Width.size] at hfirst
  | cons v rest =>
    obtain ⟨rfl, hasked⟩ : w = v.width ∧ asked ops = (rest ++ written ops).map Value.width := by
      simpa [asked, written] using h.asked_eq
    refine ⟨v, rest, rfl, rfl, hasked, fun as has => ?_⟩
    have hbehind := h.behind (.read v.width :: as) (List.cons_prefix_cons.mpr ⟨rfl, has⟩)
    simp only [asked, written, List.cons_append, List.map_cons, total] at hbehind
    exact Nat.le_of_add_le_add_left hbehind

/-- From a buffer that holds `pending` the reads get these values and those that are
appended, and leave nothing. -/
theorem accesses_ok (ops : List Access) (b : Buffer) (pending : List Value)
    (hb : b.readable = encode pending) (h : Paired pending ops) :
    ∃ b' answers, exec Operation.onBuffer b (ops.map Access.operation) = .ok (b', answers) ∧
      values answers = pending ++ written ops ∧ b'.readable = [] := by
  induction ops generalizing b pending with
  | nil =>
    obtain rfl := h.done
    exact ⟨b, [], rfl, rfl, hb⟩
  | cons op ops ih =>
    cases op with
    | append v =>
      obtain ⟨b₁, hstep, hread⟩ := append_value b v
      rw [hb, ← List.append_nil v.bytes, ← encode, ← encode, ← encode_append] at hread
      obtain ⟨b', answers, hexec, hvalues, hempty⟩ := ih b₁ (pending ++ [v]) hread h.append
      refine ⟨b', .void :: answers, ?_, ?_, hempty⟩
      · simp only [List.map_cons, Access.operation, exec, hstep, hexec]
      · rw [values, hvalues, written, List.append_assoc]
        rfl
    | read w =>
      obtain ⟨v, rest, rfl, rfl, hrest⟩ := h.read
      obtain ⟨b₁, hstep, hread⟩ := read_value b v (encode rest) hb
      obtain ⟨b', answers, hexec, hvalues, hempty⟩ := ih b₁ rest hread hrest
      refine ⟨b', .int v.width v.bits :: answers, ?_, ?_, hempty⟩
      · simp only [List.map_cons, Access.operation, exec, hstep, hexec]
      · rw [values, v.ofBits_bits, hvalues]
        rfl

/-! ## Reading what was prepended -/

theorem reads_ok (vs : List Value) (b : Buffer) (rest : Bytes)
    (hb : b.readable = encode vs ++ rest) :
    ∃ b' answers, exec Operation.onBuffer b (vs.map fun v => .readInt v.width) =
        .ok (b', answers) ∧ values answers = vs ∧ b'.readable = rest := by
  induction vs generalizing b with
  | nil => exact ⟨b, [], rfl, rfl, hb⟩
  | cons v vs ih =>
    rw [encode, List.append_assoc] at hb
    obtain ⟨b₁, hstep, hread⟩ := read_value b v _ hb
    obtain ⟨b', answers, hexec, hvalues, hrest⟩ := ih b₁ hread
    refine ⟨b', .int v.width v.bits :: answers, ?_, ?_, hrest⟩
    · simp only [List.map_cons, exec, hstep, hexec]
    · rw [values, v.ofBits_bits, hvalues]

theorem prepends_ok (vs : List Value) (b : Buffer)
    (hroom : total (vs.map Value.width) ≤ b.prependableBytes) :
    ∃ b' answers, exec Operation.onBuffer b (vs.map fun v => .prependInt v.width v.bits) =
        .ok (b', answers) ∧ b'.readable = encode vs.reverse ++ b.readable := by
  induction vs generalizing b with
  | nil => exact ⟨b, [], rfl, rfl⟩
  | cons v vs ih =>
    rw [List.map_cons, total] at hroom
    obtain ⟨b₁, hstep, hread, hleft⟩ := prepend_value b v (by omega)
    obtain ⟨b', answers, hexec, hall⟩ := ih b₁ (by omega)
    refine ⟨b', .void :: answers, ?_, ?_⟩
    · simp only [List.map_cons, exec, hstep, hexec]
    · rw [hall, hread, List.reverse_cons, encode_append, encode, encode, List.append_nil,
        List.append_assoc]

/-- **Integers come back in order.** Values of any widths are appended to a buffer of any
initial size and read in the same order of widths, reads and appends alternating in any
way in which no more is read than was written: every value comes back unchanged and
nothing stays behind. Values that fit in front of what a buffer holds can be prepended and
are then read in reverse order, and what the buffer held follows. -/
theorem integers_in_order (vs : List Value) :
    (∀ initialSize ops, written ops = vs → asked ops = vs.map Value.width →
      (∀ as, as <+: ops → total (asked as) ≤ total ((written as).map Value.width)) →
      ∃ b answers, exec Operation.onBuffer (ofSize initialSize) (ops.map Access.operation) =
          .ok (b, answers) ∧ values answers = vs ∧ b.readableBytes = 0) ∧
    ∀ b : Buffer, total (vs.map Value.width) ≤ b.prependableBytes →
      ∃ b₁ answers₁ b₂ answers₂,
        exec Operation.onBuffer b (vs.map fun v => .prependInt v.width v.bits) =
          .ok (b₁, answers₁) ∧ b₁.readable = encode vs.reverse ++ b.readable ∧
        exec Operation.onBuffer b₁ (vs.reverse.map fun v => .readInt v.width) =
          .ok (b₂, answers₂) ∧ values answers₂ = vs.reverse ∧ b₂.readable = b.readable := by
  constructor
  · rintro initialSize ops rfl hasked hbehind
    obtain ⟨b, answers, hexec, hvalues, hempty⟩ :=
      accesses_ok ops (ofSize initialSize) [] (readable_ofSize initialSize) ⟨hasked, hbehind⟩
    exact ⟨b, answers, hexec, hvalues, by rw [← readable_length, hempty]; rfl⟩
  · intro b hroom
    obtain ⟨b₁, answers₁, hprepend, hall⟩ := prepends_ok vs b hroom
    obtain ⟨b₂, answers₂, hreads, hvalues, hrest⟩ := reads_ok vs.reverse b₁ b.readable hall
    exact ⟨b₁, answers₁, b₂, answers₂, hprepend, hall, hreads, hvalues, hrest⟩

/-- A 64-bit value does not fit in a buffer of size three, which grows; a second value is
appended between the reads. -/
theorem integers_in_order_mixed :
    ∃ b answers, exec Operation.onBuffer (ofSize 3)
        [.appendInt .int64 (BitVec.ofInt 64 (-2)), .appendInt .int8 (BitVec.ofInt 8 (-128)),
          .readInt .int64, .appendInt .int16 300, .readInt .int8, .readInt .int16] =
      .ok (b, answers) ∧
      (values answers).map Value.val = [-2, -128, 300] ∧ b.readableBytes = 0 := by
  obtain ⟨b, answers, hexec, hvalues, hempty⟩ := (integers_in_order
    [⟨.int64, -2, by decide, by decide⟩, ⟨.int8, -128, by decide, by decide⟩,
      ⟨.int16, 300, by decide, by decide⟩]).1 3
    [.append ⟨.int64, -2, by decide, by decide⟩, .append ⟨.int8, -128, by decide, by decide⟩,
      .read .int64, .append ⟨.int16, 300, by decide, by decide⟩, .read .int8, .read .int16]
    rfl rfl (by simp only [← List.mem_inits]; decide)
  exact ⟨b, answers, hexec, by rw [hvalues]; rfl, hempty⟩

end Cppim.Common.Integers
