import Cppim.Common.Buffer
import Cppim.Lib.Transition
import Mathlib.Logic.Function.Basic

/-! A `Buffer` is a double-ended queue of bytes.

Any number of buffers, of any initial size, are worked on by the operations of
`common/Buffer.h`. As long as the caller keeps what the `assert`s demand of the
arguments, no operation fails, the readable bytes are those of a queue to which bytes
are pushed and from which they are dropped at both ends, and the answers agree. -/

namespace Cppim.Common.ByteDeque

open Cppim.Lib Cppim.Lib.Transition Buffer

/-- The integer types that have operations of their own. -/
inductive Width where
  | int8 | int16 | int32 | int64
  deriving Repr, DecidableEq

/-- `sizeof` -/
def Width.size : Width → Nat
  | .int8 => 1
  | .int16 => 2
  | .int32 => 4
  | .int64 => 8

namespace Width

def appendInt (b : Buffer) : (w : Width) → BitVec (8 * w.size) → Except Fault Buffer
  | .int8, x => b.appendInt8 x
  | .int16, x => b.appendInt16 x
  | .int32, x => b.appendInt32 x
  | .int64, x => b.appendInt64 x

def prependInt (b : Buffer) : (w : Width) → BitVec (8 * w.size) → Except Fault Buffer
  | .int8, x => b.prependInt8 x
  | .int16, x => b.prependInt16 x
  | .int32, x => b.prependInt32 x
  | .int64, x => b.prependInt64 x

def retrieveInt (b : Buffer) : Width → Except Fault Buffer
  | .int8 => b.retrieveInt8
  | .int16 => b.retrieveInt16
  | .int32 => b.retrieveInt32
  | .int64 => b.retrieveInt64

def readInt (b : Buffer) : (w : Width) → Except Fault (Buffer × BitVec (8 * w.size))
  | .int8 => b.readInt8
  | .int16 => b.readInt16
  | .int32 => b.readInt32
  | .int64 => b.readInt64

theorem appendInt_eq (b : Buffer) (w : Width) (x : BitVec (8 * w.size)) :
    appendInt b w x = b.append (BigEndian.toBytes w.size x.toNat) := by
  cases w <;> rfl

theorem prependInt_eq (b : Buffer) (w : Width) (x : BitVec (8 * w.size)) :
    prependInt b w x = b.prepend (BigEndian.toBytes w.size x.toNat) := by
  cases w <;> rfl

theorem retrieveInt_eq (b : Buffer) (w : Width) : retrieveInt b w = b.retrieve w.size := by
  cases w <;> rfl

theorem readInt_eq (b : Buffer) (w : Width) : readInt b w = Buffer.readInt w.size b := by
  cases w <;> rfl

end Width

/-- The operations on one buffer. `retrieveUntil n` is given `peek() + n`;
`written data len` writes `data` at `beginWrite()` and calls `hasWritten(len)`. -/
inductive Operation where
  | append (data : Bytes)
  | appendInt (w : Width) (x : BitVec (8 * w.size))
  | prepend (data : Bytes)
  | prependInt (w : Width) (x : BitVec (8 * w.size))
  | retrieve (len : Nat)
  | retrieveUntil (n : Nat)
  | retrieveInt (w : Width)
  | retrieveAll
  | retrieveAsString (len : Nat)
  | retrieveAllAsString
  | readInt (w : Width)
  | unwrite (len : Nat)
  | ensureWritableBytes (len : Nat)
  | written (data : Bytes) (len : Nat)

/-- What an operation returns. -/
inductive Answer where
  | void
  | str (s : Bytes)
  | int (w : Width) (x : BitVec (8 * w.size))
  deriving Repr, DecidableEq

/-- An operation that returns `void`. -/
def silent (r : Except Fault Buffer) : Except Fault (Buffer × Answer) := r.map fun b => (b, .void)

def Operation.onBuffer (b : Buffer) : Operation → Except Fault (Buffer × Answer)
  | .append data => silent (b.append data)
  | .appendInt w x => silent (w.appendInt b x)
  | .prepend data => silent (b.prepend data)
  | .prependInt w x => silent (w.prependInt b x)
  | .retrieve len => silent (b.retrieve len)
  | .retrieveUntil n => silent (b.retrieveUntil n)
  | .retrieveInt w => silent (w.retrieveInt b)
  | .retrieveAll => .ok (b.retrieveAll, .void)
  | .retrieveAsString len => (b.retrieveAsString len).map fun r => (r.1, .str r.2)
  | .retrieveAllAsString => b.retrieveAllAsString.map fun r => (r.1, .str r.2)
  | .readInt w => (w.readInt b).map fun r => (r.1, .int w r.2)
  | .unwrite len => silent (b.unwrite len)
  | .ensureWritableBytes len => silent (b.ensureWritableBytes len)
  | .written data len => silent ((b.copyIn data).hasWritten len)

/-- What the `assert`s at the head of an operation demand of its arguments, and
of bytes written at `beginWrite()` that they stay inside the vector. -/
def Operation.Asserts (b : Buffer) : Operation → Prop
  | .prepend data => data.length ≤ b.prependableBytes
  | .prependInt w _ => w.size ≤ b.prependableBytes
  | .retrieve len => len ≤ b.readableBytes
  | .retrieveUntil n => n ≤ b.readableBytes
  | .retrieveInt w => w.size ≤ b.readableBytes
  | .retrieveAsString len => len ≤ b.readableBytes
  | .readInt w => w.size ≤ b.readableBytes
  | .unwrite len => len ≤ b.readableBytes
  | .written data len => data.length ≤ b.writableBytes ∧ len ≤ data.length
  | _ => True

instance (b : Buffer) : (op : Operation) → Decidable (op.Asserts b)
  | .prepend _ | .prependInt _ _ | .retrieve _ | .retrieveUntil _ | .retrieveInt _
  | .retrieveAsString _ | .readInt _ | .unwrite _ => inferInstanceAs (Decidable (_ ≤ _))
  | .written _ _ => inferInstanceAs (Decidable (_ ∧ _))
  | .append _ | .appendInt _ _ | .retrieveAll | .retrieveAllAsString
  | .ensureWritableBytes _ => inferInstanceAs (Decidable True)

/-- The operation on a queue of bytes. -/
def Operation.onDeque (d : Bytes) : Operation → Bytes × Answer
  | .append data => (d ++ data, .void)
  | .appendInt w x => (d ++ BigEndian.toBytes w.size x.toNat, .void)
  | .prepend data => (data ++ d, .void)
  | .prependInt w x => (BigEndian.toBytes w.size x.toNat ++ d, .void)
  | .retrieve len => (d.drop len, .void)
  | .retrieveUntil n => (d.drop n, .void)
  | .retrieveInt w => (d.drop w.size, .void)
  | .retrieveAll => ([], .void)
  | .retrieveAsString len => (d.drop len, .str (d.take len))
  | .retrieveAllAsString => ([], .str d)
  | .readInt w => (d.drop w.size, .int w (BitVec.ofNat _ (BigEndian.ofBytes (d.take w.size))))
  | .unwrite len => (d.take (d.length - len), .void)
  | .ensureWritableBytes _ => (d, .void)
  | .written data len => (d ++ data.take len, .void)

theorem silent_ok {r : Except Fault Buffer} {d : Bytes}
    (h : ∃ b', r = .ok b' ∧ b'.readable = d) :
    ∃ b' a, silent r = .ok (b', a) ∧ (d, Answer.void) = (b'.readable, a) := by
  obtain ⟨b', rfl, rfl⟩ := h
  exact ⟨b', .void, rfl, rfl⟩

/-- **One operation.** If its arguments meet the asserts it does not fail, and does to
the readable bytes what it does to a queue. -/
theorem Operation.refines (b : Buffer) (op : Operation) (h : op.Asserts b) :
    ∃ b' a, op.onBuffer b = .ok (b', a) ∧ op.onDeque b.readable = (b'.readable, a) := by
  cases op with
  | append data => exact silent_ok (b.append_readable data)
  | appendInt w x =>
    refine silent_ok ?_
    rw [w.appendInt_eq]
    exact b.append_readable _
  | prepend data => exact silent_ok (b.prepend_ok data h)
  | prependInt w x =>
    refine silent_ok ?_
    rw [w.prependInt_eq]
    exact b.prepend_ok _ ((BigEndian.toBytes_length _ _).le.trans h)
  | retrieve len => exact silent_ok (b.retrieve_ok len h)
  | retrieveUntil n => exact silent_ok (b.retrieve_ok n h)
  | retrieveInt w =>
    refine silent_ok ?_
    rw [w.retrieveInt_eq]
    exact b.retrieve_ok w.size h
  | retrieveAll => exact ⟨b.retrieveAll, .void, rfl, by rw [retrieveAll_readable]; rfl⟩
  | retrieveAsString len =>
    obtain ⟨b', hb, hread⟩ := b.retrieveAsString_ok len h
    exact ⟨b', _, by rw [onBuffer, hb]; rfl, by rw [onDeque, hread]⟩
  | retrieveAllAsString =>
    obtain ⟨b', hb, hread⟩ := b.retrieveAsString_ok b.readableBytes (Nat.le_refl _)
    rw [← readable_length, List.drop_length] at hread
    rw [← readable_length, List.take_length, readable_length] at hb
    exact ⟨b', _, by rw [onBuffer, Buffer.retrieveAllAsString, hb]; rfl, by rw [onDeque, hread]⟩
  | readInt w =>
    obtain ⟨b', hb, hread⟩ := b.readInt_ok w.size h
    exact ⟨b', _, by rw [onBuffer, w.readInt_eq, hb]; rfl, by rw [onDeque, hread]⟩
  | unwrite len =>
    obtain ⟨b', hb, hread⟩ := b.unwrite_ok len h
    rw [← readable_length] at hread
    exact silent_ok ⟨b', hb, hread⟩
  | ensureWritableBytes len =>
    obtain ⟨b', hb, -, hread, -⟩ := b.ensureWritableBytes_ok len
    exact silent_ok ⟨b', hb, hread⟩
  | written data len => exact silent_ok (b.copyIn_hasWritten_le data len h.1 h.2)

/-! ## Several buffers -/

section Several

variable {ι : Type} [DecidableEq ι]

/-- An operation on one of the buffers, or the exchange of two. -/
inductive Label (ι : Type) where
  | on (i : ι) (op : Operation)
  | swap (i j : ι)

def step (s : ι → Buffer) : Label ι → Except Fault ((ι → Buffer) × Answer)
  | .on i op => (op.onBuffer (s i)).map fun r => (Function.update s i r.1, r.2)
  | .swap i j =>
    let (x, y) := (s i).swap (s j)
    .ok (Function.update (Function.update s i x) j y, .void)

def Asserts (s : ι → Buffer) : Label ι → Prop
  | .on i op => op.Asserts (s i)
  | .swap _ _ => True

instance (s : ι → Buffer) : (l : Label ι) → Decidable (Asserts s l)
  | .on i op => inferInstanceAs (Decidable (op.Asserts (s i)))
  | .swap _ _ => inferInstanceAs (Decidable True)

/-- The queues that the buffers stand for. -/
def contents (s : ι → Buffer) : ι → Bytes := readable ∘ s

def after (d : ι → Bytes) : Label ι → (ι → Bytes) × Answer
  | .on i op => (Function.update d i (op.onDeque (d i)).1, (op.onDeque (d i)).2)
  | .swap i j => (Function.update (Function.update d i (d j)) j (d i), .void)

theorem contents_update (s : ι → Buffer) (i : ι) (b : Buffer) :
    contents (Function.update s i b) = Function.update (contents s) i b.readable :=
  Function.comp_update readable s i b

theorem step_refines (s : ι → Buffer) (l : Label ι) (h : Asserts s l) :
    ∃ s' a, step s l = .ok (s', a) ∧ after (contents s) l = (contents s', a) := by
  cases l with
  | on i op =>
    obtain ⟨b', a, hb, hd⟩ := op.refines (s i) h
    refine ⟨Function.update s i b', a, by rw [step, hb]; rfl, ?_⟩
    have hd' : op.onDeque (contents s i) = (b'.readable, a) := hd
    rw [after, hd', contents_update]
  | swap i j =>
    refine ⟨_, _, rfl, ?_⟩
    simp only [contents_update]
    rfl

/-- **A buffer is a queue of bytes.** Buffers of any initial size are worked on as the
asserts on the arguments allow. Then no assert fails, those inside `makeSpace` and
`ensureWritableBytes` included; the readable bytes and all answers are those of queues
that start empty; the indices stay in order; and `ensureWritableBytes` would give the
room asked for without changing what is readable. -/
theorem buffers_are_deques (initialSize : ι → Nat) (ls : List (Label ι))
    (h : Guarded (landed step) Asserts (fun i => ofSize (initialSize i)) ls) :
    ∃ s answers, exec step (fun i => ofSize (initialSize i)) ls = .ok (s, answers) ∧
      follow after (fun _ => []) ls = (contents s, answers) ∧
      ∀ i, (s i).readerIndex ≤ (s i).writerIndex ∧ (s i).writerIndex ≤ (s i).buffer.length ∧
        kCheapPrepend ≤ (s i).buffer.length ∧
        ∀ n, ∃ b', (s i).ensureWritableBytes n = .ok b' ∧ n ≤ b'.writableBytes ∧
          b'.readable = (s i).readable := by
  obtain ⟨s, answers, hs, hd⟩ := exec_refines contents step_refines ls _ h
  have hempty : contents (fun i => ofSize (initialSize i)) = fun _ => [] :=
    funext fun i => readable_ofSize (initialSize i)
  rw [hempty] at hd
  refine ⟨s, answers, hs, hd, fun i => ⟨(s i).reader_le, (s i).writer_le, (s i).cheap_le, ?_⟩⟩
  intro n
  obtain ⟨b', hb, hroom, hread, -⟩ := (s i).ensureWritableBytes_ok n
  exact ⟨b', hb, hroom, hread⟩

/-- Two buffers, the first of size zero: it has to grow, is read as an integer and as a
string, and changes places with the second. -/
theorem two_buffers_are_deques :
    ∃ s answers, exec step (fun i : Bool => ofSize (if i then 4 else 0))
        [.on false (.append (bytes "abcdef")), .on false (.readInt .int16), .swap false true,
          .on true (.prependInt .int32 7), .on true (.ensureWritableBytes 9),
          .on true (.written (bytes "xyz") 2), .on true (.unwrite 1),
          .on true (.retrieve 3), .on true (.retrieveAsString 2)] = .ok (s, answers) ∧
      contents s true = bytes "defx" ∧
      answers = [.void, .int .int16 0x6162, .void, .void, .void, .void, .void, .void,
        .str [7, 99]] := by
  obtain ⟨s, answers, hs, hd, -⟩ := buffers_are_deques (fun i : Bool => if i then 4 else 0)
    [.on false (.append (bytes "abcdef")), .on false (.readInt .int16), .swap false true,
      .on true (.prependInt .int32 7), .on true (.ensureWritableBytes 9),
      .on true (.written (bytes "xyz") 2), .on true (.unwrite 1),
      .on true (.retrieve 3), .on true (.retrieveAsString 2)] (by decide +kernel)
  refine ⟨s, answers, hs, ?_, ?_⟩
  · have hcontents : _ = contents s true := congrFun (congrArg Prod.fst hd) true
    rw [← hcontents]
    decide +kernel
  · have hanswers : _ = answers := congrArg Prod.snd hd
    rw [← hanswers]
    decide +kernel

end Several

end Cppim.Common.ByteDeque
