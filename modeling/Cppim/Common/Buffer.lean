import Cppim.Common.Basic
import Cppim.Lib.BigEndian
import Cppim.Lib.Cut

/-! `common/Buffer.h`: one vector with a reader and a writer index.

The indices are kept in order by the type. An operation whose `assert` can fail
returns `Except Fault`; the lemma `op_ok` beside it says when it returns and what
the readable bytes are then. A size is a `Nat`: the vector never reaches
`2^64` bytes. -/

namespace Cppim.Common

open Cppim.Lib

def kCheapPrepend : Nat := 8
def kInitialSize : Nat := 1024

/-- `0 <= readerIndex <= writerIndex <= size`, and the vector always has room for
the reserved prefix. -/
structure Buffer where
  buffer : Bytes
  readerIndex : Nat
  writerIndex : Nat
  reader_le : readerIndex ≤ writerIndex
  writer_le : writerIndex ≤ buffer.length
  cheap_le : kCheapPrepend ≤ buffer.length
  deriving Repr, DecidableEq

namespace Buffer

/-- `Buffer(initialSize)` -/
def ofSize (initialSize : Nat) : Buffer where
  buffer := List.replicate (kCheapPrepend + initialSize) 0
  readerIndex := kCheapPrepend
  writerIndex := kCheapPrepend
  reader_le := Nat.le_refl _
  writer_le := by simp
  cheap_le := by simp

def readableBytes (b : Buffer) : Nat := b.writerIndex - b.readerIndex
def writableBytes (b : Buffer) : Nat := b.buffer.length - b.writerIndex
def prependableBytes (b : Buffer) : Nat := b.readerIndex

/-- The memory that starts at `peek()`: the readable bytes and, behind them,
whatever the rest of the vector holds. -/
def peek (b : Buffer) : Bytes := b.buffer.drop b.readerIndex

/-- The bytes from `peek()` to `beginWrite()`. -/
def readable (b : Buffer) : Bytes := b.peek.take b.readableBytes

@[simp] theorem readable_length (b : Buffer) : b.readable.length = b.readableBytes := by
  have h₁ := b.reader_le
  have h₂ := b.writer_le
  simp only [readable, peek, readableBytes, List.length_take, List.length_drop]
  omega

@[simp] theorem readable_ofSize (n : Nat) : (ofSize n).readable = [] := by
  simp [readable, readableBytes, ofSize]

theorem readable_eq_nil_iff (b : Buffer) : b.readable = [] ↔ b.readableBytes = 0 := by
  rw [← List.length_eq_zero_iff, readable_length]

theorem readerIndex_add (b : Buffer) : b.readerIndex + b.readableBytes = b.writerIndex := by
  have := b.reader_le
  simp only [readableBytes]
  omega

/-- The vector is prependable bytes, readable bytes and writable bytes. -/
theorem layout (b : Buffer) : ∃ front back, b.buffer = front ++ b.readable ++ back ∧
    front.length = b.readerIndex ∧ back.length = b.writableBytes := by
  have h₁ := b.reader_le
  have h₂ := b.writer_le
  refine ⟨b.buffer.take b.readerIndex, b.buffer.drop b.writerIndex, ?_, ?_, ?_⟩
  · have hd : b.buffer.drop b.writerIndex = b.peek.drop b.readableBytes := by
      rw [peek, List.drop_drop, readableBytes, Nat.add_sub_cancel' h₁]
    rw [hd, List.append_assoc, readable, List.take_append_drop, peek, List.take_append_drop]
  · simp only [List.length_take]; omega
  · simp [writableBytes]

/-- How the layout of a vector determines the readable bytes. -/
theorem readable_of_layout (b : Buffer) (front mid back : Bytes)
    (hb : b.buffer = front ++ mid ++ back) (hr : b.readerIndex = front.length)
    (hw : b.writerIndex = front.length + mid.length) : b.readable = mid := by
  simp [readable, peek, readableBytes, hb, hr, hw]

/-- `peek()` reaches the readable bytes first. -/
theorem peek_take (b : Buffer) (n : Nat) (h : n ≤ b.readableBytes) :
    b.peek.take n = b.readable.take n := by
  rw [readable, List.take_take, Nat.min_eq_left h]

/-- Behind the readable bytes `peek()` goes on to the end of the vector. -/
theorem peek_eq (b : Buffer) : ∃ back, b.peek = b.readable ++ back :=
  ⟨b.peek.drop b.readableBytes, (List.take_append_drop _ _).symm⟩

/-- The reserved prefix is still in front of the readable bytes. -/
def Reserved (b : Buffer) : Prop := kCheapPrepend ≤ b.readerIndex

theorem reserved_ofSize (n : Nat) : (ofSize n).Reserved := Nat.le_refl _

/-- `b.swap(rhs)`: the vectors and both indices change places. -/
def swap (b rhs : Buffer) : Buffer × Buffer :=
  ({ b with
      buffer := rhs.buffer
      readerIndex := rhs.readerIndex
      writerIndex := rhs.writerIndex
      reader_le := rhs.reader_le
      writer_le := rhs.writer_le
      cheap_le := rhs.cheap_le },
    { rhs with
      buffer := b.buffer
      readerIndex := b.readerIndex
      writerIndex := b.writerIndex
      reader_le := b.reader_le
      writer_le := b.writer_le
      cheap_le := b.cheap_le })

/-! ## Lines -/

def kCRLF : Bytes := bytes "\r\n"

/-- `findCRLF() - peek()`, or `none` for `NULL` -/
def findCRLF (b : Buffer) : Option Nat := (Cut.cut kCRLF b.readable).map fun p => p.1.length

/-! ## Retrieving -/

def retrieveAll (b : Buffer) : Buffer :=
  { b with
    readerIndex := kCheapPrepend
    writerIndex := kCheapPrepend
    reader_le := Nat.le_refl _
    writer_le := b.cheap_le }

def retrieve (b : Buffer) (len : Nat) : Except Fault Buffer :=
  if h : len ≤ b.readableBytes then
    if len < b.readableBytes then
      .ok { b with
        readerIndex := b.readerIndex + len
        reader_le := by have := b.reader_le; simp only [readableBytes] at h; omega }
    else .ok b.retrieveAll
  else .error .assertion

/-- `retrieveUntil(peek() + n)` -/
def retrieveUntil (b : Buffer) (n : Nat) : Except Fault Buffer := b.retrieve n

/-- The string is no longer than the vector, so it can always be built. -/
def retrieveAsString (b : Buffer) (len : Nat) : Except Fault (Buffer × Bytes) := do
  assert (len ≤ b.readableBytes)
  let result := b.peek.take len
  let b ← b.retrieve len
  return (b, result)

def retrieveAllAsString (b : Buffer) : Except Fault (Buffer × Bytes) :=
  b.retrieveAsString b.readableBytes

@[simp] theorem retrieveAll_readable (b : Buffer) : b.retrieveAll.readable = [] := by
  simp [readable, readableBytes, retrieveAll]

theorem retrieve_ok (b : Buffer) (len : Nat) (h : len ≤ b.readableBytes) :
    ∃ b', b.retrieve len = .ok b' ∧ b'.readable = b.readable.drop len := by
  simp only [retrieve, h, ↓reduceDIte]
  split
  · refine ⟨_, rfl, ?_⟩
    have he : b.writerIndex - (b.readerIndex + len) = b.writerIndex - b.readerIndex - len := by
      omega
    simp only [readable, readableBytes, peek, List.drop_take, List.drop_drop, he]
  · refine ⟨_, rfl, ?_⟩
    rw [retrieveAll_readable, List.drop_eq_nil_of_le (by rw [readable_length]; omega)]

theorem retrieveAsString_ok (b : Buffer) (len : Nat) (h : len ≤ b.readableBytes) :
    ∃ b', b.retrieveAsString len = .ok (b', b.readable.take len) ∧
      b'.readable = b.readable.drop len := by
  obtain ⟨b', hb, hread⟩ := b.retrieve_ok len h
  exact ⟨b', by simp [retrieveAsString, h, hb, b.peek_take len h], hread⟩

/-- Either there is no CRLF, or there is a line in front of the first one, and a buffer
behind it. -/
theorem line_cases (b : Buffer) :
    b.findCRLF = none ∧ Cut.cut kCRLF b.readable = none ∨
    ∃ line rest b', b.findCRLF = some line.length ∧
      Cut.cut kCRLF b.readable = some (line, rest) ∧ b.peek.take line.length = line ∧
      b.retrieveUntil (line.length + 2) = .ok b' ∧ b'.readable = rest := by
  cases hcut : Cut.cut kCRLF b.readable with
  | none => exact Or.inl ⟨by rw [findCRLF, hcut]; rfl, rfl⟩
  | some p =>
    obtain ⟨line, rest⟩ := p
    have hr : b.readable = line ++ kCRLF ++ rest := Cut.eq_of_cut hcut
    have hlen : b.readableBytes = line.length + 2 + rest.length := by
      rw [← b.readable_length, hr]
      simp [kCRLF, bytes]
      omega
    have hpeek : b.peek.take line.length = line := by
      rw [b.peek_take _ (by omega), hr, List.append_assoc, List.take_left']
      rfl
    obtain ⟨b', hb', hread⟩ := b.retrieve_ok (line.length + 2) (by omega)
    refine Or.inr ⟨line, rest, b', by rw [findCRLF, hcut]; rfl, rfl, hpeek, hb', ?_⟩
    rw [hread, hr, List.drop_left']
    simp [kCRLF, bytes]

/-- A retrieve that leaves something moves the reader and nothing else. -/
theorem retrieve_peek {b b' : Buffer} {len : Nat} (hb : b.retrieve len = .ok b')
    (h : len < b.readableBytes) : b'.peek = b.peek.drop len := by
  simp only [retrieve, Nat.le_of_lt h, h, ↓reduceDIte, ↓reduceIte, Except.ok.injEq] at hb
  rw [← hb, peek, peek, List.drop_drop]

/-- Whatever is retrieved, the memory stays as it is, and an emptied buffer starts over. -/
theorem retrieve_buffer {b b' : Buffer} {len : Nat} (hb : b.retrieve len = .ok b') :
    b'.buffer = b.buffer ∧ (b'.readable = [] → b'.readerIndex = kCheapPrepend) := by
  unfold retrieve at hb
  split at hb
  · split at hb
    · rename_i hlt
      cases hb
      refine ⟨rfl, fun hnil => absurd ((readable_eq_nil_iff _).mp hnil) ?_⟩
      simp only [readableBytes] at hlt ⊢
      omega
    · cases hb
      exact ⟨rfl, fun _ => rfl⟩
  · cases hb

theorem retrieve_readableBytes {b b' : Buffer} {len : Nat} (h : len ≤ b.readableBytes)
    (hr : b'.readable = b.readable.drop len) : b'.readableBytes + len = b.readableBytes := by
  have hlen := congrArg List.length hr
  simp only [readable_length, List.length_drop] at hlen
  omega

theorem retrieve_error (b : Buffer) (len : Nat) (h : ¬ len ≤ b.readableBytes) :
    b.retrieve len = .error .assertion := by
  simp [retrieve, h]

/-! ## Appending -/

/-- `std::copy(data, data + len, beginWrite())`; the vector keeps its size. -/
def copyIn (b : Buffer) (data : Bytes) : Buffer :=
  { b with
    buffer := (b.buffer.take b.writerIndex ++ data ++
      b.buffer.drop (b.writerIndex + data.length)).take b.buffer.length
    writer_le := by have := b.writer_le; simp; omega
    cheap_le := by have := b.cheap_le; simp; omega }

def hasWritten (b : Buffer) (len : Nat) : Except Fault Buffer :=
  if h : len ≤ b.writableBytes then
    .ok { b with
      writerIndex := b.writerIndex + len
      reader_le := by have := b.reader_le; omega
      writer_le := by have := b.writer_le; simp only [writableBytes] at h; omega }
  else .error .assertion

def unwrite (b : Buffer) (len : Nat) : Except Fault Buffer :=
  if h : len ≤ b.readableBytes then
    .ok { b with
      writerIndex := b.writerIndex - len
      reader_le := by have := b.reader_le; simp only [readableBytes] at h; omega
      writer_le := by have := b.writer_le; omega }
  else .error .assertion

/-- `std::vector<char>::resize` -/
def resize (v : Bytes) (n : Nat) : Bytes := v.take n ++ List.replicate (n - v.length) 0

/-- Grow the vector, or move the readable bytes to its front. Only
`ensureWritableBytes` calls it, and only when the room is short. -/
def makeSpace (b : Buffer) (len : Nat) (hshort : b.writableBytes < len) : Except Fault Buffer :=
  if b.writableBytes + b.prependableBytes < len + kCheapPrepend then
    .ok { b with
      buffer := resize b.buffer (b.writerIndex + len)
      writer_le := by simp only [writableBytes] at hshort; simp [resize]; omega
      cheap_le := by
        have := b.cheap_le
        simp only [writableBytes] at hshort
        simp [resize]
        omega }
  else do
    assert (kCheapPrepend < b.readerIndex)
    let moved : Buffer := { b with
      buffer := b.buffer.take kCheapPrepend ++ b.readable ++
        b.buffer.drop (kCheapPrepend + b.readableBytes)
      readerIndex := kCheapPrepend
      writerIndex := kCheapPrepend + b.readableBytes
      reader_le := by omega
      writer_le := by have := b.cheap_le; simp; omega
      cheap_le := by have := b.cheap_le; simp; omega }
    assert (b.readableBytes = moved.readableBytes)
    return moved

def ensureWritableBytes (b : Buffer) (len : Nat) : Except Fault Buffer := do
  let b ← if h : b.writableBytes < len then b.makeSpace len h else .ok b
  assert (len ≤ b.writableBytes)
  return b

def append (b : Buffer) (data : Bytes) : Except Fault Buffer := do
  let b ← b.ensureWritableBytes data.length
  (b.copyIn data).hasWritten data.length

/-- The move branch is taken only when the reader has left the reserved prefix,
so its first `assert` holds. -/
theorem makeSpace_ok (b : Buffer) (len : Nat) (hshort : b.writableBytes < len) :
    ∃ b', b.makeSpace len hshort = .ok b' ∧ len ≤ b'.writableBytes ∧ b'.readable = b.readable ∧
      (b.Reserved → b'.Reserved) := by
  have hw := b.writer_le
  have hn := hshort
  have hlen := b.readable_length
  have hadd := b.readerIndex_add
  obtain ⟨front, back, hb, hf, hk⟩ := b.layout
  simp only [writableBytes] at hn
  by_cases hgrow : b.writableBytes + b.prependableBytes < len + kCheapPrepend
  · simp only [makeSpace, hgrow, ↓reduceIte]
    refine ⟨_, rfl, ?_, ?_, id⟩
    · simp [writableBytes, resize]
      omega
    · refine readable_of_layout _ front b.readable
        (back ++ List.replicate (b.writerIndex + len - b.buffer.length) 0) ?_ hf.symm
        (by show b.writerIndex = _; omega)
      show resize b.buffer (b.writerIndex + len) = _
      rw [resize, List.take_of_length_le (by omega), ← List.append_assoc, ← hb]
  · have hassert : kCheapPrepend < b.readerIndex := by
      simp only [prependableBytes] at hgrow
      omega
    have hc := b.cheap_le
    simp only [makeSpace, hgrow, ↓reduceIte, assert_of _ hassert, ok_bind]
    rw [assert_of _ (by simp [readableBytes])]
    refine ⟨_, rfl, ?_, ?_, fun _ => Nat.le_refl _⟩
    · simp only [writableBytes, prependableBytes] at hgrow
      simp [writableBytes, readableBytes]
      omega
    · exact readable_of_layout _ (b.buffer.take kCheapPrepend) b.readable
        (b.buffer.drop (kCheapPrepend + b.readableBytes)) rfl (by simp; omega)
        (by simp; omega)

theorem ensureWritableBytes_ok (b : Buffer) (len : Nat) :
    ∃ b', b.ensureWritableBytes len = .ok b' ∧ len ≤ b'.writableBytes ∧
      b'.readable = b.readable ∧ (b.Reserved → b'.Reserved) := by
  by_cases h : b.writableBytes < len
  · obtain ⟨b', hb, hw, hr⟩ := b.makeSpace_ok len h
    exact ⟨b', by simp [ensureWritableBytes, h, hb, hw], hw, hr⟩
  · have hw : len ≤ b.writableBytes := by omega
    exact ⟨b, by simp [ensureWritableBytes, h, hw], hw, rfl, id⟩

/-- Writing into the writable area and claiming it puts the bytes behind the
readable ones. -/
theorem copyIn_hasWritten_ok (b : Buffer) (data : Bytes) (h : data.length ≤ b.writableBytes) :
    ∃ b', (b.copyIn data).hasWritten data.length = .ok b' ∧
      b'.readable = b.readable ++ data ∧ (b.Reserved → b'.Reserved) := by
  have hw := b.writer_le
  have hadd := b.readerIndex_add
  obtain ⟨front, back, hb, hf, hk⟩ := b.layout
  have hroom : data.length ≤ (b.copyIn data).writableBytes := by
    simp only [writableBytes] at h
    simp [writableBytes, copyIn]
    omega
  have htake : b.buffer.take b.writerIndex = front ++ b.readable := by
    rw [hb, List.take_append_of_le_length (by simp; omega),
      List.take_of_length_le (by simp; omega)]
  simp only [hasWritten, hroom, ↓reduceDIte]
  refine ⟨_, rfl, ?_, id⟩
  refine readable_of_layout _ front (b.readable ++ data)
    (b.buffer.drop (b.writerIndex + data.length)) ?_ hf.symm ?_
  · have hfit : (front ++ b.readable ++ data ++
        b.buffer.drop (b.writerIndex + data.length)).length ≤ b.buffer.length := by
      simp only [List.length_append, readable_length, List.length_drop]
      simp only [writableBytes] at h
      omega
    simp only [copyIn, htake]
    rw [List.take_of_length_le hfit]
    simp only [List.append_assoc]
  · simp only [copyIn, List.length_append, readable_length]
    omega

/-- `hasWritten` lets the reader see what stands in the writable area. -/
theorem hasWritten_ok (b : Buffer) (len : Nat) (h : len ≤ b.writableBytes) :
    ∃ b', b.hasWritten len = .ok b' ∧ b'.readable = b.peek.take (b.readableBytes + len) := by
  have hr := b.reader_le
  simp only [hasWritten, h, ↓reduceDIte]
  refine ⟨_, rfl, ?_⟩
  have he : b.writerIndex + len - b.readerIndex = b.writerIndex - b.readerIndex + len := by
    omega
  simp only [readable, readableBytes, peek, he]

/-- Of the bytes written into the writable area only those claimed become readable. -/
theorem copyIn_hasWritten_le (b : Buffer) (data : Bytes) (len : Nat)
    (h : data.length ≤ b.writableBytes) (hlen : len ≤ data.length) :
    ∃ b', (b.copyIn data).hasWritten len = .ok b' ∧
      b'.readable = b.readable ++ data.take len := by
  obtain ⟨full, hfull, hread, -⟩ := b.copyIn_hasWritten_ok data h
  have hroom : data.length ≤ (b.copyIn data).writableBytes := by
    by_contra hroom
    simp [hasWritten, hroom] at hfull
  obtain ⟨full', hfull', hpeek⟩ := (b.copyIn data).hasWritten_ok data.length hroom
  obtain rfl : full = full' := Except.ok.inj (hfull.symm.trans hfull')
  obtain ⟨b', hb', hread'⟩ := (b.copyIn data).hasWritten_ok len (Nat.le_trans hlen hroom)
  refine ⟨b', hb', ?_⟩
  have hcopy : (b.copyIn data).readableBytes = b.readable.length := b.readable_length.symm
  rw [hcopy] at hpeek hread'
  calc b'.readable
      = ((b.copyIn data).peek.take (b.readable.length + data.length)).take
          (b.readable.length + len) := by
        rw [hread', List.take_take, Nat.min_eq_left (by omega)]
    _ = (b.readable ++ data).take (b.readable.length + len) := by rw [← hpeek, hread]
    _ = b.readable ++ data.take len := List.take_length_add_append len

/-- `unwrite` takes the last bytes back. -/
theorem unwrite_ok (b : Buffer) (len : Nat) (h : len ≤ b.readableBytes) :
    ∃ b', b.unwrite len = .ok b' ∧ b'.readable = b.readable.take (b.readableBytes - len) := by
  simp only [unwrite, h, ↓reduceDIte]
  refine ⟨_, rfl, ?_⟩
  have he : b.writerIndex - len - b.readerIndex = b.writerIndex - b.readerIndex - len := by
    omega
  simp only [readable, readableBytes, peek, he, List.take_take, Nat.min_eq_left (Nat.sub_le _ _)]

theorem append_ok (b : Buffer) (data : Bytes) :
    ∃ b', b.append data = .ok b' ∧ b'.readable = b.readable ++ data ∧
      (b.Reserved → b'.Reserved) := by
  obtain ⟨b₁, h₁, hw, hr, hs₁⟩ := b.ensureWritableBytes_ok data.length
  obtain ⟨b₂, h₂, hd, hs₂⟩ := b₁.copyIn_hasWritten_ok data hw
  exact ⟨b₂, by simp [append, h₁, h₂], by rw [hd, hr], fun h => hs₂ (hs₁ h)⟩

/-- What `append` does to the unread bytes. -/
theorem append_readable (b : Buffer) (data : Bytes) :
    ∃ b', b.append data = .ok b' ∧ b'.readable = b.readable ++ data := by
  obtain ⟨b', h, hread, -⟩ := b.append_ok data
  exact ⟨b', h, hread⟩

/-- The reader stays where it is, or goes to the front with the unread bytes. -/
theorem append_readerIndex {b b' : Buffer} {data : Bytes} (h : b.append data = .ok b') :
    b'.readerIndex = b.readerIndex ∨ b'.readerIndex = kCheapPrepend := by
  have hwritten : ∀ {b₁ : Buffer}, (b₁.copyIn data).hasWritten data.length = .ok b' →
      b'.readerIndex = b₁.readerIndex := by
    intro b₁ hb
    unfold hasWritten at hb
    split at hb
    · cases hb
      rfl
    · cases hb
  by_cases hshort : b.writableBytes < data.length
  · obtain ⟨b₁, hspace, hroom, -⟩ := b.makeSpace_ok data.length hshort
    have hensure : b.ensureWritableBytes data.length = .ok b₁ := by
      simp [ensureWritableBytes, hshort, hspace, hroom]
    rw [append, hensure] at h
    rw [hwritten h]
    unfold makeSpace at hspace
    split at hspace
    · cases hspace
      exact Or.inl rfl
    · simp only [assert] at hspace
      split at hspace
      · split at hspace
        · cases hspace
          exact Or.inr rfl
        · cases hspace
      · cases hspace
  · have hensure : b.ensureWritableBytes data.length = .ok b := by
      simp [ensureWritableBytes, hshort, Nat.not_lt.mp hshort]
    rw [append, hensure] at h
    exact Or.inl (hwritten h)

/-- With room behind the unread bytes nothing is moved: the data replaces what stood there. -/
theorem append_peek {b : Buffer} {back : Bytes} (hpeek : b.peek = b.readable ++ back)
    (data : Bytes) (hroom : data.length ≤ back.length) :
    ∃ b', b.append data = .ok b' ∧ b'.readable = b.readable ++ data ∧
      b'.peek = b.readable ++ data ++ back.drop data.length := by
  have hr := b.reader_le
  have hw := b.writer_le
  have hlen := congrArg List.length hpeek
  simp only [peek, List.length_drop, List.length_append, readable_length, readableBytes] at hlen
  have hwritable : data.length ≤ b.writableBytes := by
    simp only [writableBytes]
    omega
  have hensure : b.ensureWritableBytes data.length = .ok b := by
    simp [ensureWritableBytes, Nat.not_lt.mpr hwritable, hwritable]
  obtain ⟨b', hb', hread, -⟩ := b.copyIn_hasWritten_ok data hwritable
  refine ⟨b', by simp [append, hensure, hb'], hread, ?_⟩
  -- the vector in front of the written bytes and behind them is the old one
  have hbuffer : b'.buffer = b.buffer.take b.writerIndex ++ data ++
      b.buffer.drop (b.writerIndex + data.length) ∧ b'.readerIndex = b.readerIndex := by
    unfold hasWritten at hb'
    split at hb'
    · cases hb'
      refine ⟨List.take_of_length_le ?_, rfl⟩
      simp only [List.length_append, List.length_take, List.length_drop]
      omega
    · cases hb'
  have hfront : (b.buffer.take b.writerIndex).drop b.readerIndex = b.readable := by
    rw [List.drop_take]
    rfl
  have hback : back.drop data.length = b.buffer.drop (b.writerIndex + data.length) := by
    have hdrop : b.peek.drop b.readableBytes = back := by
      rw [hpeek, List.drop_left' b.readable_length]
    rw [← hdrop, peek, List.drop_drop, List.drop_drop, ← Nat.add_assoc, b.readerIndex_add]
  rw [peek, hbuffer.1, hbuffer.2, hback, List.append_assoc, List.drop_append_of_le_length, hfront,
    List.append_assoc]
  rw [List.length_take]
  omega

/-! ## Texts put together from appends -/

/-- The program appends these bytes, whatever the buffer holds. -/
def Appends (f : Buffer → Except Fault Buffer) (data : Bytes) : Prop :=
  ∀ b, ∃ b', f b = .ok b' ∧ b'.readable = b.readable ++ data

theorem appends_append (data : Bytes) : Appends (·.append data) data :=
  fun b => b.append_readable data

theorem Appends.bind {f g : Buffer → Except Fault Buffer} {data more : Bytes}
    (hf : Appends f data) (hg : Appends g more) : Appends (fun b => f b >>= g) (data ++ more) := by
  intro b
  obtain ⟨b₁, h₁, hread₁⟩ := hf b
  obtain ⟨b₂, h₂, hread₂⟩ := hg b₁
  refine ⟨b₂, by simp only [h₁, ok_bind, h₂], ?_⟩
  rw [hread₂, hread₁, List.append_assoc]

/-- A loop appends what its turns append. -/
theorem appends_foldlM {α : Type} {f : Buffer → α → Except Fault Buffer} {data : α → Bytes}
    (hf : ∀ x, Appends (f · x) (data x)) (xs : List α) :
    Appends (xs.foldlM f ·) (xs.flatMap data) := by
  induction xs with
  | nil => exact fun b => ⟨b, rfl, by simp⟩
  | cons x xs ih =>
    intro b
    simp only [List.foldlM_cons, List.flatMap_cons]
    exact (hf x).bind ih b

/-! ## Integers in network byte order

`appendIntN(x)` stores `hostToNetworkN(x)`, that is the `N / 8` bytes of `x` with
the most significant one first; a value is a `BitVec`, read with `toInt` where the
source has a signed type. -/

def appendInt (k : Nat) (b : Buffer) (x : BitVec (8 * k)) : Except Fault Buffer :=
  b.append (BigEndian.toBytes k x.toNat)

def appendInt64 (b : Buffer) (x : BitVec 64) : Except Fault Buffer := appendInt 8 b x
def appendInt32 (b : Buffer) (x : BitVec 32) : Except Fault Buffer := appendInt 4 b x
def appendInt16 (b : Buffer) (x : BitVec 16) : Except Fault Buffer := appendInt 2 b x
def appendInt8 (b : Buffer) (x : BitVec 8) : Except Fault Buffer := appendInt 1 b x

def peekInt (k : Nat) (b : Buffer) : Except Fault (BitVec (8 * k)) := do
  assert (k ≤ b.readableBytes)
  return BitVec.ofNat (8 * k) (BigEndian.ofBytes (b.peek.take k))

def peekInt64 (b : Buffer) : Except Fault (BitVec 64) := peekInt 8 b
def peekInt32 (b : Buffer) : Except Fault (BitVec 32) := peekInt 4 b
def peekInt16 (b : Buffer) : Except Fault (BitVec 16) := peekInt 2 b
def peekInt8 (b : Buffer) : Except Fault (BitVec 8) := peekInt 1 b

def retrieveInt64 (b : Buffer) : Except Fault Buffer := b.retrieve 8
def retrieveInt32 (b : Buffer) : Except Fault Buffer := b.retrieve 4
def retrieveInt16 (b : Buffer) : Except Fault Buffer := b.retrieve 2
def retrieveInt8 (b : Buffer) : Except Fault Buffer := b.retrieve 1

def readInt (k : Nat) (b : Buffer) : Except Fault (Buffer × BitVec (8 * k)) := do
  let result ← peekInt k b
  let b ← b.retrieve k
  return (b, result)

def readInt64 (b : Buffer) : Except Fault (Buffer × BitVec 64) := readInt 8 b
def readInt32 (b : Buffer) : Except Fault (Buffer × BitVec 32) := readInt 4 b
def readInt16 (b : Buffer) : Except Fault (Buffer × BitVec 16) := readInt 2 b
def readInt8 (b : Buffer) : Except Fault (Buffer × BitVec 8) := readInt 1 b

def prepend (b : Buffer) (data : Bytes) : Except Fault Buffer :=
  if h : data.length ≤ b.prependableBytes then
    .ok { b with
      buffer := b.buffer.take (b.readerIndex - data.length) ++ data ++ b.buffer.drop b.readerIndex
      readerIndex := b.readerIndex - data.length
      reader_le := by have := b.reader_le; omega
      writer_le := by
        have := b.writer_le
        have := b.reader_le
        simp only [prependableBytes] at h
        simp
        omega
      cheap_le := by
        have := b.cheap_le
        have := b.writer_le
        have := b.reader_le
        simp only [prependableBytes] at h
        simp
        omega }
  else .error .assertion

def prependInt (k : Nat) (b : Buffer) (x : BitVec (8 * k)) : Except Fault Buffer :=
  b.prepend (BigEndian.toBytes k x.toNat)

def prependInt64 (b : Buffer) (x : BitVec 64) : Except Fault Buffer := prependInt 8 b x
def prependInt32 (b : Buffer) (x : BitVec 32) : Except Fault Buffer := prependInt 4 b x
def prependInt16 (b : Buffer) (x : BitVec 16) : Except Fault Buffer := prependInt 2 b x
def prependInt8 (b : Buffer) (x : BitVec 8) : Except Fault Buffer := prependInt 1 b x

theorem appendInt_ok (k : Nat) (b : Buffer) (x : BitVec (8 * k)) :
    ∃ b', appendInt k b x = .ok b' ∧ b'.readable = b.readable ++ BigEndian.toBytes k x.toNat ∧
      (b.Reserved → b'.Reserved) :=
  b.append_ok _

theorem peekInt_ok (k : Nat) (b : Buffer) (h : k ≤ b.readableBytes) :
    peekInt k b = .ok (BitVec.ofNat (8 * k) (BigEndian.ofBytes (b.readable.take k))) := by
  simp [peekInt, h, b.peek_take k h]

theorem peekInt32_ok (b : Buffer) (h : 4 ≤ b.readableBytes) :
    b.peekInt32 = .ok (BitVec.ofNat 32 (BigEndian.ofBytes (b.readable.take 4))) :=
  peekInt_ok 4 b h

theorem peekInt_error (k : Nat) (b : Buffer) (h : ¬ k ≤ b.readableBytes) :
    peekInt k b = .error .assertion := by
  simp [peekInt, assert, h]

theorem readInt_ok (k : Nat) (b : Buffer) (h : k ≤ b.readableBytes) :
    ∃ b', readInt k b =
        .ok (b', BitVec.ofNat (8 * k) (BigEndian.ofBytes (b.readable.take k))) ∧
      b'.readable = b.readable.drop k := by
  obtain ⟨b', hb, hread⟩ := b.retrieve_ok k h
  exact ⟨b', by simp [readInt, peekInt_ok k b h, hb], hread⟩

theorem prepend_ok (b : Buffer) (data : Bytes) (h : data.length ≤ b.readerIndex) :
    ∃ b', b.prepend data = .ok b' ∧ b'.readable = data ++ b.readable := by
  have hadd := b.readerIndex_add
  have hr := b.reader_le
  have hw := b.writer_le
  obtain ⟨front, back, hb, hf, hk⟩ := b.layout
  have hdrop : b.buffer.drop b.readerIndex = b.readable ++ back := by
    rw [hb, List.append_assoc, List.drop_append_of_le_length (by omega),
      List.drop_eq_nil_of_le (by omega), List.nil_append]
  simp only [prepend, prependableBytes, h, ↓reduceDIte]
  refine ⟨_, rfl, ?_⟩
  refine readable_of_layout _ (b.buffer.take (b.readerIndex - data.length)) (data ++ b.readable)
    back ?_ ?_ ?_
  · simp only [hdrop, List.append_assoc]
  · simp only [List.length_take]
    omega
  · simp only [List.length_take, List.length_append, readable_length]
    omega

theorem prepend_room {b b' : Buffer} {data : Bytes} (h : b.prepend data = .ok b') :
    data.length + b'.prependableBytes = b.prependableBytes := by
  unfold prepend at h
  split at h
  case isTrue hroom =>
    cases h
    exact Nat.add_sub_cancel' hroom
  case isFalse => cases h

/-- The reserve has room for a length field. -/
theorem prepend_reserved (b : Buffer) (h : b.Reserved) (n : Nat) :
    ∃ b', b.prepend (BigEndian.toBytes 4 n) = .ok b' ∧
      b'.readable = BigEndian.toBytes 4 n ++ b.readable := by
  apply b.prepend_ok
  rw [BigEndian.toBytes_length]
  exact Nat.le_trans (by decide) h

end Buffer

end Cppim.Common
