import Cppim.Common.Buffer
import Cppim.Lib.Transition
import Mathlib.Algebra.GroupWithZero.Nat

/-! `Session::read`: the read buffer of a session, one completed read after the other.

A read is offered `beginWrite()` and `writableBytes()`. When it is done, `messagecallback_`
takes what it can from the buffer, and room is made for as much as has just come.
`read_loop_sound` says what that is enough for. -/

namespace Cppim.Net.Reading

open Cppim.Common Cppim.Lib.Transition

/-- The fields behind `read_buf_` are a record that no step reads. -/
structure State where
  read_buf_ : Buffer := .ofSize kInitialSize
  /-- what has arrived -/
  received : Bytes := []
  /-- what `messagecallback_` has taken -/
  taken : Bytes := []
  /-- how much came with the last read -/
  last : Nat := 0
  /-- the most that came with a read -/
  longest : Nat := 0
  /-- the most that was left in the buffer by `messagecallback_` -/
  unread : Nat := 0

/-- A read of `data`, and the arguments with which `messagecallback_` calls `retrieve`. -/
structure Label where
  data : Bytes
  retrieves : List Nat
  deriving Repr, DecidableEq

/-- Each `retrieve` takes from the front. -/
def retrieveEach : Buffer → List Nat → Except Fault (Buffer × Bytes)
  | b, [] => .ok (b, [])
  | b, len :: lens => do
    let (b, text) ← b.retrieveAsString len
    let (b, rest) ← retrieveEach b lens
    return (b, text ++ rest)

/-- The handler of a read. -/
def handler (b : Buffer) (l : Label) : Except Fault (Buffer × Buffer × Bytes) := do
  let b ← (b.copyIn l.data).hasWritten l.data.length
  let (left, text) ← retrieveEach b l.retrieves
  let b ← left.ensureWritableBytes l.data.length
  return (b, left, text)

/-- A read brings at least one byte, and no more than it was offered room for; an argument of
`retrieve` that is too great is the fault of `messagecallback_`. -/
def step (st : State) (l : Label) : Option State :=
  if l.data ≠ [] ∧ l.data.length ≤ st.read_buf_.writableBytes then
    match handler st.read_buf_ l with
    | .ok (b, left, text) =>
      some {
        read_buf_ := b
        received := st.received ++ l.data
        taken := st.taken ++ text
        last := l.data.length
        longest := max st.longest l.data.length
        unread := max st.unread left.readableBytes }
    | .error _ => none
  else none

/-! ## The vector -/

@[simp] theorem length_copyIn (b : Buffer) (data : Bytes) :
    (b.copyIn data).buffer.length = b.buffer.length := by
  have hw := b.writer_le
  simp only [Buffer.copyIn, List.length_take, List.length_append, List.length_drop]
  omega

theorem length_hasWritten {b b' : Buffer} {len : Nat} (h : b.hasWritten len = .ok b') :
    b'.buffer.length = b.buffer.length := by
  simp only [Buffer.hasWritten] at h
  split at h <;> cases h
  rfl

theorem length_retrieve {b b' : Buffer} {len : Nat} (h : b.retrieve len = .ok b') :
    b'.buffer.length = b.buffer.length := by
  simp only [Buffer.retrieve] at h
  split at h
  · split at h <;> cases h <;> rfl
  · cases h

/-- The vector grows only while the reader is near its front. -/
theorem length_makeSpace {b b' : Buffer} {len : Nat} {hshort : b.writableBytes < len}
    (h : b.makeSpace len hshort = .ok b') :
    b'.buffer.length ≤ max b.buffer.length (b.readableBytes + 2 * len + 7) := by
  have hw := b.writer_le
  have hadd := b.readerIndex_add
  simp only [Buffer.makeSpace] at h
  split at h <;> rename_i hgrow
  · cases h
    simp only [Buffer.writableBytes, Buffer.prependableBytes, kCheapPrepend] at hgrow
    simp only [Buffer.resize, List.length_append, List.length_take, List.length_replicate]
    omega
  · have hassert : kCheapPrepend < b.readerIndex := by
      simp only [Buffer.prependableBytes] at hgrow
      omega
    rw [assert_of _ hassert, ok_bind, assert_of _ (by simp [Buffer.readableBytes]), ok_bind] at h
    cases h
    have hlen := b.readable_length
    have hc := b.cheap_le
    simp only [List.length_append, List.length_take, List.length_drop, hlen]
    omega

/-- Room is made without a fault, and the vector stays in proportion. -/
theorem ensureWritableBytes_length (b : Buffer) (len : Nat) :
    ∃ b', b.ensureWritableBytes len = .ok b' ∧ len ≤ b'.writableBytes ∧
      b'.readable = b.readable ∧
      b'.buffer.length ≤ max b.buffer.length (b.readableBytes + 2 * len + 7) := by
  by_cases hshort : b.writableBytes < len
  · obtain ⟨b', hb, hw, hr, -⟩ := b.makeSpace_ok len hshort
    exact ⟨b', by simp [Buffer.ensureWritableBytes, hshort, hb, hw], hw, hr, length_makeSpace hb⟩
  · have hw : len ≤ b.writableBytes := Nat.le_of_not_lt hshort
    exact ⟨b, by simp [Buffer.ensureWritableBytes, hshort, hw], hw, rfl, Nat.le_max_left ..⟩

/-! ## A read -/

/-- What `messagecallback_` takes, and what it leaves, is what was there. -/
theorem retrieveEach_readable {b b' : Buffer} {lens : List Nat} {text : Bytes}
    (h : retrieveEach b lens = .ok (b', text)) :
    b.readable = text ++ b'.readable ∧ b'.buffer.length = b.buffer.length := by
  induction lens generalizing b text with
  | nil =>
    cases h
    exact ⟨rfl, rfl⟩
  | cons len lens ih =>
    by_cases hlen : len ≤ b.readableBytes
    · obtain ⟨b₁, hb₁, hreadable⟩ := b.retrieve_ok len hlen
      have hstring : b.retrieveAsString len = .ok (b₁, b.readable.take len) := by
        simp [Buffer.retrieveAsString, hlen, hb₁, b.peek_take len hlen]
      rw [retrieveEach, hstring, ok_bind] at h
      cases hrest : retrieveEach b₁ lens with
      | error e =>
        simp only [hrest, error_bind] at h
        cases h
      | ok out =>
        simp only [hrest, ok_bind] at h
        cases h
        obtain ⟨htext, hlength⟩ := ih hrest
        refine ⟨?_, hlength.trans (length_retrieve hb₁)⟩
        rw [List.append_assoc, ← htext, hreadable, List.take_append_drop]
    · have hfault : b.retrieveAsString len = .error .assertion := by
        simp [Buffer.retrieveAsString, assert, hlen]
      rw [retrieveEach, hfault] at h
      cases h

theorem retrieveEach_ok (b : Buffer) (lens : List Nat) (h : lens.sum ≤ b.readableBytes) :
    ∃ out, retrieveEach b lens = .ok out := by
  induction lens generalizing b with
  | nil => exact ⟨_, rfl⟩
  | cons len lens ih =>
    rw [List.sum_cons] at h
    obtain ⟨b₁, hb₁, hreadable⟩ := b.retrieveAsString_ok len (by omega)
    have hleft : lens.sum ≤ b₁.readableBytes := by
      rw [← b₁.readable_length, hreadable, List.length_drop, b.readable_length]
      omega
    obtain ⟨out, hout⟩ := ih b₁ hleft
    exact ⟨_, by rw [retrieveEach, hb₁, ok_bind]; simp only [hout, ok_bind]; rfl⟩

/-- No assertion fails if `messagecallback_` takes no more than there is. -/
theorem handler_ok (b : Buffer) (l : Label) (hfits : l.data.length ≤ b.writableBytes)
    (h : l.retrieves.sum ≤ b.readableBytes + l.data.length) : ∃ out, handler b l = .ok out := by
  obtain ⟨b₁, hb₁, hreadable, -⟩ := b.copyIn_hasWritten_ok l.data hfits
  have hthere : l.retrieves.sum ≤ b₁.readableBytes := by
    rw [← b₁.readable_length, hreadable, List.length_append, b.readable_length]
    exact h
  obtain ⟨⟨left, text⟩, hout⟩ := retrieveEach_ok b₁ l.retrieves hthere
  obtain ⟨b₃, hb₃, -⟩ := left.ensureWritableBytes_ok l.data.length
  refine ⟨(b₃, left, text), ?_⟩
  rw [handler, hb₁, ok_bind, hout, ok_bind]
  simp only [hb₃, ok_bind]
  rfl

/-- What a completed read does to the buffer. -/
structure Handled (b : Buffer) (l : Label) (b' left : Buffer) (text : Bytes) : Prop where
  content : b.readable ++ l.data = text ++ b'.readable
  room : l.data.length ≤ b'.writableBytes
  length : b'.buffer.length ≤ max b.buffer.length (left.readableBytes + 2 * l.data.length + 7)

theorem handled_of_handler {b b' left : Buffer} {l : Label} {text : Bytes}
    (hfits : l.data.length ≤ b.writableBytes) (h : handler b l = .ok (b', left, text)) :
    Handled b l b' left text := by
  obtain ⟨b₁, hb₁, hreadable, -⟩ := b.copyIn_hasWritten_ok l.data hfits
  have hlength₁ := (length_hasWritten hb₁).trans (length_copyIn b l.data)
  rw [handler, hb₁, ok_bind] at h
  cases heach : retrieveEach b₁ l.retrieves with
  | error e =>
    rw [heach] at h
    cases h
  | ok out =>
    obtain ⟨b₂, text'⟩ := out
    obtain ⟨b₃, hb₃, hroom, hsame, hlength⟩ := ensureWritableBytes_length b₂ l.data.length
    rw [heach, ok_bind] at h
    simp only [hb₃, ok_bind] at h
    cases h
    obtain ⟨htext, hlength₂⟩ := retrieveEach_readable heach
    refine ⟨?_, hroom, ?_⟩
    · rw [← hreadable, htext, hsame]
    · rw [← hlength₁, ← hlength₂]
      exact hlength

/-! ## Runs -/

structure Inv (st : State) : Prop where
  content : st.received = st.taken ++ st.read_buf_.readable
  offered : 0 < st.read_buf_.writableBytes
  room : st.last ≤ st.read_buf_.writableBytes
  length : st.read_buf_.buffer.length ≤
    max (kCheapPrepend + kInitialSize) (st.unread + 2 * st.longest + 7)

theorem inv_initial : Inv {} where
  content := by simp
  offered := by decide +kernel
  room := Nat.zero_le _
  length := by decide +kernel

theorem Inv.step {st st' : State} {l : Label} (h : Inv st) (hstep : step st l = some st') :
    Inv st' := by
  simp only [Reading.step] at hstep
  split at hstep
  · rename_i hread
    split at hstep
    · rename_i b left text hhandler
      cases hstep
      have hhandled := handled_of_handler hread.2 hhandler
      have hpos : 0 < l.data.length := List.length_pos_iff.mpr hread.1
      refine ⟨?_, Nat.lt_of_lt_of_le hpos hhandled.room, hhandled.room, ?_⟩
      · show st.received ++ l.data = st.taken ++ text ++ b.readable
        rw [h.content, List.append_assoc, List.append_assoc, hhandled.content]
      · have hbefore := h.length
        have hafter := hhandled.length
        show b.buffer.length ≤ max _ (max st.unread left.readableBytes +
          2 * max st.longest l.data.length + 7)
        omega
    · cases hstep
  · cases hstep

/-- **The read loop.** After every run of reads, whatever their sizes and whatever
`messagecallback_` takes after each of them: what it has taken and what is in the buffer is
what has arrived; the next read is offered room, for as much at least as came with the last
one, and no assertion fails in it; and the vector is as it was made, or in proportion to the
longest read and to the most that `messagecallback_` ever left. -/
theorem read_loop_sound (ls : List Label) (st : State) (hrun : run step {} ls = some st) :
    st.received = st.taken ++ st.read_buf_.readable ∧
    0 < st.read_buf_.writableBytes ∧ st.last ≤ st.read_buf_.writableBytes ∧
    (∀ l : Label, l.data ≠ [] → l.data.length ≤ st.read_buf_.writableBytes →
      l.retrieves.sum ≤ st.read_buf_.readableBytes + l.data.length → (step st l).isSome) ∧
    st.read_buf_.buffer.length ≤ max 1032 (st.unread + 2 * st.longest + 7) := by
  have h : Inv st := run_kept (fun _ _ _ hi hl => hi.step hl) ls {} st inv_initial hrun
  refine ⟨h.content, h.offered, h.room, fun l hdata hfits hthere => ?_, h.length⟩
  obtain ⟨out, hout⟩ := handler_ok st.read_buf_ l hfits hthere
  simp [step, hdata, hfits, hout]

/-- A read that fills the buffer, of which one byte is left; then the vector is longer. -/
theorem read_loop_sound_full :
    ∃ st, run step {} [⟨List.replicate 1024 7, [1000, 23]⟩, ⟨[1, 2], []⟩] = some st ∧
      st.received = st.taken ++ st.read_buf_.readable ∧ st.read_buf_.readable = [7, 1, 2] ∧
      st.read_buf_.buffer.length = 2056 ∧ 2056 ≤ max 1032 (st.unread + 2 * st.longest + 7) := by
  have hview : (run step {} [⟨List.replicate 1024 7, [1000, 23]⟩, ⟨[1, 2], []⟩]).map
      (fun st => (st.read_buf_.readable, st.read_buf_.buffer.length)) = some ([7, 1, 2], 2056) := by
    decide +kernel
  obtain ⟨st, hrun, hst⟩ := Option.map_eq_some_iff.mp hview
  simp only [Prod.mk.injEq] at hst
  obtain ⟨hcontent, -, -, -, hlength⟩ := read_loop_sound _ st hrun
  exact ⟨st, hrun, hcontent, hst.1, hst.2, hst.2 ▸ hlength⟩

end Cppim.Net.Reading
