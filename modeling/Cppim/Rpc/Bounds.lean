import Cppim.Rpc.Codec

/-! `RpcCodec::onMessage` on arbitrary bytes. The name field is checked against
`len - 2 * kHeaderLen`, but a header takes `kHeaderLen + kIdLen` bytes: a name
field four or less above the room the frame has passes the check.
`onMessage_inside_iff` says that this band is all that can go wrong. -/

namespace Cppim.Rpc.Codec

open Cppim.Common Cppim.Lib Cppim.Lib.Loop Cppim.Lib.Framing

/-- The bytes the decoder takes for the name of a frame. -/
def nameBytes (mem : Bytes) : Bytes := (mem.drop 16).take (nameLenField mem).toNat

/-- The name fits into the frame and separates a service from a method. -/
structure NameOk (mem : Bytes) : Prop where
  three_le : 3 ≤ nameLenField mem
  fits : nameLenField mem ≤ len mem - 12
  colon : 58 ∈ nameBytes mem

/-- The name field passes the check of `onMessage` and reaches past the frame by
one to four bytes; the decoder then leaves the vector, or finds a `:`. -/
structure NameInBand (mem : Bytes) : Prop where
  above : len mem - 12 < nameLenField mem
  below : nameLenField mem ≤ len mem - 8
  read : mem.length < 16 + nameLenField mem ∨ 58 ∈ nameBytes mem

/-- Among the first `n` bytes of the memory the decoder reaches a complete frame
whose name field is in the band. -/
inductive ReachesBand : Bytes → Nat → Prop
  | here {mem : Bytes} {n : Nat} : Complete mem n → NameInBand mem → ReachesBand mem n
  | skip {mem : Bytes} {n : Nat} : Complete mem n → NameOk mem →
      ReachesBand (mem.drop (4 + len mem).toNat) (n - (4 + len mem).toNat) → ReachesBand mem n

/-- What the decoder owes to arbitrary bytes: it reads nothing outside the
vector, and every frame it delivers is made of a header, a name and data that
fill exactly the frame. -/
structure StaysInside (buf : Buffer) : Prop where
  reads : ∀ b, Reached turn buf b → ∀ e, turn b ≠ .fault e
  slices : ∀ b, Reached turn buf b → ∀ d b', turn b = .again [.message d] b' →
    12 + nameLenField b.peek + d.datalen = len b.peek ∧ 3 ≤ nameLenField b.peek ∧ 0 ≤ d.datalen

/-- Everything `decode` can do with a frame. -/
theorem decode_cases (mem : Bytes) (len : Int) :
    (3 ≤ nameLenField mem ∧ nameLenField mem ≤ len - 8 ∧ mem.length < 16 + nameLenField mem ∧
      decode mem len = .error .invalidRead) ∨
    (3 ≤ nameLenField mem ∧ nameLenField mem ≤ len - 8 ∧ 58 ∈ nameBytes mem ∧
      ∃ d, decode mem len = .ok (some d) ∧ d.datalen = len - nameLenField mem - 12) ∨
    (¬ (3 ≤ nameLenField mem ∧ nameLenField mem ≤ len - 8 ∧
        (mem.length < 16 + nameLenField mem ∨ 58 ∈ nameBytes mem)) ∧
      decode mem len = .ok none) := by
  have hdrop : (mem.drop kHeaderLen).drop (kHeaderLen + kIdLen) = mem.drop 16 := List.drop_drop
  have hlen : len - 2 * (kHeaderLen : Int) = len - 8 := rfl
  simp only [decode, hdrop, hlen]
  by_cases hc : 3 ≤ nameLenField mem ∧ nameLenField mem ≤ len - 8
  · obtain ⟨h3, h8⟩ := hc
    rw [if_pos ⟨h3, h8⟩]
    by_cases hin : (nameLenField mem).toNat ≤ (mem.drop 16).length
    · have hs : slice (mem.drop 16) (nameLenField mem).toNat = .ok (nameBytes mem) := by
        rw [slice, if_pos hin, nameBytes]
      rw [hs, ok_bind]
      cases hcut : Cut.cut [58] (nameBytes mem) with
      | none =>
        have hmem := Cut.cut_singleton_eq_none.mp hcut
        rw [List.length_drop] at hin
        exact Or.inr (Or.inr ⟨fun h => h.2.2.elim (by omega) hmem, rfl⟩)
      | some q =>
        have hmem : 58 ∈ nameBytes mem := by simp [Cut.eq_of_cut hcut]
        refine Or.inr (Or.inl ⟨h3, h8, hmem, _, rfl, ?_⟩)
        simp only [kHeaderLen, kIdLen]
        omega
    · have hs : slice (mem.drop 16) (nameLenField mem).toNat = .error .invalidRead := by
        rw [slice, if_neg hin]
      rw [List.length_drop] at hin
      refine Or.inl ⟨h3, h8, by omega, ?_⟩
      rw [hs, error_bind]
  · rw [if_neg hc]
    exact Or.inr (Or.inr ⟨fun h => hc ⟨h.1, h.2.1⟩, rfl⟩)

/-- Everything one turn can do, and when. -/
inductive Does (buf : Buffer) : Turn Buffer Event Fault → Prop
  | short : buf.readableBytes < 19 → Does buf (.leave [] buf)
  | invalidLength : 19 ≤ buf.readableBytes →
      len buf.peek > kMaxMessageLen ∨ len buf.peek < kMinMessageLen →
      Does buf (.leave [.error .kInvalidLength] buf)
  | wait : len buf.peek ≤ kMaxMessageLen →
      ¬ (len buf.peek + kHeaderLen).toNat ≤ buf.readableBytes → Does buf (.leave [] buf)
  | delivered {d : Delivery} {b' : Buffer} : Complete buf.peek buf.readableBytes →
      decode buf.peek (len buf.peek) = .ok (some d) →
      buf.retrieve (4 + len buf.peek).toNat = .ok b' →
      b'.readable = buf.readable.drop (4 + len buf.peek).toNat →
      Does buf (.again [.message d] b')
  | rejected {b' : Buffer} : Complete buf.peek buf.readableBytes →
      decode buf.peek (len buf.peek) = .ok none →
      buf.retrieve (4 + len buf.peek).toNat = .ok b' →
      b'.readable = buf.readable.drop (4 + len buf.peek).toNat →
      Does buf (.leave [.error .kInvalidNameLen] b')
  | fault {e : Fault} : Complete buf.peek buf.readableBytes →
      decode buf.peek (len buf.peek) = .error e → Does buf (.fault e)

theorem does_turn (buf : Buffer) : Does buf (turn buf) := by
  by_cases h19 : 19 ≤ buf.readableBytes
  · by_cases hin : len buf.peek > kMaxMessageLen ∨ len buf.peek < kMinMessageLen
    · rw [turn_invalidLength buf h19 hin]
      exact .invalidLength h19 hin
    · by_cases hw : (len buf.peek + kHeaderLen).toNat ≤ buf.readableBytes
      · have hc : Complete buf.peek buf.readableBytes := ⟨by omega, by omega, hw⟩
        obtain ⟨b', hr, hread, ht⟩ := turn_complete buf hc
        rw [ht]
        cases hd : decode buf.peek (len buf.peek) with
        | error e => exact .fault hc hd
        | ok r =>
          cases r with
          | none => exact .rejected hc hd hr hread
          | some d => exact .delivered hc hd hr hread
      · rw [turn_wait buf (by omega) (by omega) hw]
        exact .wait (by omega) hw
  · rw [turn_short buf (by omega)]
    exact .short (by omega)

theorem does_of_eq {buf : Buffer} {x : Turn Buffer Event Fault} (h : turn buf = x) :
    Does buf x :=
  h ▸ does_turn buf

theorem turn_again {buf b' : Buffer} {out : List Event} (h : turn buf = .again out b') :
    Complete buf.peek buf.readableBytes ∧
      (∃ d, decode buf.peek (len buf.peek) = .ok (some d) ∧ out = [.message d]) ∧
      buf.retrieve (4 + len buf.peek).toNat = .ok b' ∧
      b'.readable = buf.readable.drop (4 + len buf.peek).toNat := by
  cases does_of_eq h with
  | delivered hc hd hr hread => exact ⟨hc, ⟨_, hd, rfl⟩, hr, hread⟩

theorem turn_fault {buf : Buffer} {e : Fault} (h : turn buf = .fault e) :
    Complete buf.peek buf.readableBytes ∧ decode buf.peek (len buf.peek) = .error e := by
  cases does_of_eq h with
  | fault hc hd => exact ⟨hc, hd⟩

theorem turn_shrinks {buf b' : Buffer} {out : List Event} (h : turn buf = .again out b') :
    b'.readableBytes < buf.readableBytes := by
  obtain ⟨hc, _, _, hread⟩ := turn_again h
  have hmin := hc.min_le
  have h19 := hc.le
  rw [← b'.readable_length, hread, List.length_drop, buf.readable_length]
  simp only [kMinMessageLen, kIdLen, kHeaderLen] at hmin
  omega

/-- A frame that the decoder delivers has its name inside or in the band. -/
theorem nameOk_or_band {mem : Bytes} {d : Delivery} (h : decode mem (len mem) = .ok (some d)) :
    d.datalen = len mem - nameLenField mem - 12 ∧ (NameOk mem ∨ NameInBand mem) := by
  rcases decode_cases mem (len mem) with ⟨_, _, _, he⟩ | ⟨h3, h8, hmem, d', hd, hlen⟩ | ⟨_, hn⟩
  · simp [he] at h
  · rw [hd] at h
    cases h
    refine ⟨hlen, ?_⟩
    by_cases hfit : nameLenField mem ≤ len mem - 12
    · exact Or.inl ⟨h3, hfit, hmem⟩
    · exact Or.inr ⟨by omega, h8, Or.inr hmem⟩
  · simp [hn] at h

theorem frame_le_peek {buf : Buffer} (hc : Complete buf.peek buf.readableBytes) :
    4 + len buf.peek ≤ buf.peek.length := by
  obtain ⟨back, hpeek⟩ := buf.peek_eq
  have hw := hc.whole
  have hlen : buf.peek.length = buf.readableBytes + back.length := by
    rw [hpeek, List.length_append, buf.readable_length]
  simp only [kHeaderLen] at hw
  omega

/-- A read past the vector is a read past the frame. -/
theorem band_of_error {buf : Buffer} {e : Fault} (hc : Complete buf.peek buf.readableBytes)
    (h : decode buf.peek (len buf.peek) = .error e) : NameInBand buf.peek := by
  have hroom := frame_le_peek hc
  rcases decode_cases buf.peek (len buf.peek) with ⟨_, h8, hlt, _⟩ | ⟨_, _, _, d, hd, _⟩ | ⟨_, hn⟩
  · exact ⟨by omega, h8, Or.inl hlt⟩
  · simp [hd] at h
  · simp [hn] at h

/-- A frame whose name is in the band is delivered with a negative length, or
read past the vector. -/
theorem turn_of_band (buf : Buffer) (hc : Complete buf.peek buf.readableBytes)
    (hb : NameInBand buf.peek) :
    (∃ e, turn buf = .fault e) ∨ ∃ d b', turn buf = .again [.message d] b' ∧ d.datalen < 0 := by
  obtain ⟨b', _, _, ht⟩ := turn_complete buf hc
  have h3 : 3 ≤ nameLenField buf.peek := by
    have hmin := hc.min_le
    have habove := hb.above
    simp only [kMinMessageLen, kIdLen, kHeaderLen] at hmin
    omega
  rcases decode_cases buf.peek (len buf.peek) with ⟨_, _, _, he⟩ | ⟨_, _, _, d, hd, hlen⟩ | ⟨hn, _⟩
  · exact Or.inl ⟨_, by rw [ht, he]⟩
  · have habove := hb.above
    exact Or.inr ⟨d, b', by rw [ht, hd], by omega⟩
  · exact absurd ⟨h3, hb.below, hb.read⟩ hn

theorem turn_of_nameOk (buf : Buffer) (hc : Complete buf.peek buf.readableBytes)
    (hn : NameOk buf.peek) :
    ∃ d b', turn buf = .again [.message d] b' ∧
      buf.retrieve (4 + len buf.peek).toNat = .ok b' := by
  obtain ⟨b', hr, _, ht⟩ := turn_complete buf hc
  obtain ⟨h3, hfit, hcolon⟩ := hn
  have hw := frame_le_peek hc
  rcases decode_cases buf.peek (len buf.peek) with ⟨_, _, hlt, _⟩ | ⟨_, _, _, d, hd, _⟩ | ⟨h, _⟩
  · omega
  · exact ⟨d, b', by rw [ht, hd], hr⟩
  · exact absurd ⟨h3, by omega, Or.inr hcolon⟩ h

theorem ReachesBand.le {mem : Bytes} {n : Nat} (h : ReachesBand mem n) : 19 ≤ n := by
  cases h with
  | here hc _ => exact hc.le
  | skip hc _ _ => exact hc.le

/-- After a frame the decoder goes on in the memory behind it; only a buffer that
ran empty starts over, and `Q` says nothing of an empty one. -/
theorem behind_frame {Q : Bytes → Nat → Prop} (hQ : ∀ {mem n}, Q mem n → 0 < n)
    {buf b' : Buffer} (hc : Complete buf.peek buf.readableBytes)
    (hr : buf.retrieve (4 + len buf.peek).toNat = .ok b') :
    Q b'.peek b'.readableBytes ↔ Q (buf.peek.drop (4 + len buf.peek).toNat)
      (buf.readableBytes - (4 + len buf.peek).toNat) := by
  have hle : (4 + len buf.peek).toNat ≤ buf.readableBytes := by
    rw [Int.add_comm]
    exact hc.whole
  obtain ⟨b₁, hb₁, hread⟩ := buf.retrieve_ok _ hle
  cases hr.symm.trans hb₁
  have hsize := Buffer.retrieve_readableBytes hle hread
  by_cases hlt : (4 + len buf.peek).toNat < buf.readableBytes
  · rw [Buffer.retrieve_peek hr hlt, show b'.readableBytes = _ from Nat.eq_sub_of_add_eq hsize]
  · constructor
    · intro h
      have := hQ h
      omega
    · intro h
      have := hQ h
      omega

theorem reachesBand_after {buf b' : Buffer} (hc : Complete buf.peek buf.readableBytes)
    (hr : buf.retrieve (4 + len buf.peek).toNat = .ok b') :
    ReachesBand b'.peek b'.readableBytes ↔ ReachesBand (buf.peek.drop (4 + len buf.peek).toNat)
      (buf.readableBytes - (4 + len buf.peek).toNat) :=
  behind_frame (fun h => by have := h.le; omega) hc hr

/-- A violation is reached exactly when a name in the band is. -/
theorem reachesBand_iff (buf : Buffer) :
    ReachesBand buf.peek buf.readableBytes ↔ ∃ b, Reached turn buf b ∧
      ((∃ e, turn b = .fault e) ∨ ∃ d b', turn b = .again [.message d] b' ∧ d.datalen < 0) := by
  constructor
  · intro h
    -- the condition is followed on the memory, so the buffer varies with it
    generalize hlen : buf.readableBytes = n at h
    induction n using Nat.strongRecOn generalizing buf with
    | ind n ih =>
      subst hlen
      cases h with
      | here hc hb => exact ⟨buf, .start, turn_of_band buf hc hb⟩
      | skip hc hname hrest =>
        obtain ⟨d, b', ht, hr⟩ := turn_of_nameOk buf hc hname
        obtain ⟨_, _, _, hread⟩ := turn_again ht
        have hrest' := (reachesBand_after hc hr).mpr hrest
        obtain ⟨b, hreach, hv⟩ := ih b'.readableBytes
          (turn_shrinks ht) b' rfl hrest'
        exact ⟨b, hreach.head ht, hv⟩
  · rintro ⟨b, hb, hv⟩
    refine hb.backward (P := fun b => ReachesBand b.peek b.readableBytes) ?_ ?_
    · intro s o s' ht hs
      obtain ⟨hc, ⟨d, hd, _⟩, hr, _⟩ := turn_again ht
      rcases (nameOk_or_band hd).2 with hok | hband
      · exact .skip hc hok ((reachesBand_after hc hr).mp hs)
      · exact .here hc hband
    · rcases hv with ⟨e, he⟩ | ⟨d, b', ht, hneg⟩
      · obtain ⟨hc, hd⟩ := turn_fault he
        exact .here hc (band_of_error hc hd)
      · obtain ⟨hc, ⟨d', hd, he⟩, _⟩ := turn_again ht
        cases he
        obtain ⟨hlen, hok | hband⟩ := nameOk_or_band hd
        · have := hok.fits
          omega
        · exact .here hc hband

/-- **The RPC decoder on arbitrary bytes.** It stays inside the frames it delivers
exactly on the buffers in which it reaches no complete frame whose name field
lies one to four bytes above what the frame has room for. -/
theorem onMessage_inside_iff (buf : Buffer) :
    StaysInside buf ↔ ¬ ReachesBand buf.peek buf.readableBytes := by
  rw [reachesBand_iff]
  constructor
  · rintro ⟨hreads, hslices⟩ ⟨b, hb, ⟨e, he⟩ | ⟨d, b', ht, hneg⟩⟩
    · exact hreads b hb e he
    · have := (hslices b hb d b' ht).2.2
      omega
  · intro h
    refine ⟨fun b hb e he => h ⟨b, hb, Or.inl ⟨e, he⟩⟩, fun b hb d b' ht => ?_⟩
    have hdata : 0 ≤ d.datalen := by
      by_contra hneg
      exact h ⟨b, hb, Or.inr ⟨d, b', ht, by omega⟩⟩
    obtain ⟨hc, ⟨d', hd, he⟩, _⟩ := turn_again ht
    cases he
    have hmin := hc.min_le
    simp only [kMinMessageLen, kIdLen, kHeaderLen] at hmin
    obtain ⟨hlen, hok | hband⟩ := nameOk_or_band hd
    · exact ⟨by omega, hok.three_le, hdata⟩
    · have := hband.above
      omega

/-- A frame of length 15 whose name field says 7: the name takes the three bytes
that are left and four more, and the data has length -4. -/
theorem onMessage_outside_on_long_name :
    ∃ buf, (Buffer.ofSize kInitialSize).append
        [0, 0, 0, 15, 0, 0, 0, 0, 0, 0, 0, 1, 0, 0, 0, 7, 97, 58, 98] = .ok buf ∧
      ¬ StaysInside buf := by
  obtain ⟨buf, hb, hr, _⟩ := (Buffer.ofSize kInitialSize).append_ok
    [0, 0, 0, 15, 0, 0, 0, 0, 0, 0, 0, 1, 0, 0, 0, 7, 97, 58, 98]
  rw [Buffer.readable_ofSize, List.nil_append] at hr
  obtain ⟨back, hpeek⟩ := buf.peek_eq
  rw [hr] at hpeek
  have hsize : buf.readableBytes = 19 := by rw [← buf.readable_length, hr]; rfl
  have hlen : len buf.peek = 15 := by
    have ht : buf.peek.take 4 = [0, 0, 0, 15] := by simp [hpeek]
    rw [len, asInt32, ht]
    decide
  have hname : nameLenField buf.peek = 7 := by
    have ht : ((buf.peek.drop kHeaderLen).drop kIdLen).take 4 = [0, 0, 0, 7] := by
      simp [hpeek, kHeaderLen, kIdLen]
    rw [nameLenField, asInt32, ht]
    decide
  have hcolon : 58 ∈ nameBytes buf.peek := by
    rw [nameBytes, hname, hpeek]
    simp
  refine ⟨buf, hb, fun hin => ?_⟩
  obtain ⟨hreads, hslices⟩ := hin
  have hc : Complete buf.peek buf.readableBytes := by
    constructor <;> rw [hlen]
    · decide
    · decide
    · rw [hsize]; decide
  have hband : NameInBand buf.peek := ⟨by omega, by omega, Or.inr hcolon⟩
  rcases turn_of_band buf hc hband with ⟨e, he⟩ | ⟨d, b', ht, hneg⟩
  · exact hreads buf .start e he
  · have := (hslices buf .start d b' ht).2.2
    omega

end Cppim.Rpc.Codec
