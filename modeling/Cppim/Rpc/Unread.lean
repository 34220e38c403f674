import Cppim.Lib.Transition
import Cppim.Rpc.Stream

/-! How much of a stream `RpcCodec::onMessage` leaves unread.

A frame with a bad name is consumed and ends the call, with everything behind it unread
until the next chunk; a bad length is not consumed at all. `unread_bounded_iff` says on
which streams the unread bytes stay below the size of the largest frame. -/

namespace Cppim.Rpc.Codec

open Cppim.Common Cppim.Lib Cppim.Lib.Loop Cppim.Lib.Framing Cppim.Lib.Transition

/-! ## Streams with a frame that is refused -/

/-- The first frame of the stream that is not accepted is refused for its length or its
name, and `r` bytes are left: a bad length and all behind it, or those behind a refused
name. -/
inductive Refuses : Bytes → Nat → Prop
  | length {w : Bytes} : 19 ≤ w.length → len w > kMaxMessageLen ∨ len w < kMinMessageLen →
      Refuses w w.length
  | name {w : Bytes} : Complete w w.length → decode w (len w) = .ok none →
      Refuses w (w.length - (4 + len w).toNat)
  | skip {w : Bytes} {r : Nat} {d : Delivery} : Complete w w.length →
      decode w (len w) = .ok (some d) → Refuses (w.drop (4 + len w).toNat) r → Refuses w r

theorem Refuses.le {w : Bytes} {r : Nat} (h : Refuses w r) : r ≤ w.length := by
  induction h with
  | length _ _ => exact Nat.le_refl _
  | name _ _ => exact Nat.sub_le _ _
  | skip _ _ _ ih =>
    rw [List.length_drop] at ih
    omega

/-- The size of the frame at the start of a stream. -/
theorem Complete.size {w : Bytes} (hc : Complete w w.length) :
    19 ≤ (4 + len w).toNat ∧ (4 + len w).toNat ≤ w.length ∧
      ((4 + len w).toNat : Int) = 4 + len w := by
  have hmin := hc.min_le
  have hw := hc.whole
  simp only [kMinMessageLen, kIdLen, kHeaderLen] at hmin hw
  omega

theorem Complete.append {w : Bytes} (hc : Complete w w.length) (x : Bytes) :
    len (w ++ x) = len w ∧ Complete (w ++ x) (w ++ x).length := by
  obtain ⟨h19, hle, -⟩ := hc.size
  have hlen : len (w ++ x) = len w := len_append (by omega) x
  refine ⟨hlen, hlen ▸ hc.min_le, hlen ▸ hc.le_max, ?_⟩
  have hw := hc.whole
  rw [hlen, List.length_append]
  omega

/-- What follows a frame by four bytes or more does not change it. -/
theorem decode_room {w : Bytes} (hc : Complete w w.length)
    (hroom : (4 + len w).toNat + 4 ≤ w.length) (x : Bytes) :
    decode (w ++ x) (len (w ++ x)) = decode w (len w) := by
  obtain ⟨h19, hle, hsize⟩ := hc.size
  rw [(hc.append x).1]
  exact decode_append (by omega) (by omega) (named_of_room (by omega)) x

/-- More input stays unread. -/
theorem Refuses.append {w : Bytes} {r : Nat} (h : Refuses w r) (h4 : 4 ≤ r) (x : Bytes) :
    Refuses (w ++ x) (r + x.length) := by
  induction h with
  | @length w h19 hbad =>
    have hlen : len (w ++ x) = len w := len_append (by omega) x
    rw [← List.length_append]
    exact .length (by rw [List.length_append]; omega) (hlen ▸ hbad)
  | @name w hc hd =>
    obtain ⟨-, hle, -⟩ := hc.size
    have hname := Refuses.name (hc.append x).2 ((decode_room hc (by omega) x).trans hd)
    rw [(hc.append x).1, List.length_append] at hname
    rwa [Nat.sub_add_comm hle] at hname
  | @skip w r d hc hd hrest ih =>
    obtain ⟨-, hle, -⟩ := hc.size
    have hroom := hrest.le
    rw [List.length_drop] at hroom
    refine .skip (hc.append x).2 ((decode_room hc (by omega) x).trans hd) ?_
    rw [(hc.append x).1, List.drop_append_of_le_length hle]
    exact ih h4

/-- A stream of which a frame is taken that is followed by a refusal. -/
theorem Refuses.behind {w : Bytes} {r : Nat} (hc : Complete w w.length)
    (h : Refuses (w.drop (4 + len w).toNat) r) (h4 : 4 ≤ r) : ∃ r', r ≤ r' ∧ Refuses w r' := by
  obtain ⟨-, -, hsize⟩ := hc.size
  have hroom := h.le
  rw [List.length_drop] at hroom
  rcases decode_cases w (len w) with ⟨-, h8, hlt, -⟩ | ⟨-, -, -, d, hd, -⟩ | ⟨-, hd⟩
  · omega
  · exact ⟨r, Nat.le_refl _, .skip hc hd h⟩
  · exact ⟨_, hroom, .name hc hd⟩

/-! ## One call -/

theorem len_peek_eq {buf : Buffer} (h : 4 ≤ buf.readableBytes) :
    len buf.peek = len buf.readable := by
  obtain ⟨back, hpeek⟩ := buf.peek_eq
  rw [hpeek]
  exact len_append (by rwa [buf.readable_length]) back

/-- The decoder reads a frame from the memory, and it is the one of the unread bytes. -/
theorem complete_peek {buf : Buffer} (hc : Complete buf.peek buf.readableBytes) :
    len buf.peek = len buf.readable ∧ Complete buf.readable buf.readable.length := by
  have hlen : len buf.peek = len buf.readable := len_peek_eq (by have := hc.le; omega)
  refine ⟨hlen, hlen ▸ hc.min_le, hlen ▸ hc.le_max, ?_⟩
  rw [buf.readable_length, ← hlen]
  exact hc.whole

/-- With four bytes behind the frame the memory is not looked at. -/
theorem decode_peek {buf : Buffer} (hc : Complete buf.readable buf.readable.length)
    (hroom : (4 + len buf.readable).toNat + 4 ≤ buf.readable.length) :
    decode buf.peek (len buf.peek) = decode buf.readable (len buf.readable) := by
  obtain ⟨back, hpeek⟩ := buf.peek_eq
  rw [hpeek]
  exact decode_room hc hroom back

/-- A refusal ends the loop, with the rest unread. -/
theorem ends_of_refuses {w : Bytes} {r : Nat} (h : Refuses w r) (h4 : 4 ≤ r) (buf : Buffer)
    (hbuf : buf.readable = w) : ∃ o buf', Ends turn buf o buf' ∧ buf'.readableBytes = r := by
  induction h generalizing buf with
  | length h19 hbad =>
    subst hbuf
    rw [buf.readable_length] at h19 ⊢
    rw [← len_peek_eq (by omega)] at hbad
    exact ⟨_, buf, .leave (turn_invalidLength buf h19 hbad), rfl⟩
  | name hc hd =>
    subst hbuf
    obtain ⟨-, hle, hsize⟩ := hc.size
    have hnamed : Named buf.readable := named_of_room (by omega)
    obtain ⟨buf', -, hread, hturn⟩ := turn_readable (buf.readable_length ▸ hc) hnamed
    rw [decode_named hnamed, Except.ok.injEq] at hd
    rw [hd] at hturn
    refine ⟨_, buf', .leave hturn, ?_⟩
    rw [← buf'.readable_length, hread, List.length_drop]
  | skip hc hd hrest ih =>
    subst hbuf
    obtain ⟨-, hle, hsize⟩ := hc.size
    have hroom := hrest.le
    rw [List.length_drop] at hroom
    have hnamed : Named buf.readable := named_of_room (by omega)
    obtain ⟨buf₁, -, hread, hturn⟩ := turn_readable (buf.readable_length ▸ hc) hnamed
    rw [decode_named hnamed, Except.ok.injEq] at hd
    rw [hd] at hturn
    obtain ⟨o, buf', hends, hunread⟩ := ih h4 buf₁ hread
    exact ⟨_, buf', .again hturn hends, hunread⟩

/-- A loop that leaves as much as a frame unread has refused one. -/
theorem refuses_of_ends {buf buf' : Buffer} {o : List Event} (h : Ends turn buf o buf')
    (hlarge : kMaxMessageLen + kHeaderLen ≤ buf'.readableBytes) :
    Refuses buf.readable buf'.readableBytes := by
  have h4 : 4 ≤ buf'.readableBytes := by
    simp only [kHeaderLen] at hlarge
    omega
  induction h with
  | leave hturn =>
    cases does_of_eq hturn with
    | short hlt =>
      simp only [kMaxMessageLen, kHeaderLen] at hlarge
      omega
    | invalidLength h19 hlen =>
      rw [len_peek_eq (by omega)] at hlen
      have href := Refuses.length (by rwa [Buffer.readable_length]) hlen
      rwa [Buffer.readable_length] at href
    | wait hmax hw =>
      simp only [kHeaderLen] at hw hlarge
      omega
    | rejected hc hd _ hread =>
      obtain ⟨hlen, hc⟩ := complete_peek hc
      have hleft := congrArg List.length hread
      rw [Buffer.readable_length, List.length_drop, hlen] at hleft
      rw [decode_peek hc (by omega)] at hd
      rw [hleft]
      exact .name hc hd
  | again hturn _ ih =>
    cases does_of_eq hturn with
    | delivered hc hd _ hread =>
      obtain ⟨hlen, hc⟩ := complete_peek hc
      have hrest := ih hlarge h4
      have hroom := hrest.le
      rw [hread, List.length_drop, hlen] at hroom
      rw [hread, hlen] at hrest
      rw [decode_peek hc (by omega)] at hd
      exact .skip hc hd hrest

/-- A refusal of what a call leaves is one of what the call began with. -/
theorem refuses_before_ends {buf buf' : Buffer} {o : List Event} (h : Ends turn buf o buf')
    {x : Bytes} {r : Nat} (hr : Refuses (buf'.readable ++ x) r) (h4 : 4 ≤ r) :
    ∃ r', r ≤ r' ∧ Refuses (buf.readable ++ x) r' := by
  -- one frame that is taken, with `x` behind the unread bytes
  have htaken : ∀ {b b' : Buffer} {r : Nat}, Complete b.peek b.readableBytes →
      b'.readable = b.readable.drop (4 + len b.peek).toNat → Refuses (b'.readable ++ x) r → 4 ≤ r →
      ∃ r', r ≤ r' ∧ Refuses (b.readable ++ x) r' := by
    intro b b' r hc hread hr h4
    obtain ⟨hlen, hc⟩ := complete_peek hc
    obtain ⟨-, hle, -⟩ := hc.size
    refine Refuses.behind (hc.append x).2 ?_ h4
    rwa [(hc.append x).1, List.drop_append_of_le_length hle, ← hlen, ← hread]
  induction h generalizing r with
  | leave hturn =>
    cases does_of_eq hturn with
    | short _ => exact ⟨r, Nat.le_refl _, hr⟩
    | invalidLength _ _ => exact ⟨r, Nat.le_refl _, hr⟩
    | wait _ _ => exact ⟨r, Nat.le_refl _, hr⟩
    | rejected hc _ _ hread => exact htaken hc hread hr h4
  | again hturn _ ih =>
    cases does_of_eq hturn with
    | delivered hc _ _ hread =>
      obtain ⟨r₁, hle, hr₁⟩ := ih hr h4
      obtain ⟨r₂, hle', hr₂⟩ := htaken hc hread hr₁ (by omega)
      exact ⟨r₂, by omega, hr₂⟩

/-! ## Any chunks -/

/-- A chunk arrives and `onMessage` returns. -/
def arrived (buf : Buffer) (chunk : Bytes) : Option Buffer :=
  match arrive onMessage Buffer.append buf chunk with
  | .done _ buf' => some buf'
  | _ => none

theorem arrived_eq_some_iff (buf buf' : Buffer) (chunk : Bytes) :
    arrived buf chunk = some buf' ↔ ∃ b o, buf.append chunk = .ok b ∧ Ends turn b o buf' := by
  obtain ⟨b, hb, -⟩ := buf.append_ok chunk
  simp only [arrived, arrive, hb, ← onMessage_done_iff]
  constructor
  · intro h
    cases hcall : onMessage b with
    | done o b' =>
      simp only [hcall, Option.some.injEq] at h
      exact ⟨b, o, rfl, by rw [hcall, h]⟩
    | fault o e => simp [hcall] at h
    | spin o b' => simp [hcall] at h
  · rintro ⟨b', o, hb', hcall⟩
    cases hb'
    rw [hcall]

/-- If a call leaves as much as a frame unread, the stream has a refusal with that much. -/
theorem run_refuses (cs : List Bytes) (buf buf' : Buffer)
    (hrun : Transition.run arrived buf cs = some buf')
    (hlarge : kMaxMessageLen + kHeaderLen ≤ buf'.readableBytes) :
    buf' = buf ∨ ∃ r, kMaxMessageLen + kHeaderLen ≤ r ∧ Refuses (buf.readable ++ cs.flatten) r := by
  induction cs generalizing buf with
  | nil => exact Or.inl (Option.some.inj hrun).symm
  | cons c cs ih =>
    obtain ⟨b₁, hc, hrest⟩ := (run_cons_eq_some _ _ _ _).mp hrun
    obtain ⟨b, o, hb, hends⟩ := (arrived_eq_some_iff _ _ _).mp hc
    obtain ⟨b', hb', hread⟩ := buf.append_readable c
    cases hb.symm.trans hb'
    refine Or.inr ?_
    rw [List.flatten_cons, ← List.append_assoc, ← hread]
    rcases ih b₁ hrest with rfl | ⟨r, hr, href⟩
    · have hhere := (refuses_of_ends hends hlarge).append
        (by simp only [kHeaderLen] at hlarge; omega) cs.flatten
      exact ⟨_, by omega, hhere⟩
    · obtain ⟨r', hle, href'⟩ :=
        refuses_before_ends hends href (by simp only [kHeaderLen] at hr; omega)
      exact ⟨r', by omega, href'⟩

/-! ## A length that is refused -/

/-- The front of the unread bytes is read as a length that is not acceptable. -/
structure Malformed (buf : Buffer) : Prop where
  header : 19 ≤ buf.readableBytes
  bad : len buf.peek > kMaxMessageLen ∨ len buf.peek < kMinMessageLen

theorem malformed_of_error {buf buf' : Buffer} {o : List Event} (h : Ends turn buf o buf')
    (ho : .error .kInvalidLength ∈ o) : Malformed buf' := by
  induction h with
  | leave hturn =>
    cases does_of_eq hturn with
    | invalidLength h19 hlen => exact ⟨h19, hlen⟩
    | short _ => simp at ho
    | wait _ _ => simp at ho
    | rejected _ _ _ _ => simp at ho
  | again hturn _ ih =>
    cases does_of_eq hturn with
    | delivered _ _ _ _ => exact ih (by simpa using ho)

theorem Malformed.append {buf b : Buffer} (h : Malformed buf) {chunk : Bytes}
    (hb : b.readable = buf.readable ++ chunk) : Malformed b := by
  have h19 := h.header
  have hsize : b.readableBytes = buf.readableBytes + chunk.length := by
    rw [← b.readable_length, hb, List.length_append, buf.readable_length]
  have hlen : len b.peek = len buf.peek := by
    obtain ⟨back, hpeek⟩ := buf.peek_eq
    obtain ⟨back', hpeek'⟩ := b.peek_eq
    rw [hpeek, hpeek', hb, List.append_assoc, len_append (by rw [buf.readable_length]; omega),
      len_append (by rw [buf.readable_length]; omega)]
  exact ⟨by omega, hlen ▸ h.bad⟩

/-- **A bad length stays in front**, and everything that arrives is kept behind it. -/
theorem Malformed.feed {buf : Buffer} (h : Malformed buf) (cs : List Bytes) :
    ∃ buf', feed onMessage Buffer.append buf cs =
        .done (List.replicate cs.length (.error .kInvalidLength)) buf' ∧
      buf'.readable = buf.readable ++ cs.flatten := by
  induction cs generalizing buf with
  | nil => exact ⟨buf, rfl, by simp⟩
  | cons c cs ih =>
    obtain ⟨b, hb, hread, -⟩ := buf.append_ok c
    have hbad := h.append hread
    have hcall : onMessage b = .done [.error .kInvalidLength] b :=
      (onMessage_done_iff _ _ _).mpr (.leave (turn_invalidLength b hbad.header hbad.bad))
    obtain ⟨buf', hfeed, hread'⟩ := ih hbad
    refine ⟨buf', ?_, by rw [hread', hread, List.flatten_cons, List.append_assoc]⟩
    simp only [Framing.feed, hb, hcall]
    rw [hfeed]
    rfl

/-- **Unread RPC input.** However a stream is cut into chunks, after every call that returns
less than the largest frame is unread, if and only if the first frame of the stream that is
refused leaves less than that behind it. Once a length is refused, all later input stays
unread. -/
theorem unread_bounded_iff (w : Bytes) :
    ((∀ as bs buf, (as ++ bs).flatten = w →
        Transition.run arrived (Buffer.ofSize kInitialSize) as = some buf →
        buf.readableBytes < kMaxMessageLen + kHeaderLen) ↔
      ∀ r, Refuses w r → r < kMaxMessageLen + kHeaderLen) ∧
    ∀ buf chunk o buf' ds, arrive onMessage Buffer.append buf chunk = .done o buf' →
      .error .kInvalidLength ∈ o →
      ∃ buf'', feed onMessage Buffer.append buf' ds =
          .done (List.replicate ds.length (.error .kInvalidLength)) buf'' ∧
        buf''.readable = buf'.readable ++ ds.flatten := by
  refine ⟨⟨fun hbound r hr => ?_, fun hfits as bs buf hw hrun => ?_⟩, ?_⟩
  · -- the stream in one chunk
    by_contra hlarge
    obtain ⟨b, hb, hread⟩ := (Buffer.ofSize kInitialSize).append_readable w
    rw [Buffer.readable_ofSize, List.nil_append] at hread
    obtain ⟨o, buf, hends, hunread⟩ :=
      ends_of_refuses hr (by simp only [kHeaderLen] at hlarge; omega) b hread
    have hcall := (arrived_eq_some_iff _ _ _).mpr ⟨b, o, hb, hends⟩
    have hlt := hbound [w] [] buf (by simp) ((run_cons_eq_some _ _ _ _).mpr ⟨buf, hcall, rfl⟩)
    omega
  · by_contra hlarge
    rcases run_refuses as _ buf hrun (by omega) with rfl | ⟨r, hle, hr⟩
    · simp [Buffer.readableBytes, Buffer.ofSize, kMaxMessageLen] at hlarge
    · rw [Buffer.readable_ofSize, List.nil_append] at hr
      have hall := hr.append (by simp only [kHeaderLen] at hle; omega) bs.flatten
      rw [← List.flatten_append, hw] at hall
      have := hfits _ hall
      omega
  · intro buf chunk o buf' ds hcall ho
    obtain ⟨b, hb, -⟩ := buf.append_ok chunk
    simp only [arrive, hb] at hcall
    exact (malformed_of_error ((onMessage_done_iff _ _ _).mp hcall) ho).feed ds

/-- A chunk that starts with a bad length, again and again. -/
theorem malformed_chunks (c : Bytes) (h19 : 19 ≤ c.length)
    (hbad : len c > kMaxMessageLen ∨ len c < kMinMessageLen) (k : Nat) :
    ∃ buf, feed onMessage Buffer.append (Buffer.ofSize kInitialSize) (List.replicate (k + 1) c) =
        .done (List.replicate (k + 1) (.error .kInvalidLength)) buf ∧
      buf.readableBytes = (k + 1) * c.length := by
  obtain ⟨b, hb, hread, -⟩ := (Buffer.ofSize kInitialSize).append_ok c
  rw [Buffer.readable_ofSize, List.nil_append] at hread
  have hlen : len b.peek = len c := by
    obtain ⟨back, hpeek⟩ := b.peek_eq
    rw [hpeek, hread, len_append (by omega)]
  have hmal : Malformed b := by
    refine ⟨?_, hlen ▸ hbad⟩
    rw [← b.readable_length, hread]
    exact h19
  have hcall : onMessage b = .done [.error .kInvalidLength] b :=
    (onMessage_done_iff _ _ _).mpr (.leave (turn_invalidLength b hmal.header hmal.bad))
  obtain ⟨buf, hfeed, hunread⟩ := hmal.feed (List.replicate k c)
  refine ⟨buf, ?_, ?_⟩
  · rw [List.replicate_succ]
    simp only [feed, hb, hcall]
    rw [hfeed, List.length_replicate]
    rfl
  · rw [← buf.readable_length, hunread, hread, List.length_append]
    simp [Nat.succ_mul, Nat.add_comm]

/-- Zeros in chunks of 1024 bytes: none of them is consumed. -/
theorem unread_grows_on_zeros :
    ∃ buf, feed onMessage Buffer.append (Buffer.ofSize kInitialSize)
        (List.replicate 65537 (List.replicate 1024 0)) =
          .done (List.replicate 65537 (.error .kInvalidLength)) buf ∧
      ¬ buf.readableBytes < kMaxMessageLen + kHeaderLen := by
  have hlen : len (List.replicate 1024 0) = 0 := by decide +kernel
  obtain ⟨buf, hfeed, hsize⟩ := malformed_chunks (List.replicate 1024 0)
    (by rw [List.length_replicate]; decide) (Or.inr (by rw [hlen]; decide)) 65536
  refine ⟨buf, hfeed, ?_⟩
  rw [hsize, List.length_replicate]
  decide

end Cppim.Rpc.Codec
