import Cppim.Lib.Loop

/-! Self-delimiting frames on a byte stream that arrives in arbitrary chunks.

A decode loop reads a store whose unread content is `view s`. `Decodes` asks two
things of one turn: on a content that starts with a whole valid frame it hands
that frame over and keeps the rest, and on a strict prefix of a valid frame it
leaves the store alone. `feed_exact` then says that every way of cutting a
stream of valid frames into chunks hands over exactly those frames, in order,
and leaves exactly the incomplete tail unread. -/

namespace Cppim.Lib.Framing

open Cppim.Lib.Loop

variable {σ α φ ω ε : Type}

/-- `xs` is a prefix of `ys` and not all of it. -/
def StrictPrefix (xs ys : List α) : Prop := xs <+: ys ∧ xs ≠ ys

instance [DecidableEq α] (xs ys : List α) : Decidable (StrictPrefix xs ys) :=
  inferInstanceAs (Decidable (xs <+: ys ∧ xs ≠ ys))

/-- The bytes of a list of frames, one after the other. -/
def stream (enc : φ → List α) (fs : List φ) : List α := (fs.map enc).flatten

@[simp] theorem stream_nil (enc : φ → List α) : stream enc [] = [] := rfl

@[simp] theorem stream_cons (enc : φ → List α) (f : φ) (fs : List φ) :
    stream enc (f :: fs) = enc f ++ stream enc fs := by
  simp [stream]

@[simp] theorem stream_append (enc : φ → List α) (fs gs : List φ) :
    stream enc (fs ++ gs) = stream enc fs ++ stream enc gs := by
  simp [stream]

theorem StrictPrefix.shorter {xs ys zs : List α} (h : xs <+: ys) (hy : StrictPrefix ys zs) :
    StrictPrefix xs zs := by
  refine ⟨h.trans hy.1, fun e => hy.2 ?_⟩
  subst e
  exact hy.1.eq_of_length_le h.length_le

theorem StrictPrefix.length_lt {xs ys : List α} (h : StrictPrefix xs ys) :
    xs.length < ys.length := by
  have hle := h.1.length_le
  have hne : xs.length ≠ ys.length := fun e => h.2 (h.1.eq_of_length e)
  omega

/-- A prefix of `a ++ b` either stops strictly inside `a` or contains `a`. -/
theorem prefix_append_cases {x a b : List α} (h : x <+: a ++ b) :
    StrictPrefix x a ∨ ∃ x', x = a ++ x' ∧ x' <+: b := by
  have ha : a <+: a ++ b := List.prefix_append a b
  by_cases hlen : a.length ≤ x.length
  · obtain ⟨x', rfl⟩ := List.prefix_of_prefix_length_le ha h hlen
    exact Or.inr ⟨x', rfl, (List.prefix_append_right_inj a).mp h⟩
  · refine Or.inl ⟨List.prefix_of_prefix_length_le h ha (by omega), fun e => hlen ?_⟩
    exact e ▸ Nat.le_refl _

/-- **Cutting a stream.** A prefix of a stream of frames is some whole frames
and a strict prefix of the next one. -/
theorem cut_stream (enc : φ → List α) (fs : List φ) (g : φ) (p x : List α)
    (hp : StrictPrefix p (enc g)) (hx : x <+: stream enc fs ++ p) :
    ∃ pre post r, fs = pre ++ post ∧ x = stream enc pre ++ r ∧
      StrictPrefix r (enc (post.headD g)) := by
  induction fs generalizing x with
  | nil => exact ⟨[], [], x, rfl, rfl, hp.shorter (by simpa using hx)⟩
  | cons f fs ih =>
    rw [stream_cons, List.append_assoc] at hx
    rcases prefix_append_cases hx with hs | ⟨x', rfl, hx'⟩
    · exact ⟨[], f :: fs, x, rfl, rfl, hs⟩
    · obtain ⟨pre, post, r, rfl, rfl, hr⟩ := ih x' hx'
      exact ⟨f :: pre, post, r, rfl, by simp, hr⟩

/-- What a decode loop owes to a frame format. -/
structure Decodes (turn : σ → Turn σ ω ε) (view : σ → List α) (enc : φ → List α) (out : φ → ω)
    (Ok : φ → Prop) : Prop where
  nonempty : ∀ f, Ok f → enc f ≠ []
  whole : ∀ s f rest, Ok f → view s = enc f ++ rest →
    ∃ s', turn s = .again [out f] s' ∧ view s' = rest
  part : ∀ s f, Ok f → StrictPrefix (view s) (enc f) → turn s = .leave [] s

theorem Decodes.mono {turn : σ → Turn σ ω ε} {view : σ → List α} {enc : φ → List α} {out : φ → ω}
    {Ok Ok' : φ → Prop} (h : Decodes turn view enc out Ok) (hok : ∀ f, Ok' f → Ok f) :
    Decodes turn view enc out Ok' where
  nonempty := fun f hf => h.nonempty f (hok f hf)
  whole := fun s f rest hf => h.whole s f rest (hok f hf)
  part := fun s f hf => h.part s f (hok f hf)

/-- Append a chunk to the store and run the handler, chunk after chunk. -/
def feed (handler : σ → Outcome σ ω ε) (push : σ → List α → Except ε σ) :
    σ → List (List α) → Outcome σ ω ε
  | s, [] => .done [] s
  | s, c :: cs =>
    match push s c with
    | .error e => .fault [] e
    | .ok s₁ =>
      match handler s₁ with
      | .done o s₂ => (feed handler push s₂ cs).emit o
      | x => x

/-- One chunk: it is pushed and the handler runs. -/
def arrive (handler : σ → Outcome σ ω ε) (push : σ → List α → Except ε σ) (s : σ) (c : List α) :
    Outcome σ ω ε :=
  match push s c with
  | .error e => .fault [] e
  | .ok s₁ => handler s₁

theorem feed_cons (handler : σ → Outcome σ ω ε) (push : σ → List α → Except ε σ) (s : σ)
    (c : List α) (cs : List (List α)) :
    feed handler push s (c :: cs) =
      match arrive handler push s c with
      | .done o s₂ => (feed handler push s₂ cs).emit o
      | x => x := by
  simp only [feed, arrive]
  cases push s c <;> rfl

/-- More chunks are handled from the state the earlier ones left. -/
theorem feed_append {handler : σ → Outcome σ ω ε} {push : σ → List α → Except ε σ}
    {s t : σ} {cs : List (List α)} {o : List ω} (h : feed handler push s cs = .done o t)
    (cs' : List (List α)) :
    feed handler push s (cs ++ cs') = (feed handler push t cs').emit o := by
  induction cs generalizing s o with
  | nil =>
    cases h
    simp
  | cons c cs ih =>
    rw [List.cons_append, feed_cons]
    rw [feed_cons] at h
    cases ha : arrive handler push s c with
    | fault o' e => simp [ha] at h
    | spin o' s₂ => simp [ha] at h
    | done o' s₂ =>
      simp only [ha] at h ⊢
      cases hf : feed handler push s₂ cs with
      | fault o'' e => simp [hf, Outcome.emit] at h
      | spin o'' s₃ => simp [hf, Outcome.emit] at h
      | done o'' s₃ =>
        rw [hf] at h
        cases h
        rw [ih hf, emit_emit]

/-- What pushing keeps, and every call of the handler unless it faults, holds behind all
chunks; no call hangs. -/
theorem feed_halts {handler : σ → Outcome σ ω ε} {push : σ → List α → Except ε σ} {I : σ → Prop}
    (hpush : ∀ s c s₁, I s → push s c = .ok s₁ → I s₁)
    (hhandler : ∀ s, I s → (handler s).Halts I) (cs : List (List α)) (s : σ) (hs : I s) :
    (feed handler push s cs).Halts I := by
  induction cs generalizing s with
  | nil => exact hs
  | cons c cs ih =>
    rw [feed]
    cases hp : push s c with
    | error e => trivial
    | ok s₁ =>
      have hcall := hhandler s₁ (hpush s c s₁ hs hp)
      cases hh : handler s₁ with
      | done o s₂ =>
        rw [hh] at hcall
        simp only [hh, halts_emit]
        exact ih s₂ hcall
      | fault o e => simp only [hh, Outcome.Halts]
      | spin o s₂ => exact absurd hh (hcall.ne_spin o s₂)

/-- As `feed`, but no chunk is pushed any more once `stop` holds; the chunks that
are left come with the state. -/
def feedUntil (stop : σ → Bool) (handler : σ → Outcome σ ω ε) (push : σ → List α → Except ε σ) :
    σ → List (List α) → Outcome (σ × List (List α)) ω ε
  | s, [] => .done [] (s, [])
  | s, c :: cs =>
    if stop s then .done [] (s, c :: cs)
    else
      match arrive handler push s c with
      | .done o s₂ => (feedUntil stop handler push s₂ cs).emit o
      | .fault o e => .fault o e
      | .spin o s₂ => .spin o (s₂, cs)

theorem feedUntil_stop {stop : σ → Bool} {handler : σ → Outcome σ ω ε}
    {push : σ → List α → Except ε σ} {s : σ} (h : stop s = true) (cs : List (List α)) :
    feedUntil stop handler push s cs = .done [] (s, cs) := by
  cases cs with
  | nil => rfl
  | cons c cs => simp [feedUntil, h]

theorem feedUntil_cons {stop : σ → Bool} {handler : σ → Outcome σ ω ε}
    {push : σ → List α → Except ε σ} {s s₂ : σ} {c : List α} {o : List ω}
    (hs : stop s = false) (ha : arrive handler push s c = .done o s₂) (cs : List (List α)) :
    feedUntil stop handler push s (c :: cs) = (feedUntil stop handler push s₂ cs).emit o := by
  simp [feedUntil, hs, ha]

section

variable {τ : Type} {handler : σ → Outcome σ ω ε} {handler' : τ → Outcome τ ω ε}
variable {push : σ → List α → Except ε σ} {push' : τ → List α → Except ε τ} {view : σ → τ}

theorem arrive_map (hh : ∀ s, (handler s).map view = handler' (view s))
    (hp : ∀ s c, (push s c).map view = push' (view s) c) (s : σ) (c : List α) :
    (arrive handler push s c).map view = arrive handler' push' (view s) c := by
  have hps := hp s c
  rw [arrive, arrive, ← hps]
  cases push s c with
  | error e => rfl
  | ok s₁ => exact hh s₁

/-- Handlers that agree through a view of the state treat every sequence of
chunks alike. -/
theorem feed_map (hh : ∀ s, (handler s).map view = handler' (view s))
    (hp : ∀ s c, (push s c).map view = push' (view s) c) (cs : List (List α)) (s : σ) :
    (feed handler push s cs).map view = feed handler' push' (view s) cs := by
  induction cs generalizing s with
  | nil => rfl
  | cons c cs ih =>
    rw [feed_cons, feed_cons, ← arrive_map hh hp]
    cases arrive handler push s c with
    | fault o e => rfl
    | spin o s₂ => rfl
    | done o s₂ =>
      show ((feed handler push s₂ cs).emit o).map view = _
      rw [map_emit, ih]
      rfl

theorem feedUntil_map {stop : σ → Bool} {stop' : τ → Bool} (hs : ∀ s, stop s = stop' (view s))
    (hh : ∀ s, (handler s).map view = handler' (view s))
    (hp : ∀ s c, (push s c).map view = push' (view s) c) (cs : List (List α)) (s : σ) :
    (feedUntil stop handler push s cs).map (fun p => (view p.1, p.2)) =
      feedUntil stop' handler' push' (view s) cs := by
  induction cs generalizing s with
  | nil => rfl
  | cons c cs ih =>
    rw [feedUntil, feedUntil, ← hs, ← arrive_map hh hp]
    split
    · rfl
    · cases arrive handler push s c with
      | fault o e => rfl
      | spin o s₂ => rfl
      | done o s₂ =>
        show ((feedUntil stop handler push s₂ cs).emit o).map _ = _
        rw [map_emit, ih]
        rfl

end

/-- The handler that runs the decode loop with the number of unread bytes as fuel. -/
def drain (turn : σ → Turn σ ω ε) (view : σ → List α) (s : σ) : Outcome σ ω ε :=
  run turn ((view s).length + 1) s

section

variable {turn : σ → Turn σ ω ε} {push : σ → List α → Except ε σ} {view : σ → List α}
variable {enc : φ → List α} {out : φ → ω} {Ok : φ → Prop}

/-- One run of the loop hands over the whole frames in front and stops at the
incomplete one. -/
theorem run_frames (F : Decodes turn view enc out Ok) (fs : List φ) (next : φ) (r : List α)
    (hok : ∀ f ∈ fs, Ok f) (hnext : Ok next) (hr : StrictPrefix r (enc next)) (s : σ)
    (hs : view s = stream enc fs ++ r) (n : Nat) (hn : (view s).length < n) :
    ∃ s', run turn n s = .done (fs.map out) s' ∧ view s' = r := by
  induction fs generalizing s n with
  | nil =>
    obtain ⟨n, rfl⟩ : ∃ m, n = m + 1 := ⟨n - 1, by omega⟩
    have hv : view s = r := by simpa using hs
    exact ⟨s, run_leave (F.part s next hnext (hv ▸ hr)), hv⟩
  | cons f fs ih =>
    obtain ⟨n, rfl⟩ : ∃ m, n = m + 1 := ⟨n - 1, by omega⟩
    have hf : Ok f := hok f (by simp)
    have hv : view s = enc f ++ (stream enc fs ++ r) := by simpa using hs
    obtain ⟨s₁, ht, hs₁⟩ := F.whole s f _ hf hv
    have hpos : 0 < (enc f).length := List.length_pos_of_ne_nil (F.nonempty f hf)
    have hlen : (view s₁).length < n := by
      have := congrArg List.length hv
      rw [List.length_append, ← hs₁] at this
      omega
    obtain ⟨s', hrun, hs'⟩ := ih (fun g hg => hok g (by simp [hg])) s₁ hs₁ n hlen
    exact ⟨s', by rw [run_again ht, hrun]; rfl, hs'⟩

/-- The store between two chunks: what is unread stops strictly inside the next
frame, so the loop has nothing to hand over. -/
theorem feed_from_stuck (F : Decodes turn view enc out Ok)
    (hpush : ∀ s c, ∃ s', push s c = .ok s' ∧ view s' = view s ++ c)
    (cs : List (List α)) (fs : List φ) (g : φ) (p : List α) (hok : ∀ f ∈ fs, Ok f) (hg : Ok g)
    (hp : StrictPrefix p (enc g)) (s : σ) (hs : view s ++ cs.flatten = stream enc fs ++ p)
    (hstuck : StrictPrefix (view s) (enc (fs.headD g))) :
    ∃ s', feed (drain turn view) push s cs = .done (fs.map out) s' ∧ view s' = p := by
  induction cs generalizing fs s with
  | nil =>
    cases fs with
    | nil => exact ⟨s, rfl, by simpa using hs⟩
    | cons f fs =>
      have hlt := hstuck.length_lt
      have hlen := congrArg List.length hs
      simp only [List.headD_cons, List.flatten_nil, List.append_nil, stream_cons,
        List.length_append] at hlt hlen
      omega
  | cons c cs ih =>
    obtain ⟨s₁, hpu, hv₁⟩ := hpush s c
    have hall : view s₁ ++ cs.flatten = stream enc fs ++ p := by
      rw [← hs, hv₁, List.flatten_cons, List.append_assoc]
    obtain ⟨pre, post, r, rfl, hx, hr⟩ := cut_stream enc fs g p (view s₁) hp ⟨cs.flatten, hall⟩
    have hnext : Ok (post.headD g) := by
      cases post with
      | nil => exact hg
      | cons f post => exact hok f (by simp)
    obtain ⟨s₂, hrun, hv₂⟩ := run_frames F pre (post.headD g) r (fun f hf => hok f (by simp [hf]))
      hnext hr s₁ hx ((view s₁).length + 1) (by omega)
    have hrest : view s₂ ++ cs.flatten = stream enc post ++ p := by
      rw [hx, stream_append, List.append_assoc, List.append_assoc] at hall
      rw [hv₂]
      exact List.append_cancel_left hall
    obtain ⟨s', hfeed, hv'⟩ := ih post (fun f hf => hok f (by simp [hf])) s₂ hrest (hv₂ ▸ hr)
    refine ⟨s', ?_, hv'⟩
    simp only [feed, hpu, drain, hrun]
    rw [hfeed]
    simp only [Outcome.emit, List.map_append]

/-- **Framing is exact under any segmentation.** -/
theorem feed_exact (F : Decodes turn view enc out Ok)
    (hpush : ∀ s c, ∃ s', push s c = .ok s' ∧ view s' = view s ++ c)
    (cs : List (List α)) (fs : List φ) (g : φ) (p : List α) (hok : ∀ f ∈ fs, Ok f) (hg : Ok g)
    (hp : StrictPrefix p (enc g)) (hcs : cs.flatten = stream enc fs ++ p) (s : σ)
    (hs : view s = []) :
    ∃ s', feed (drain turn view) push s cs = .done (fs.map out) s' ∧ view s' = p := by
  refine feed_from_stuck F hpush cs fs g p hok hg hp s (by rw [hs, List.nil_append, hcs]) ?_
  have hnext : Ok (fs.headD g) := by
    cases fs with
    | nil => exact hg
    | cons f fs => exact hok f (by simp)
  exact hs ▸ ⟨List.nil_prefix, (F.nonempty _ hnext).symm⟩

/-- A frame on which the loop stops for good, however much of it is there. -/
def Blocks (turn : σ → Turn σ ω ε) (view : σ → List α) (enc : φ → List α) (f : φ) : Prop :=
  ∀ s, view s <+: enc f ∨ enc f <+: view s → ∃ o, turn s = .leave o s

/-- **A stream in transit.** Part of a stream of frames is in the store and the
rest still on its way. A turn leaves the store alone, or takes exactly the first
frame off the stream. -/
theorem turn_in_transit (F : Decodes turn view enc out Ok) (fs : List φ) (g : φ) (hg : Ok g)
    (hok : ∀ f ∈ fs, Ok f ∨ Blocks turn view enc f) (s : σ) (wire : List α)
    (hs : view s ++ wire = stream enc fs) :
    (∃ o, turn s = .leave o s) ∨
    ∃ f fs' s', fs = f :: fs' ∧ Ok f ∧ turn s = .again [out f] s' ∧
      view s' ++ wire = stream enc fs' := by
  cases fs with
  | nil =>
    have hv : view s = [] := (List.append_eq_nil_iff.mp hs).1
    refine Or.inl ⟨_, F.part s g hg ?_⟩
    exact hv ▸ ⟨List.nil_prefix, (F.nonempty g hg).symm⟩
  | cons f fs =>
    rw [stream_cons] at hs
    have hpre : view s <+: enc f ++ stream enc fs := ⟨wire, hs⟩
    rcases prefix_append_cases hpre with hpart | ⟨rest, hrest, _⟩
    · rcases hok f (by simp) with hf | hf
      · exact Or.inl ⟨_, F.part s f hf hpart⟩
      · exact Or.inl (hf s (Or.inl hpart.1))
    · rcases hok f (by simp) with hf | hf
      · obtain ⟨s', ht, hs'⟩ := F.whole s f rest hf hrest
        refine Or.inr ⟨f, fs, s', rfl, hf, ht, ?_⟩
        rw [hrest, List.append_assoc] at hs
        rw [hs', List.append_cancel_left hs]
      · exact Or.inl (hf s (Or.inr ⟨rest, hrest.symm⟩))

end

end Cppim.Lib.Framing
