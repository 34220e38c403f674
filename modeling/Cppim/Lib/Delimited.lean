import Cppim.Lib.Framing

/-! Streams whose frames say themselves where they end, valid or not.

A `Delimiter` finds the end of the first frame of its input. A loop that follows it hands
over the frames it accepts; a frame that it refuses is dropped, and the loop is left until
more input arrives. `Scans` is what such a loop owes to the delimiter. `Scans.feed_taken`
says what it has taken off the stream after any chunks, and `Scans.agree_iff` when the
chunks do not matter. -/

namespace Cppim.Lib.Delimited

open Cppim.Lib.Loop Cppim.Lib.Framing

variable {σ α β φ ω ε : Type}

/-- Finds the end of the first frame, as soon as all of it is there. -/
structure Delimiter (α : Type) where
  front : List α → Option Nat
  pos : ∀ {u n}, front u = some n → 0 < n
  le : ∀ {u n}, front u = some n → n ≤ u.length
  stable : ∀ {u n}, front u = some n → ∀ v, front (u ++ v) = some n
  prompt : ∀ {u v n}, front (u ++ v) = some n → n ≤ u.length → front u = some n

namespace Delimiter

variable (D : Delimiter α)

def framesFrom : Nat → List α → List (List α)
  | 0, _ => []
  | k + 1, u =>
    match D.front u with
    | none => []
    | some n => u.take n :: framesFrom k (u.drop n)

/-- The whole frames at the start of the input, in order. -/
def frames (u : List α) : List (List α) := D.framesFrom u.length u

theorem front_nil : D.front [] = none := by
  cases h : D.front [] with
  | none => rfl
  | some n =>
    have hpos := D.pos h
    have hle := D.le h
    simp at hle
    omega

theorem framesFrom_eq (k l : Nat) (u : List α) (hk : u.length ≤ k) (hl : u.length ≤ l) :
    D.framesFrom k u = D.framesFrom l u := by
  induction k generalizing l u with
  | zero =>
    obtain rfl : u = [] := List.eq_nil_of_length_eq_zero (by omega)
    cases l <;> simp [framesFrom, D.front_nil]
  | succ k ih =>
    cases l with
    | zero =>
      obtain rfl : u = [] := List.eq_nil_of_length_eq_zero (by omega)
      simp [framesFrom, D.front_nil]
    | succ l =>
      cases h : D.front u with
      | none => simp [framesFrom, h]
      | some n =>
        have hpos := D.pos h
        simp only [framesFrom, h]
        rw [ih l (u.drop n) (by simp; omega) (by simp; omega)]

theorem frames_of_none {u : List α} (h : D.front u = none) : D.frames u = [] := by
  unfold frames
  cases u.length <;> simp [framesFrom, h]

theorem frames_of_some {u : List α} {n : Nat} (h : D.front u = some n) :
    D.frames u = u.take n :: D.frames (u.drop n) := by
  have hpos := D.pos h
  have hle := D.le h
  obtain ⟨k, hk⟩ : ∃ k, u.length = k + 1 := ⟨u.length - 1, by omega⟩
  unfold frames
  rw [hk, framesFrom, h]
  show u.take n :: D.framesFrom k (u.drop n) = _
  rw [D.framesFrom_eq k _ (u.drop n) (by simp; omega) (Nat.le_refl _)]

theorem frames_eq_nil_iff {u : List α} : D.frames u = [] ↔ D.front u = none := by
  constructor
  · intro h
    cases hf : D.front u with
    | none => rfl
    | some n => simp [D.frames_of_some hf] at h
  · exact D.frames_of_none

/-- **Behind some frames.** What follows them is cut as a stream of its own, and so is
whatever arrives later. -/
theorem frames_behind {done left : List (List α)} {u : List α} (h : D.frames u = done ++ left) :
    ∃ r, u = done.flatten ++ r ∧ D.frames r = left ∧
      ∀ v, D.frames (u ++ v) = done ++ D.frames (r ++ v) := by
  induction done generalizing u with
  | nil => exact ⟨u, rfl, h, fun _ => rfl⟩
  | cons f done ih =>
    cases hf : D.front u with
    | none => simp [D.frames_of_none hf] at h
    | some n =>
      have hle := D.le hf
      rw [D.frames_of_some hf, List.cons_append, List.cons.injEq] at h
      obtain ⟨rfl, hrest⟩ := h
      obtain ⟨r, hr, hleft, hmore⟩ := ih hrest
      refine ⟨r, ?_, hleft, fun v => ?_⟩
      · rw [List.flatten_cons, List.append_assoc, ← hr, List.take_append_drop]
      · rw [D.frames_of_some (D.stable hf v), List.take_append_of_le_length hle,
          List.drop_append_of_le_length hle, hmore v, List.cons_append]

/-- A frame is the first frame of its own elements, and all of them. -/
theorem front_of_mem_frames {u f : List α} (h : f ∈ D.frames u) : D.front f = some f.length := by
  obtain ⟨done, left, hcut⟩ := List.append_of_mem h
  obtain ⟨r, -, hleft, -⟩ := D.frames_behind hcut
  cases hf : D.front r with
  | none => simp [D.frames_of_none hf] at hleft
  | some n =>
    have hle := D.le hf
    have hlen : (r.take n).length = n := by
      rw [List.length_take]
      omega
    rw [D.frames_of_some hf, List.cons.injEq] at hleft
    rw [← hleft.1, hlen]
    refine D.prompt (v := r.drop n) ?_ (Nat.le_of_eq hlen.symm)
    rwa [List.take_append_drop]

/-- One element more completes at most one frame, which is then all there is. -/
theorem frames_snoc {u : List α} (h : D.front u = none) (b : α) :
    D.frames (u ++ [b]) = [] ∨ D.frames (u ++ [b]) = [u ++ [b]] := by
  cases hf : D.front (u ++ [b]) with
  | none => exact Or.inl (D.frames_of_none hf)
  | some n =>
    have hle := D.le hf
    have hn : n = (u ++ [b]).length := by
      by_contra hne
      rw [List.length_append, List.length_singleton] at hle hne
      rw [D.prompt hf (by omega)] at h
      cases h
    rw [D.frames_of_some hf, hn, List.take_length, List.drop_length,
      D.frames_of_none D.front_nil]
    exact Or.inr rfl

end Delimiter

/-! ## One pass -/

section

variable (handle : φ → Option β)

/-- The frames up to the first that is refused, and with it. -/
def taken : List φ → List φ
  | [] => []
  | f :: fs => if (handle f).isSome then f :: taken fs else [f]

/-- The frames behind the first that is refused. -/
def untaken : List φ → List φ
  | [] => []
  | f :: fs => if (handle f).isSome then untaken fs else fs

/-- No frame that is accepted stands behind one that is refused. -/
def NoneBehind (fs : List φ) : Prop :=
  ∀ pre f post, fs = pre ++ f :: post → handle f = none → ∀ g ∈ post, handle g = none

theorem taken_append_untaken (fs : List φ) : taken handle fs ++ untaken handle fs = fs := by
  induction fs with
  | nil => rfl
  | cons f fs ih => by_cases h : (handle f).isSome <;> simp [taken, untaken, h, ih]

/-- Something is left only behind a refusal. -/
theorem untaken_cases (fs : List φ) :
    untaken handle fs = [] ∨ ∃ pre f, taken handle fs = pre ++ [f] ∧ handle f = none := by
  induction fs with
  | nil => exact Or.inl rfl
  | cons f fs ih =>
    by_cases h : (handle f).isSome
    · rcases ih with hnil | ⟨pre, g, hpre, hg⟩
      · exact Or.inl (by simp [untaken, h, hnil])
      · exact Or.inr ⟨f :: pre, g, by simp [taken, h, hpre], hg⟩
    · exact Or.inr ⟨[], f, by simp [taken, h], by simpa using h⟩

theorem noneBehind_iff (fs : List φ) :
    NoneBehind handle fs ↔ (untaken handle fs).filterMap handle = [] := by
  rw [List.filterMap_eq_nil_iff]
  induction fs with
  | nil => simp [NoneBehind, untaken]
  | cons f fs ih =>
    by_cases h : (handle f).isSome
    · simp only [untaken, h, ↓reduceIte, ← ih]
      constructor
      · intro hall pre g post hfs
        exact hall (f :: pre) g post (by simp [hfs])
      · intro hall pre g post hfs hg
        cases pre with
        | nil =>
          simp only [List.nil_append, List.cons.injEq] at hfs
          rw [hfs.1, hg] at h
          cases h
        | cons f' pre =>
          simp only [List.cons_append, List.cons.injEq] at hfs
          exact hall pre g post hfs.2 hg
    · have hf : handle f = none := by simpa using h
      simp only [untaken, h]
      constructor
      · intro hall
        exact hall [] f fs rfl hf
      · intro hall pre g post hfs _ g' hg'
        cases pre with
        | nil =>
          simp only [List.nil_append, List.cons.injEq] at hfs
          exact hall g' (hfs.2 ▸ hg')
        | cons f' pre =>
          simp only [List.cons_append, List.cons.injEq] at hfs
          exact hall g' (by simp [hfs.2, hg'])

end

/-! ## The loop -/

/-- What a loop owes to a delimiter: a frame that is accepted is handed over, one that is
refused is dropped and the loop left, and without a whole frame nothing is consumed. -/
structure Scans (turn : σ → Turn σ ω ε) (view : σ → List α) (D : Delimiter α)
    (handle : List α → Option β) (msg : ω → Option β) (Ok : List α → Prop) : Prop where
  accepted : ∀ {s n d}, D.front (view s) = some n → Ok ((view s).take n) →
    handle ((view s).take n) = some d →
    ∃ o s', turn s = .again o s' ∧ o.filterMap msg = [d] ∧ view s' = (view s).drop n
  refused : ∀ {s n}, D.front (view s) = some n → Ok ((view s).take n) →
    handle ((view s).take n) = none →
    ∃ o s', turn s = .leave o s' ∧ o.filterMap msg = [] ∧ view s' = (view s).drop n
  waits : ∀ {s}, D.front (view s) = none → ∃ o, turn s = .leave o s ∧ o.filterMap msg = []

section

variable {turn : σ → Turn σ ω ε} {view : σ → List α} {D : Delimiter α}
variable {handle : List α → Option β} {msg : ω → Option β} {Ok : List α → Prop}

/-- One run of the loop takes the frames up to a refusal. -/
theorem Scans.run_taken (h : Scans turn view D handle msg Ok) (n : Nat) (s : σ)
    (hn : (view s).length < n) (hok : ∀ f ∈ D.frames (view s), Ok f) :
    ∃ o s', run turn n s = .done o s' ∧
      o.filterMap msg = (taken handle (D.frames (view s))).filterMap handle ∧
      view s = (taken handle (D.frames (view s))).flatten ++ view s' := by
  induction n generalizing s with
  | zero => omega
  | succ n ih =>
    cases hf : D.front (view s) with
    | none =>
      obtain ⟨o, hturn, ho⟩ := h.waits hf
      refine ⟨o, s, run_leave hturn, ?_⟩
      simp [D.frames_of_none hf, taken, ho]
    | some k =>
      have hpos := D.pos hf
      have hle := D.le hf
      rw [D.frames_of_some hf] at hok ⊢
      have hfirst : Ok ((view s).take k) := hok _ (by simp)
      cases hd : handle ((view s).take k) with
      | none =>
        obtain ⟨o, s', hturn, ho, hview⟩ := h.refused hf hfirst hd
        refine ⟨o, s', run_leave hturn, ?_⟩
        simp [taken, hd, ho, hview]
      | some d =>
        obtain ⟨o, s₁, hturn, ho, hview⟩ := h.accepted hf hfirst hd
        have hlen : (view s₁).length < n := by
          rw [hview, List.length_drop]
          omega
        obtain ⟨o', s', hrun, ho', hrest⟩ :=
          ih s₁ hlen (by rw [hview]; exact fun f hf => hok f (by simp [hf]))
        rw [hview] at ho' hrest
        refine ⟨o ++ o', s', by rw [run_again hturn, hrun]; rfl, ?_, ?_⟩
        · simp [taken, hd, ho, ho']
        · rw [taken, hd, Option.isSome_some, if_pos rfl, List.flatten_cons, List.append_assoc,
            ← hrest, List.take_append_drop]

/-- The frames in `done` have been taken off the stream `w` and `u` is unread; whole frames
are unread only if the last frame was refused. -/
structure TakenOff (D : Delimiter α) (handle : List α → Option β) (w : List α)
    (done : List (List α)) (u : List α) : Prop where
  stream : ∀ v, D.frames (w ++ v) = done ++ D.frames (u ++ v)
  stopped : D.frames u = [] ∨ ∃ pre f, done = pre ++ [f] ∧ handle f = none

theorem TakenOff.start : TakenOff D handle [] [] [] :=
  ⟨fun _ => rfl, Or.inl (D.frames_of_none D.front_nil)⟩

/-- A chunk arrives and the loop takes what it can. -/
theorem TakenOff.pass {w u u' c : List α} {done : List (List α)} (h : TakenOff D handle w done u)
    (hu : u ++ c = (taken handle (D.frames (u ++ c))).flatten ++ u') :
    TakenOff D handle (w ++ c) (done ++ taken handle (D.frames (u ++ c))) u' := by
  obtain ⟨r, hr, hleft, hmore⟩ := D.frames_behind (taken_append_untaken handle _).symm
  obtain rfl : r = u' := List.append_cancel_left (hr.symm.trans hu)
  refine ⟨fun v => ?_, ?_⟩
  · rw [List.append_assoc, h.stream, ← List.append_assoc u, hmore, List.append_assoc]
  · rw [hleft]
    rcases untaken_cases handle (D.frames (u ++ c)) with hnil | ⟨pre, f, hpre, hf⟩
    · exact Or.inl hnil
    · exact Or.inr ⟨done ++ pre, f, by rw [hpre, List.append_assoc], hf⟩

variable {push : σ → List α → Except ε σ}

/-- The frames unread after one more chunk are among those of the whole stream. -/
theorem TakenOff.mem_frames {w u c v : List α} {done : List (List α)}
    (h : TakenOff D handle w done u) {f : List α} (hf : f ∈ D.frames (u ++ c)) :
    f ∈ D.frames (w ++ (c ++ v)) := by
  obtain ⟨r, -, -, hmore⟩ := D.frames_behind (List.append_nil (D.frames (u ++ c))).symm
  rw [h.stream, ← List.append_assoc, hmore]
  simp [hf]

/-- **Any chunks.** After any chunks some frames have been taken off the stream, and those
accepted among them have been handed over. -/
theorem Scans.feed_taken (h : Scans turn view D handle msg Ok)
    (hpush : ∀ s c, ∃ s', push s c = .ok s' ∧ view s' = view s ++ c)
    (cs : List (List α)) (s : σ) (w : List α) (done : List (List α))
    (hs : TakenOff D handle w done (view s)) (hok : ∀ f ∈ D.frames (w ++ cs.flatten), Ok f) :
    ∃ o s' done', feed (drain turn view) push s cs = .done o s' ∧
      o.filterMap msg = done'.filterMap handle ∧
      TakenOff D handle (w ++ cs.flatten) (done ++ done') (view s') := by
  induction cs generalizing s w done with
  | nil => exact ⟨[], s, [], rfl, rfl, by simpa using hs⟩
  | cons c cs ih =>
    obtain ⟨s₁, hs₁, hview⟩ := hpush s c
    rw [List.flatten_cons] at hok ⊢
    obtain ⟨o, s₂, hrun, ho, hrest⟩ := h.run_taken ((view s₁).length + 1) s₁ (Nat.lt_succ_self _)
      (by rw [hview]; exact fun f hf => hok f (hs.mem_frames hf))
    rw [hview] at ho hrest
    rw [← List.append_assoc] at hok ⊢
    obtain ⟨o', s', done', hfeed, ho', hs'⟩ := ih s₂ (w ++ c) _ (hs.pass hrest) hok
    refine ⟨o ++ o', s', taken handle (D.frames (view s ++ c)) ++ done', ?_, ?_, ?_⟩
    · simp only [feed, hs₁, drain, hrun]
      rw [hfeed]
      rfl
    · simp [ho, ho']
    · rw [← List.append_assoc]
      exact hs'

/-- Element by element every frame is taken when it is complete. -/
theorem Scans.feed_singletons (h : Scans turn view D handle msg Ok)
    (hpush : ∀ s c, ∃ s', push s c = .ok s' ∧ view s' = view s ++ c)
    (w : List α) (s : σ) (hs : D.front (view s) = none)
    (hok : ∀ f ∈ D.frames (view s ++ w), Ok f) :
    ∃ o s', feed (drain turn view) push s (w.map fun b => [b]) = .done o s' ∧
      o.filterMap msg = (D.frames (view s ++ w)).filterMap handle := by
  induction w generalizing s with
  | nil => exact ⟨[], s, rfl, by simp [D.frames_of_none hs]⟩
  | cons b w ih =>
    obtain ⟨s₁, hs₁, hview⟩ := hpush s [b]
    have hall : taken handle (D.frames (view s ++ [b])) = D.frames (view s ++ [b]) := by
      rcases D.frames_snoc hs b with hnil | hone
      · simp [hnil, taken]
      · rw [hone]
        simp [taken]
    obtain ⟨r, hr, hleft, hmore⟩ :=
      D.frames_behind (List.append_nil (D.frames (view s ++ [b]))).symm
    have hcut : D.frames (view s ++ b :: w) = D.frames (view s ++ [b]) ++ D.frames (r ++ w) := by
      rw [← hmore w, List.append_assoc, List.singleton_append]
    rw [hcut] at hok ⊢
    obtain ⟨o, s₂, hrun, ho, hrest⟩ := h.run_taken ((view s₁).length + 1) s₁ (Nat.lt_succ_self _)
      (by rw [hview]; exact fun f hf => hok f (by simp [hf]))
    rw [hview, hall] at ho hrest
    obtain rfl : r = view s₂ := List.append_cancel_left (hr.symm.trans hrest)
    obtain ⟨o', s', hfeed, ho'⟩ :=
      ih s₂ (D.frames_eq_nil_iff.mp hleft) (fun f hf => hok f (by simp [hf]))
    refine ⟨o ++ o', s', ?_, by simp [ho, ho']⟩
    simp only [List.map_cons, feed, hs₁, drain, hrun]
    rw [hfeed]
    rfl

/-- **Nothing is hidden.** If no frame that is accepted stands behind one that is refused,
any chunks hand over the accepted frames of the stream. -/
theorem Scans.feed_noneBehind (h : Scans turn view D handle msg Ok)
    (hpush : ∀ s c, ∃ s', push s c = .ok s' ∧ view s' = view s ++ c) (s : σ) (hs : view s = [])
    (cs : List (List α)) (hok : ∀ f ∈ D.frames cs.flatten, Ok f)
    (hnone : NoneBehind handle (D.frames cs.flatten)) :
    (feed (drain turn view) push s cs).out.filterMap msg =
      (D.frames cs.flatten).filterMap handle := by
  obtain ⟨o, s', done, hfeed, ho, htaken⟩ := h.feed_taken hpush cs s [] []
    (by rw [hs]; exact .start) (by rwa [List.nil_append])
  have hw := htaken.stream []
  simp only [List.nil_append, List.append_nil] at hw
  have hleft : (D.frames (view s')).filterMap handle = [] := by
    rcases htaken.stopped with hnil | ⟨pre, f, hpre, hf⟩
    · simp [hnil]
    · rw [List.nil_append] at hpre
      rw [List.filterMap_eq_nil_iff]
      exact hnone pre f (D.frames (view s')) (by rw [hw, hpre]; simp) hf
  rw [hfeed, hw, List.filterMap_append, hleft, List.append_nil]
  exact ho

/-- **When the chunks do not matter.** Any two ways to cut a stream into chunks hand over
the same if and only if no frame that is accepted stands behind one that is refused. -/
theorem Scans.agree_iff (h : Scans turn view D handle msg Ok)
    (hpush : ∀ s c, ∃ s', push s c = .ok s' ∧ view s' = view s ++ c) (s : σ) (hs : view s = [])
    (w : List α) (hok : ∀ f ∈ D.frames w, Ok f) :
    (∀ cs ds, cs.flatten = w → ds.flatten = w →
      (feed (drain turn view) push s cs).out.filterMap msg =
        (feed (drain turn view) push s ds).out.filterMap msg) ↔
      NoneBehind handle (D.frames w) := by
  have hfront : D.front (view s) = none := hs ▸ D.front_nil
  constructor
  · -- the stream in one chunk against one element a chunk
    intro hagree
    obtain ⟨o, s₁, hall, ho⟩ := h.feed_singletons hpush w s hfront (by simpa [hs] using hok)
    obtain ⟨s₂, hs₂, hview⟩ := hpush s w
    rw [hs, List.nil_append] at hview ho
    obtain ⟨o', s', hrun, ho', -⟩ := h.run_taken ((view s₂).length + 1) s₂ (Nat.lt_succ_self _)
      (by rwa [hview])
    have hone : feed (drain turn view) push s [w] = .done (o' ++ []) s' := by
      simp only [feed, hs₂, drain, hrun]
      rfl
    have hsame := hagree (w.map fun b => [b]) [w] (List.flatMap_singleton' w) (by simp)
    rw [hall, hone, List.append_nil] at hsame
    have hout : o.filterMap msg = o'.filterMap msg := hsame
    have hcut := congrArg (List.filterMap handle) (taken_append_untaken handle (D.frames w))
    rw [noneBehind_iff]
    rw [ho, ho', hview, ← hcut, List.filterMap_append] at hout
    simpa using hout
  · rintro hnone cs ds rfl hds
    rw [h.feed_noneBehind hpush s hs cs hok hnone, ← hds]
    rw [← hds] at hok hnone
    exact (h.feed_noneBehind hpush s hs ds hok hnone).symm

end

end Cppim.Lib.Delimited
