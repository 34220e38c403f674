import Cppim.Lib.Framing

/-! Loops that read their input as it arrives. The state of such a loop is a
control part and the input not yet read. A turn that lacks input leaves and
changes nothing; every other turn would do the same with more input behind.
`ends_more` compares the loop on the input so far with the loop on all of it, and
`feedUntil_of_ends` says that the input may arrive in any chunks. -/

namespace Cppim.Lib.Incremental

open Cppim.Lib.Loop Cppim.Lib.Framing

variable {κ α ω ε : Type}

/-- More input behind the unread one. -/
def more (ys : List α) (p : κ × List α) : κ × List α := (p.1, p.2 ++ ys)

@[simp] theorem more_nil (p : κ × List α) : more [] p = p := by simp [more]

@[simp] theorem more_more (ys zs : List α) (p : κ × List α) :
    more zs (more ys p) = more (ys ++ zs) p := by
  simp [more]

/-- A turn lacks input, puts out `wait` and changes nothing, or more input behind
makes no difference to it. -/
def Resumes (turn : κ × List α → Turn (κ × List α) ω ε) (wait : List ω) : Prop :=
  ∀ p ys, turn p = .leave wait p ∨ turn (more ys p) = (turn p).map (more ys)

variable {turn : κ × List α → Turn (κ × List α) ω ε} {wait : List ω}

/-- **Less input.** Of a loop that ends on all the input, the loop on the first
part of it does the same without the rest, or waits where the loop on all of it
goes on. -/
theorem ends_more (hinc : Resumes turn wait) {p t : κ × List α} {ys : List α} {o : List ω}
    (h : Ends turn (more ys p) o t) :
    (∃ t₀, Ends turn p o t₀ ∧ t = more ys t₀) ∨
    ∃ o₁ o₂ q, o = o₁ ++ o₂ ∧ Ends turn p (o₁ ++ wait) q ∧ turn q = .leave wait q ∧
      Ends turn (more ys q) o₂ t := by
  generalize hs : more ys p = s at h
  induction h generalizing p with
  | @leave s t o ht =>
    subst hs
    rcases hinc p ys with hw | hm
    · exact Or.inr ⟨[], o, p, rfl, .leave hw, hw, .leave ht⟩
    · rw [hm] at ht
      cases hp : turn p with
      | leave o' t₀ =>
        rw [hp] at ht
        cases ht
        exact Or.inl ⟨t₀, .leave hp, rfl⟩
      | again o' p' => simp [hp, Turn.map] at ht
      | fault e => simp [hp, Turn.map] at ht
  | @again s s' t o o' ht hrest ih =>
    subst hs
    rcases hinc p ys with hw | hm
    · exact Or.inr ⟨[], o ++ o', p, rfl, .leave hw, hw, .again ht hrest⟩
    · rw [hm] at ht
      cases hp : turn p with
      | again o₀ p' =>
        rw [hp] at ht
        cases ht
        rcases ih rfl with ⟨t₀, he, rfl⟩ | ⟨o₁, o₂, q, rfl, he, hq, hgo⟩
        · exact Or.inl ⟨t₀, .again hp he, rfl⟩
        · refine Or.inr ⟨o ++ o₁, o₂, q, by simp, ?_, hq, hgo⟩
          rw [List.append_assoc]
          exact .again hp he
      | leave o₀ t₀ => simp [hp, Turn.map] at ht
      | fault e => simp [hp, Turn.map] at ht

/-- A turn that waits on some input waits on less of it. -/
theorem wait_of_more (hinc : Resumes turn wait) {p : κ × List α} {ys : List α}
    (h : turn (more ys p) = .leave wait (more ys p)) : turn p = .leave wait p := by
  rcases hinc p ys with hw | hm
  · exact hw
  · rw [hm] at h
    cases hp : turn p with
    | leave o t =>
      simp only [hp, Turn.map, Turn.leave.injEq, more, Prod.mk.injEq, List.append_cancel_right_eq]
        at h
      obtain ⟨rfl, h₁, h₂⟩ := h
      rw [Prod.ext h₁ h₂]
    | again o t => simp [hp, Turn.map] at h
    | fault e => simp [hp, Turn.map] at h

/-- A turn that does not wait does the same with more input. -/
theorem ends_of_less (hinc : Resumes turn wait) {p t : κ × List α} {o : List ω}
    (h : Ends turn p o t) (ht : turn t ≠ .leave wait t) (ys : List α) :
    Ends turn (more ys p) o (more ys t) := by
  induction h with
  | @leave p t o hp =>
    rcases hinc p ys with hw | hm
    · rw [hw] at hp
      cases hp
      exact absurd hw ht
    · exact .leave (by rw [hm, hp]; rfl)
  | @again p p' t o o' hp _ ih =>
    rcases hinc p ys with hw | hm
    · rw [hw] at hp
      cases hp
    · exact .again (by rw [hm, hp]; rfl) (ih ht)

/-- **Any chunks.** A loop that ends on all of its input with nothing put out but
`wait` ends in the same place when the input arrives in chunks and the loop is
entered after each of them, until `stop`. -/
theorem feedUntil_of_ends (hinc : Resumes turn wait)
    (hone : ∀ {p t : κ × List α} {o : List ω}, Ends turn p (o ++ wait) t → o = [])
    (stop : κ × List α → Bool) (hstop : ∀ p ys, stop (more ys p) = stop p)
    (hgo : ∀ {p t : κ × List α}, Ends turn p wait t → stop t = false → turn t = .leave wait t)
    (hend : ∀ {p : κ × List α}, turn p = .leave wait p → stop p = false)
    {handler : κ × List α → Outcome (κ × List α) ω ε}
    (hhandler : ∀ {p t : κ × List α} {o : List ω}, Ends turn p o t → handler p = .done o t)
    (cs : List (List α)) (p t : κ × List α) (hp : turn p = .leave wait p)
    (h : Ends turn (more cs.flatten p) wait t) :
    ∃ called left t', cs = called ++ left ∧
      feedUntil stop handler (fun p c => .ok (more c p)) p cs =
        .done (called.flatMap fun _ => wait) (t', left) ∧ more left.flatten t' = t := by
  induction cs generalizing p with
  | nil =>
    rw [List.flatten_nil, more_nil] at h
    obtain ⟨-, rfl⟩ := ends_of_leave hp h
    exact ⟨[], [], t, rfl, rfl, more_nil t⟩
  | cons c cs ih =>
    have read {q : κ × List α} (hq : Ends turn (more c p) wait q) :
        arrive handler (fun p c => .ok (more c p)) p c = .done wait q := hhandler hq
    -- the chunk is read and the loop goes on with the rest from where it then stands
    have next (q : κ × List α) (hq : Ends turn (more c p) wait q) (hwait : turn q = .leave wait q)
        (hrest : Ends turn (more cs.flatten q) wait t) :
        ∃ called left t', c :: cs = called ++ left ∧
          feedUntil stop handler (fun p c => .ok (more c p)) p (c :: cs) =
            .done (called.flatMap fun _ => wait) (t', left) ∧ more left.flatten t' = t := by
      obtain ⟨called, left, t', rfl, hfeed, ht⟩ := ih q hwait hrest
      refine ⟨c :: called, left, t', rfl, ?_, ht⟩
      rw [feedUntil_cons (hend hp) (read hq), hfeed]
      simp [Outcome.emit]
    rw [List.flatten_cons, ← more_more] at h
    rcases ends_more hinc h with ⟨t₀, he, rfl⟩ | ⟨o₁, o₂, q, ho, he, hq, hrest⟩
    · cases hs : stop t₀ with
      | true =>
        refine ⟨[c], cs, t₀, rfl, ?_, rfl⟩
        rw [feedUntil_cons (hend hp) (read he), feedUntil_stop hs]
        simp [Outcome.emit]
      | false =>
        have hall : turn (more cs.flatten t₀) = .leave wait (more cs.flatten t₀) :=
          hgo h (by rw [hstop, hs])
        exact next t₀ he (wait_of_more hinc hall) (.leave hall)
    · obtain rfl := hone he
      rw [List.nil_append] at he ho
      exact next q he hq (ho ▸ hrest)

end Cppim.Lib.Incremental
