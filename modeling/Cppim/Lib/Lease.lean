import Mathlib.Data.List.Basic
import Mathlib.Data.List.Pairwise

/-! Leases: what is granted until a deadline, and for a span longer each time it is renewed
before that. A lease that is over cannot be renewed. `find_lease` says what that amounts to:
no two of the times at which it was renewed are further apart than the span. -/

namespace Cppim.Lib.Lease

variable {α : Type}

/-- What is still granted; `none` is a lease that was given up, or never begun. -/
def find (now : Nat) : Option (α × Nat) → Option α
  | some (a, deadline) => if now ≤ deadline then some a else none
  | none => none

/-- A lease that is renewed at `now`. -/
def renew (span now : Nat) (lease : Option (α × Nat)) : Option (α × Nat) :=
  (find now lease).map fun a => (a, now + span)

@[simp] theorem find_none (now : Nat) : find now (none : Option (α × Nat)) = none := rfl

@[simp] theorem find_some (now deadline : Nat) (a : α) :
    find now (some (a, deadline)) = if now ≤ deadline then some a else none := rfl

theorem find_renew (span now t : Nat) (lease : Option (α × Nat)) :
    find t (renew span now lease) = if t ≤ now + span then find now lease else none := by
  unfold renew
  cases find now lease <;> simp

/-- Times that are at most `span` apart, from `start` to `now`. -/
def Unbroken (span : Nat) : Nat → List Nat → Nat → Prop
  | start, [], now => now ≤ start + span
  | start, t :: ts, now => t ≤ start + span ∧ Unbroken span t ts now

instance Unbroken.decidable (span : Nat) :
    ∀ (start : Nat) (ts : List Nat) (now : Nat), Decidable (Unbroken span start ts now)
  | start, [], now => inferInstanceAs (Decidable (now ≤ start + span))
  | start, t :: ts, now =>
    have := Unbroken.decidable span t ts now
    inferInstanceAs (Decidable (t ≤ start + span ∧ Unbroken span t ts now))

/-- What happens to a lease: it is granted anew, renewed, given up, or left alone. -/
inductive Event (α : Type) where
  | grant (a : α)
  | renew
  | release
  | other
  deriving Repr, DecidableEq

/-- The lease after an event at `now`. -/
def after (span : Nat) (lease : Option (α × Nat)) : Nat × Event α → Option (α × Nat)
  | (now, .grant a) => some (a, now + span)
  | (now, .renew) => renew span now lease
  | (_, .release) => none
  | (_, .other) => lease

/-- The lease that a log of events leaves. -/
def lease (span : Nat) (es : List (Nat × Event α)) : Option (α × Nat) :=
  es.foldl (after span) none

theorem lease_concat (span : Nat) (es : List (Nat × Event α)) (e : Nat × Event α) :
    lease span (es ++ [e]) = after span (lease span es) e := by
  simp [lease]

/-- The times at which the lease was renewed. -/
def renewals (es : List (Nat × Event α)) : List Nat :=
  es.filterMap fun e =>
    match e.2 with
    | .renew => some e.1
    | _ => none

/-- The lease is not granted anew. -/
def NoGrant (es : List (Nat × Event α)) : Prop := ∀ e ∈ es, ∀ a, e.2 ≠ .grant a

theorem NoGrant.of_cons {e : Nat × Event α} {es : List (Nat × Event α)} (h : NoGrant (e :: es)) :
    NoGrant es := fun e' he' => h e' (List.mem_cons_of_mem e he')

/-- Nothing begins without a grant. -/
theorem foldl_after_none {span : Nat} {es : List (Nat × Event α)} (h : NoGrant es) :
    es.foldl (after span) none = none := by
  induction es with
  | nil => rfl
  | cons e es ih =>
    have hnone : after span none e = none := by
      obtain ⟨now, what⟩ := e
      cases what with
      | grant a => exact absurd rfl (h _ List.mem_cons_self a)
      | renew => rfl
      | release => rfl
      | other => rfl
    rw [List.foldl_cons, hnone, ih h.of_cons]

/-- A lease since it was granted last. -/
theorem find_foldl_after {span start t : Nat} {a b : α} {es : List (Nat × Event α)}
    (h : NoGrant es) :
    find t (es.foldl (after span) (some (a, start + span))) = some b ↔
      b = a ∧ (∀ e ∈ es, e.2 ≠ .release) ∧ Unbroken span start (renewals es) t := by
  induction es generalizing start with
  | nil => simp [renewals, Unbroken, and_comm, eq_comm]
  | cons e es ih =>
    obtain ⟨now, what⟩ := e
    cases what with
    | grant c => exact absurd rfl (h _ List.mem_cons_self c)
    | renew =>
      simp only [List.foldl_cons, after, renew, find_some]
      by_cases hle : now ≤ start + span
      · rw [if_pos hle, Option.map_some, ih h.of_cons]
        simp [renewals, Unbroken, hle]
      · rw [if_neg hle, Option.map_none, foldl_after_none h.of_cons]
        simp [renewals, Unbroken, hle]
    | release =>
      rw [List.foldl_cons, after, foldl_after_none h.of_cons]
      simp
    | other =>
      rw [List.foldl_cons, after, ih h.of_cons]
      simp [renewals]

/-- **A lease holds exactly if it was never given up and no renewal came too late.** -/
theorem find_lease {span start t : Nat} {a b : α} {before es : List (Nat × Event α)}
    (h : NoGrant es) :
    find t (lease span (before ++ (start, .grant a) :: es)) = some b ↔
      b = a ∧ (∀ e ∈ es, e.2 ≠ .release) ∧ Unbroken span start (renewals es) t := by
  rw [lease, List.foldl_append, List.foldl_cons, after]
  exact find_foldl_after h

end Cppim.Lib.Lease
