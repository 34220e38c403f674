import Cppim.Rpc.Matching
import Mathlib.Data.List.TakeWhile

/-! Which calls are lost. Every call is in exactly one place (`Inv.conserved`). A call is
unaccounted for when it was dropped, which happens exactly by a delivery that meets one
of the failure branches of `onRpcMessage`, or when its frame stands on a stream at or
behind a frame that is longer than `kMaxMessageLen`: `onMessage` refuses that frame with
every chunk and comes to nothing behind it. -/

namespace Cppim.Rpc.System

open Cppim.Common Cppim.Lib Cppim.Lib.Loop Cppim.Lib.Framing Cppim.Lib.Transition
open Cppim.Rpc.Codec Cppim.Rpc.Channel

/-- The frame is not too long for `onMessage`. -/
def fits (p : Packet) : Bool := bodyLen p.frame ≤ kMaxMessageLen

/-- The requests on the stream that the server comes to. -/
def requestsInTransit (s : State) : List Issued :=
  s.requests.takeWhile fun q => fits (requestPacket q)

/-- The responses on the stream that the client comes to. -/
def responsesInTransit (s : State) : List (Issued × Bytes) :=
  s.responses.takeWhile fun p => fits (responsePacket p)

/-- Call `k` is inside `CallMethod`, in transit as a request, with its service, in
transit as a response, or completed. -/
def Accounted (s : State) (k : Nat) : Prop :=
  k ∈ s.calling.map (·.issued.number) ∨ k ∈ (requestsInTransit s).map (·.number) ∨
    k ∈ s.running.map (·.issued.number) ∨ k ∈ (responsesInTransit s).map (·.1.number) ∨
    k ∈ s.completed.map (·.done)

/-- A request that names a registered service and one of its methods and parses. -/
def GoodRequest (services : Option Services) (d : Delivery) : Prop :=
  ∃ registered service method, services = some registered ∧
    registered d.servicename = some service ∧
    service.findMethodByName d.methodname = some method ∧ method.request d.data = true

/-- A frame that this step sends is not too long, and one that it delivers is a good
request, or a response that parses. -/
def Handled (services : Option Services) (s : State) : Label → Prop
  | .send i => ∀ t, s.calling[i]? = some t → fits (requestPacket t.issued) = true
  | .finish i response => ∀ r, s.running[i]? = some r →
      fits (responsePacket (r.issued, response)) = true
  | .serverTurn => ∀ d buf, turn s.server.read_buf_ = .again [.message d] buf →
      GoodRequest services d
  | .clientTurn => ∀ d buf out, turn s.client.read_buf_ = .again [.message d] buf →
      s.client.outstandings_ d.id = some out → out.response d.data = true
  | _ => True

theorem checkRequest_iff (services : Option Services) (d : Delivery) :
    checkRequest services d.servicename d.methodname d.data = .NO_ERROR ↔
      GoodRequest services d := by
  constructor
  · intro h
    simp only [checkRequest] at h
    split at h
    · split at h
      · split at h
        · split at h
          · exact ⟨_, _, _, rfl, ‹_›, ‹_›, ‹_›⟩
          · cases h
        · cases h
      · cases h
    · cases h
  · rintro ⟨registered, service, method, hr, hs, hm, hp⟩
    simp only [checkRequest, hr, hs, hm, hp, ↓reduceIte]

theorem fits_of_wellFormed {p : Packet} (h : p.WellFormed) : fits p = true :=
  decide_eq_true h.fits

/-! ## Nothing is dropped and nothing is too long -/

/-- No call was dropped and no frame on the streams is too long. -/
structure Clean (s : State) : Prop where
  lost : s.lost = []
  requests : ∀ q ∈ s.requests, fits (requestPacket q) = true
  responses : ∀ p ∈ s.responses, fits (responsePacket p) = true

theorem serverTurn_clean {services : Option Services} {s s' : State} (hi : Inv s)
    (hcalls : s.calls.length ≤ 2 ^ 63) (h : Step services s .serverTurn s') :
    Clean s' ↔ Clean s ∧ Handled services s .serverTurn := by
  rcases serverTurn_cases hi hcalls h with
    ⟨o, ht, rfl⟩ | ⟨q, rest, buf, hreq, hwf, ht, _, hs'⟩
  · have hhandled : Handled services s .serverTurn := fun d buf hd => by
      rw [ht] at hd
      cases hd
    exact ⟨fun hc => ⟨{ hc with }, hhandled⟩, fun hc => { hc.1 with }⟩
  · have hhandled : Handled services s .serverTurn ↔ Accepted services q := by
      refine Iff.trans ?_ (checkRequest_iff services (requestPacket q).delivery).symm
      refine ⟨fun hh => hh _ _ ht, fun hgood d buf hd => ?_⟩
      rw [ht] at hd
      cases hd
      exact hgood
    have hrest : (∀ x ∈ s.requests, fits (requestPacket x) = true) ↔
        ∀ x ∈ rest, fits (requestPacket x) = true := by
      simp [hreq, fits_of_wellFormed hwf]
    rw [hhandled]
    rcases hs' with ⟨hacc, rfl⟩ | ⟨hacc, rfl⟩
    · exact ⟨fun hc => ⟨⟨hc.lost, hrest.mpr hc.requests, hc.responses⟩, hacc⟩,
        fun hc => ⟨hc.1.lost, hrest.mp hc.1.requests, hc.1.responses⟩⟩
    · refine ⟨fun hc => ?_, fun hc => absurd hc.2 hacc⟩
      have hlost := hc.lost
      simp at hlost

theorem clientTurn_clean {services : Option Services} {s s' : State} (hi : Inv s)
    (hcalls : s.calls.length ≤ 2 ^ 63) (h : Step services s .clientTurn s') :
    Clean s' ↔ Clean s ∧ Handled services s .clientTurn := by
  rcases clientTurn_cases hi hcalls h with
    ⟨o, ht, rfl⟩ | ⟨q, b, rest, buf, hresp, hwf, ht, _, hs'⟩
  · have hhandled : Handled services s .clientTurn := fun d buf out hd => by
      rw [ht] at hd
      cases hd
    exact ⟨fun hc => ⟨{ hc with }, hhandled⟩, fun hc => { hc.1 with }⟩
  · have hq : q ∈ awaited s := by simp [awaited, hresp]
    have hlt := (hi.awaited_known hq).lt
    have hd := responsePacket_delivery (q, b) (by dsimp only; omega)
    have hentry := hi.entry hcalls hq
    rw [hd] at ht
    have hhandled : Handled services s .clientTurn ↔ q.call.response b = true := by
      refine ⟨fun hh => hh _ _ _ ht hentry, fun hparse d buf out htd hout => ?_⟩
      rw [ht] at htd
      cases htd
      cases hentry.symm.trans hout
      exact hparse
    have hrest : (∀ x ∈ s.responses, fits (responsePacket x) = true) ↔
        ∀ x ∈ rest, fits (responsePacket x) = true := by
      simp [hresp, fits_of_wellFormed hwf]
    rw [hhandled]
    rcases hs' with ⟨hparse, rfl⟩ | ⟨hparse, rfl⟩
    · exact ⟨fun hc => ⟨⟨hc.lost, hc.requests, hrest.mpr hc.responses⟩, hparse⟩,
        fun hc => ⟨hc.1.lost, hc.1.requests, hrest.mp hc.1.responses⟩⟩
    · refine ⟨fun hc => ?_, fun hc => absurd hc.2 (by simp [hparse])⟩
      have hlost := hc.lost
      simp at hlost

/-- A step stays clean exactly when what it sends and delivers is handled. -/
theorem Step.clean {services : Option Services} {s s' : State} {l : Label}
    (h : Step services s l s') (hcalls : s.calls.length ≤ 2 ^ 63) (hi : Inv s) :
    Clean s' ↔ Clean s ∧ Handled services s l := by
  cases l with
  | serverTurn => exact serverTurn_clean hi hcalls h
  | clientTurn => exact clientTurn_clean hi hcalls h
  | send i =>
    cases h with
    | send i t ht _ =>
      have hhandled : Handled services s (.send i) ↔ fits (requestPacket t.issued) = true := by
        simp [Handled, ht]
      rw [hhandled]
      constructor
      · intro hc
        exact ⟨⟨hc.lost, fun q hq => hc.requests q (List.mem_append_left _ hq), hc.responses⟩,
          hc.requests _ (List.mem_append_right _ (List.mem_singleton.mpr rfl))⟩
      · rintro ⟨hc, hfit⟩
        exact ⟨hc.lost, List.forall_mem_append.mpr ⟨hc.requests, by simpa using hfit⟩, hc.responses⟩
  | finish i response =>
    cases h with
    | finish i r response f hr _ hf =>
      have hhandled : Handled services s (.finish i response) ↔
          fits (responsePacket (r.issued, response)) = true := by
        simp [Handled, hr]
      rw [hhandled]
      constructor
      · intro hc
        exact ⟨⟨hc.lost, hc.requests, fun p hp => hc.responses p (List.mem_append_left _ hp)⟩,
          hc.responses _ (List.mem_append_right _ (List.mem_singleton.mpr rfl))⟩
      · rintro ⟨hc, hfit⟩
        exact ⟨hc.lost, hc.requests, List.forall_mem_append.mpr ⟨hc.responses, by simpa using hfit⟩⟩
    | finishLost i r response hr _ hf =>
      simp [hi.doneCallback (List.mem_of_getElem? hr) response] at hf
  | fetch _ => cases h; exact ⟨fun hc => ⟨{ hc with }, trivial⟩, fun hc => { hc.1 with }⟩
  | register _ => cases h; exact ⟨fun hc => ⟨{ hc with }, trivial⟩, fun hc => { hc.1 with }⟩
  | serverRead _ => cases h; exact ⟨fun hc => ⟨{ hc with }, trivial⟩, fun hc => { hc.1 with }⟩
  | clientRead _ => cases h; exact ⟨fun hc => ⟨{ hc with }, trivial⟩, fun hc => { hc.1 with }⟩

theorem run_calls_le {services : Option Services} (ls : List Label) (s t : State)
    (h : run (step services) s ls = some t) : s.calls.length ≤ t.calls.length := by
  induction ls generalizing s with
  | nil =>
    cases h
    exact Nat.le_refl _
  | cons l ls ih =>
    obtain ⟨s', hs, hr⟩ := (run_cons_eq_some s t l ls).mp h
    exact Nat.le_trans (step_inv hs).calls_le (ih s' hr)

/-- A run stays clean exactly when every step was handled. -/
theorem run_clean {services : Option Services} (ls : List Label) (s t : State) (hi : Inv s)
    (hrun : run (step services) s ls = some t) (hcalls : t.calls.length ≤ 2 ^ 63) :
    Clean t ↔ Clean s ∧ Guarded (step services) (Handled services) s ls := by
  induction ls generalizing s with
  | nil =>
    cases hrun
    simp [Guarded]
  | cons l ls ih =>
    obtain ⟨s', hs, hr⟩ := (run_cons_eq_some s t l ls).mp hrun
    have hstep := step_inv hs
    have hle := Nat.le_trans hstep.calls_le (run_calls_le ls s' t hr)
    have hnext : (∀ u, step services s l = some u →
        Guarded (step services) (Handled services) u ls) ↔
        Guarded (step services) (Handled services) s' ls := by
      simp [hs]
    rw [ih s' (hstep.inv (by omega) hi) hr, hstep.clean (by omega) hi, Guarded, hnext, and_assoc]

/-! ## Calls that are accounted for -/

/-- The calls that were dropped or whose frames are not come to. -/
def stuck (s : State) : List Nat :=
  (s.requests.dropWhile fun q => fits (requestPacket q)).map (·.number) ++
    (s.responses.dropWhile fun p => fits (responsePacket p)).map (·.1.number) ++ s.lost

theorem stuck_eq_nil_iff (s : State) : stuck s = [] ↔ Clean s := by
  simp only [stuck, List.append_eq_nil_iff, List.map_eq_nil_iff, List.dropWhile_eq_nil_iff]
  exact ⟨fun h => ⟨h.2, h.1.1, h.1.2⟩, fun h => ⟨⟨h.requests, h.responses⟩, h.lost⟩⟩

theorem coe_map_takeWhile_add {α : Type} (f : α → Nat) (p : α → Bool) (xs : List α) :
    ((xs.map f : List Nat) : Multiset Nat) =
      ((xs.takeWhile p).map f : List Nat) + ((xs.dropWhile p).map f : List Nat) := by
  rw [Multiset.coe_add, ← List.map_append, List.takeWhile_append_dropWhile]

/-- Every call is accounted for exactly when none was dropped and every frame on the
streams is short enough. -/
theorem Inv.accounted_iff {s : State} (hi : Inv s) :
    (∀ k < s.calls.length, Accounted s k) ↔ Clean s := by
  let others : Multiset Nat := places { s with
    requests := requestsInTransit s, responses := responsesInTransit s, lost := [] }
  have hsplit : places s = others + stuck s := by
    have hreq := coe_map_takeWhile_add (·.number) (fun q => fits (requestPacket q)) s.requests
    have hresp := coe_map_takeWhile_add (·.1.number) (fun p => fits (responsePacket p)) s.responses
    simp only [others, places, stuck, requestsInTransit, responsesInTransit, hreq, hresp,
      ← Multiset.coe_add, Multiset.coe_nil]
    abel
  have hmem (k : Nat) : k ∈ others ↔ Accounted s k := by
    simp only [others, places, Accounted, Multiset.mem_add, Multiset.mem_coe, List.not_mem_nil,
      or_false, or_assoc]
  have hrange (k : Nat) : k < s.calls.length ↔ k ∈ others ∨ k ∈ stuck s := by
    rw [← Multiset.mem_range, ← hi.conserved, hsplit, Multiset.mem_add, Multiset.mem_coe]
  rw [← stuck_eq_nil_iff]
  constructor
  · intro h
    refine List.eq_nil_iff_forall_not_mem.mpr fun k hk => ?_
    have hnodup : (others + stuck s).Nodup := by
      rw [← hsplit, hi.conserved]
      exact Multiset.nodup_range _
    have hk' : k ∈ others := (hmem k).mpr (h k ((hrange k).mpr (Or.inr hk)))
    exact Multiset.disjoint_left.mp (Multiset.nodup_add.mp hnodup).2.2 hk' (Multiset.mem_coe.mpr hk)
  · intro h k hk
    rcases (hrange k).mp hk with hk | hk
    · exact (hmem k).mp hk
    · simp [h] at hk

theorem mem_takeWhile_concat {α : Type} {p : α → Bool} {xs : List α} {a x : α}
    (h : x ∈ (xs ++ [a]).takeWhile p) : x ∈ xs.takeWhile p ∨ x = a := by
  induction xs with
  | nil =>
    have := (List.takeWhile_sublist p).subset h
    exact Or.inr (List.mem_singleton.mp this)
  | cons y ys ih =>
    rw [List.cons_append, List.takeWhile_cons] at h
    rw [List.takeWhile_cons]
    split at h
    · rcases List.mem_cons.mp h with rfl | h
      · exact Or.inl (by simp [*])
      · exact (ih h).imp_left (fun h => by simp [*])
    · cases h

theorem accounted_serverTurn {services : Option Services} {s s' : State} {k : Nat} (hi : Inv s)
    (hcalls : s.calls.length ≤ 2 ^ 63) (h : Step services s .serverTurn s')
    (hk : Accounted s' k) : Accounted s k := by
  rcases serverTurn_cases hi hcalls h with
    ⟨_, _, rfl⟩ | ⟨q, rest, buf, hreq, hwf, _, _, hs'⟩
  · exact hk
  · have hq : requestsInTransit s = q :: rest.takeWhile fun q => fits (requestPacket q) := by
      rw [requestsInTransit, hreq, List.takeWhile_cons, if_pos (fits_of_wellFormed hwf)]
    rcases hs' with ⟨_, rfl⟩ | ⟨_, rfl⟩
    · simp only [Accounted, requestsInTransit, responsesInTransit, List.map_append,
        List.mem_append, List.map_cons, List.map_nil, List.mem_singleton] at hk
      simp only [Accounted, hq, responsesInTransit, List.map_cons, List.mem_cons]
      tauto
    · simp only [Accounted, requestsInTransit, responsesInTransit] at hk
      simp only [Accounted, hq, responsesInTransit, List.map_cons, List.mem_cons]
      tauto

theorem accounted_clientTurn {services : Option Services} {s s' : State} {k : Nat} (hi : Inv s)
    (hcalls : s.calls.length ≤ 2 ^ 63) (h : Step services s .clientTurn s')
    (hk : Accounted s' k) : Accounted s k := by
  rcases clientTurn_cases hi hcalls h with
    ⟨_, _, rfl⟩ | ⟨q, b, rest, buf, hresp, hwf, _, _, hs'⟩
  · exact hk
  · have hq : responsesInTransit s = (q, b) :: rest.takeWhile fun p => fits (responsePacket p) := by
      rw [responsesInTransit, hresp, List.takeWhile_cons, if_pos (fits_of_wellFormed hwf)]
    rcases hs' with ⟨_, rfl⟩ | ⟨_, rfl⟩
    · simp only [Accounted, requestsInTransit, responsesInTransit, List.map_append,
        List.mem_append, List.map_cons, List.map_nil, List.mem_singleton] at hk
      simp only [Accounted, hq, requestsInTransit, List.map_cons, List.mem_cons]
      tauto
    · simp only [Accounted, requestsInTransit, responsesInTransit] at hk
      simp only [Accounted, hq, requestsInTransit, List.map_cons, List.mem_cons]
      tauto

/-- A call that is not accounted for does not come back. -/
theorem Step.accounted {services : Option Services} {s s' : State} {l : Label} {k : Nat}
    (h : Step services s l s') (hcalls : s.calls.length ≤ 2 ^ 63) (hi : Inv s)
    (hlt : k < s.calls.length) (hk : Accounted s' k) : Accounted s k := by
  cases l with
  | serverTurn => exact accounted_serverTurn hi hcalls h hk
  | clientTurn => exact accounted_clientTurn hi hcalls h hk
  | fetch call =>
    cases h
    rcases hk with hk | hk
    · rw [List.map_append, List.mem_append, List.map_singleton, List.mem_singleton] at hk
      exact Or.inl (hk.resolve_right (Nat.ne_of_lt hlt))
    · exact Or.inr hk
  | register i =>
    cases h with
    | register i t ht =>
      have hsame : (s.calling.set i { t with registered := true }).map (·.issued.number) =
          s.calling.map (·.issued.number) := map_set_of_eq ht rfl
      exact hk.imp_left fun hk => hsame ▸ hk
  | send i =>
    cases h with
    | send i t ht _ =>
      rcases hk with hk | hk | hk
      · exact Or.inl (((List.eraseIdx_sublist ..).map _).subset hk)
      · obtain ⟨q, hq, rfl⟩ := List.mem_map.mp hk
        rcases mem_takeWhile_concat hq with hq | rfl
        · exact Or.inr (Or.inl (List.mem_map_of_mem hq))
        · exact Or.inl (List.mem_map.mpr ⟨t, List.mem_of_getElem? ht, rfl⟩)
      · exact Or.inr (Or.inr hk)
  | finish i response =>
    cases h with
    | finish i r response f hr _ hf =>
      rcases hk with hk | hk | hk | hk | hk
      · exact Or.inl hk
      · exact Or.inr (Or.inl hk)
      · exact Or.inr (Or.inr (Or.inl (((List.eraseIdx_sublist ..).map _).subset hk)))
      · obtain ⟨p, hp, rfl⟩ := List.mem_map.mp hk
        rcases mem_takeWhile_concat hp with hp | rfl
        · exact Or.inr (Or.inr (Or.inr (Or.inl (List.mem_map_of_mem hp))))
        · exact Or.inr (Or.inr (Or.inl (List.mem_map.mpr ⟨r, List.mem_of_getElem? hr, rfl⟩)))
      · exact Or.inr (Or.inr (Or.inr (Or.inr hk)))
    | finishLost i r response hr _ hf =>
      simp [hi.doneCallback (List.mem_of_getElem? hr) response] at hf
  | serverRead _ => cases h; exact hk
  | clientRead _ => cases h; exact hk

theorem run_accounted {services : Option Services} {k : Nat} (ls : List Label) (s t : State)
    (hi : Inv s) (hrun : run (step services) s ls = some t) (hcalls : t.calls.length ≤ 2 ^ 63)
    (hlt : k < s.calls.length) (hk : Accounted t k) : Accounted s k := by
  induction ls generalizing s with
  | nil =>
    cases hrun
    exact hk
  | cons l ls ih =>
    obtain ⟨s', hs, hr⟩ := (run_cons_eq_some s t l ls).mp hrun
    have hstep := step_inv hs
    have hle := Nat.le_trans hstep.calls_le (run_calls_le ls s' t hr)
    have hs' := ih s' (hstep.inv (by omega) hi) hr (Nat.lt_of_lt_of_le hlt hstep.calls_le)
    exact hstep.accounted (by omega) hi hlt hs'

/-! ## The table of outstanding calls -/

/-- An entry of the table belongs to a call that waits for its response or that
was dropped. -/
def Entries (s : State) : Prop :=
  ∀ id out, s.client.outstandings_ id = some out →
    out.done ∈ (awaited s).map (·.number) ∨ out.done ∈ s.lost

theorem registered_set {calling : List Calling} {i : Nat} {t : Calling}
    (ht : calling[i]? = some t) :
    t.issued ∈ registered (calling.set i { t with registered := true }) ∧
      registered calling ⊆ registered (calling.set i { t with registered := true }) := by
  obtain ⟨hlt, rfl⟩ := List.getElem?_eq_some_iff.mp ht
  have hself : calling[i].issued ∈
      registered (calling.set i { calling[i] with registered := true }) :=
    List.mem_map.mpr ⟨{ calling[i] with registered := true },
      List.mem_filter.mpr ⟨List.mem_set hlt _, rfl⟩, rfl⟩
  refine ⟨hself, fun q hq => ?_⟩
  obtain ⟨t, ht, rfl⟩ := List.mem_map.mp hq
  obtain ⟨hmem, hr⟩ := List.mem_filter.mp ht
  obtain ⟨j, hj, rfl⟩ := List.getElem_of_mem hmem
  by_cases he : i = j
  · subst he
    exact hself
  · refine List.mem_map.mpr ⟨calling[j], List.mem_filter.mpr ⟨?_, hr⟩, rfl⟩
    exact List.mem_of_getElem (i := j) (h := by simpa using hj) (by simp [he])

/-- A step that keeps the table and every waiting or dropped call keeps `Entries`. -/
theorem Entries.mono {s s' : State} (he : Entries s)
    (htable : s'.client.outstandings_ = s.client.outstandings_)
    (hcalls : ∀ q ∈ awaited s, q ∈ awaited s' ∨ q.number ∈ s'.lost) (hlost : s.lost ⊆ s'.lost) :
    Entries s' := by
  intro id out h
  rw [htable] at h
  rcases he id out h with hd | hd
  · obtain ⟨q, hq, hn⟩ := List.mem_map.mp hd
    rcases hcalls q hq with hq | hq
    · exact Or.inl (List.mem_map.mpr ⟨q, hq, hn⟩)
    · exact Or.inr (hn ▸ hq)
  · exact Or.inr (hlost hd)

theorem entries_register {services : Option Services} {s s' : State} {i : Nat}
    (h : Step services s (.register i) s') (he : Entries s) : Entries s' := by
  cases h with
  | register i t ht =>
    obtain ⟨hself, hsub⟩ := registered_set ht
    intro id out hout
    dsimp only at hout
    by_cases hid : id = t.id
    · subst hid
      rw [Function.update_self] at hout
      cases hout
      refine Or.inl (List.mem_map.mpr ⟨t.issued, ?_, rfl⟩)
      simp only [awaited, List.mem_append]
      exact Or.inl (Or.inl (Or.inl hself))
    · rw [Function.update_of_ne hid] at hout
      rcases he id out hout with hd | hd
      · obtain ⟨q, hq, hn⟩ := List.mem_map.mp hd
        refine Or.inl (List.mem_map.mpr ⟨q, ?_, hn⟩)
        simp only [awaited, List.mem_append] at hq ⊢
        exact hq.imp_left (Or.imp_left (Or.imp_left fun h => hsub h))
      · exact Or.inr hd

theorem entries_send {services : Option Services} {s s' : State} {i : Nat}
    (h : Step services s (.send i) s') (he : Entries s) : Entries s' := by
  cases h with
  | send i t ht hr =>
    refine he.mono rfl (fun q hq => Or.inl (mem_awaited.mpr ?_)) (List.Subset.refl _)
    rcases mem_awaited.mp hq with ⟨t', ht', hr', rfl⟩ | hq | hq
    · rcases mem_eraseIdx_or_eq ht ht' with ht' | rfl
      · exact Or.inl ⟨t', ht', hr', rfl⟩
      · exact Or.inr (Or.inl (List.mem_append_right _ (List.mem_singleton.mpr rfl)))
    · exact Or.inr (Or.inl (List.mem_append_left _ hq))
    · exact Or.inr (Or.inr hq)

/-- A request that the server does not accept is dropped with its entry. -/
theorem entries_serverTurn {services : Option Services} {s s' : State}
    (h : Step services s .serverTurn s') (hcalls : s.calls.length ≤ 2 ^ 63) (hi : Inv s)
    (he : Entries s) : Entries s' := by
  rcases serverTurn_cases hi hcalls h with
    ⟨_, _, rfl⟩ | ⟨q, rest, buf, hreq, _, _, _, ⟨_, rfl⟩ | ⟨_, rfl⟩⟩
  · exact he.mono rfl (fun q hq => Or.inl hq) (List.Subset.refl _)
  · refine he.mono rfl (fun x hx => Or.inl ?_) (List.Subset.refl _)
    simp only [awaited, hreq, List.map_append, List.map_cons, List.map_nil, List.mem_append,
      List.mem_cons, List.not_mem_nil, or_false] at hx ⊢
    tauto
  · refine he.mono rfl (fun x hx => ?_) (List.subset_append_left _ _)
    rcases mem_awaited.mp hx with hx | hx | hx
    · exact Or.inl (mem_awaited.mpr (Or.inl hx))
    · rw [hreq] at hx
      rcases List.mem_cons.mp hx with rfl | hx
      · exact Or.inr (List.mem_append_right _ (List.mem_singleton.mpr rfl))
      · exact Or.inl (mem_awaited.mpr (Or.inr (Or.inl hx)))
    · exact Or.inl (mem_awaited.mpr (Or.inr (Or.inr hx)))

theorem entries_finish {services : Option Services} {s s' : State} {i : Nat} {response : Bytes}
    (h : Step services s (.finish i response) s') (hi : Inv s) (he : Entries s) :
    Entries s' := by
  cases h with
  | finish i r response f hr hlen hf =>
    refine he.mono rfl (fun x hx => Or.inl (mem_awaited.mpr ?_)) (List.Subset.refl _)
    rcases mem_awaited.mp hx with hx | hx | ⟨r', hr', rfl⟩ | ⟨p, hp, rfl⟩
    · exact Or.inl hx
    · exact Or.inr (Or.inl hx)
    · rcases mem_eraseIdx_or_eq hr hr' with hr' | rfl
      · exact Or.inr (Or.inr (Or.inl ⟨r', hr', rfl⟩))
      · refine Or.inr (Or.inr (Or.inr ⟨(_, response), ?_, rfl⟩))
        exact List.mem_append_right _ (List.mem_singleton.mpr rfl)
    · exact Or.inr (Or.inr (Or.inr ⟨p, List.mem_append_left _ hp, rfl⟩))
  | finishLost i r response hr _ hf =>
    simp [hi.doneCallback (List.mem_of_getElem? hr) response] at hf

/-- Erasing the entry of the first response leaves the entries of the other calls. -/
theorem entries_after_response {s : State} (hi : Inv s) (he : Entries s) {q : Issued} {b : Bytes}
    {rest : List (Issued × Bytes)} (hresp : s.responses = (q, b) :: rest) (id : BitVec 64)
    (out : OutstandingCall)
    (hout : Function.update s.client.outstandings_ (BitVec.ofNat 64 q.number) none id = some out) :
    out.done ∈ (awaited { s with responses := rest }).map (·.number) ∨ out.done ∈ s.lost := by
  have hid : id ≠ BitVec.ofNat 64 q.number := by
    rintro rfl
    simp at hout
  rw [Function.update_of_ne hid] at hout
  obtain ⟨x, _, hx, rfl⟩ := hi.table id out hout
  rcases he id _ hout with hd | hd
  · obtain ⟨y, hy, hn⟩ := List.mem_map.mp hd
    refine Or.inl (List.mem_map.mpr ⟨y, ?_, hn⟩)
    have hyq : y ≠ q := by
      rintro rfl
      exact hid (hx.trans (congrArg _ hn.symm))
    simp only [awaited, hresp, List.map_cons, List.mem_append, List.mem_cons] at hy ⊢
    tauto
  · exact Or.inr hd

theorem entries_clientTurn {services : Option Services} {s s' : State}
    (h : Step services s .clientTurn s') (hcalls : s.calls.length ≤ 2 ^ 63) (hi : Inv s)
    (he : Entries s) : Entries s' := by
  rcases clientTurn_cases hi hcalls h with
    ⟨_, _, rfl⟩ | ⟨q, b, rest, buf, hresp, _, _, _, hs'⟩
  · exact he.mono rfl (fun q hq => Or.inl hq) (List.Subset.refl _)
  · have hother := entries_after_response hi he hresp
    rcases hs' with ⟨_, rfl⟩ | ⟨_, rfl⟩
    · exact hother
    · intro id out hout
      rcases hother id out hout with hd | hd
      · exact Or.inl hd
      · exact Or.inr (List.mem_append_left _ hd)

theorem Step.entries {services : Option Services} {s s' : State} {l : Label}
    (h : Step services s l s') (hcalls : s.calls.length ≤ 2 ^ 63) (hi : Inv s) (he : Entries s) :
    Entries s' := by
  cases l with
  | fetch call =>
    cases h
    refine he.mono rfl (fun q hq => Or.inl ?_) (List.Subset.refl _)
    simpa [awaited, registered] using hq
  | register i => exact entries_register h he
  | send i => exact entries_send h he
  | serverRead n =>
    cases h with
    | serverRead n server hr => exact he.mono rfl (fun q hq => Or.inl hq) (List.Subset.refl _)
  | serverTurn => exact entries_serverTurn h hcalls hi he
  | finish i response => exact entries_finish h hi he
  | clientRead n =>
    cases h with
    | clientRead n client hr =>
      exact he.mono (read_some hr).2.1 (fun q hq => Or.inl hq) (List.Subset.refl _)
  | clientTurn => exact entries_clientTurn h hcalls hi he

/-- Nobody is inside `CallMethod`, nothing is in transit and no service runs. -/
structure Quiet (s : State) : Prop where
  calling : s.calling = []
  requests : requestsInTransit s = []
  running : s.running = []
  responses : responsesInTransit s = []

theorem run_entries {services : Option Services} (ls : List Label) (s : State)
    (hrun : run (step services) init ls = some s) (hcalls : s.calls.length ≤ 2 ^ 63) :
    Entries s := by
  have hinit : Entries init := fun id out h => by simp [init, RpcChannel.new] at h
  refine (run_kept (I := fun s => s.calls.length ≤ 2 ^ 63 → Inv s ∧ Entries s)
    (fun s l s' hi hs hle => ?_) ls init s (fun _ => ⟨inv_init, hinit⟩) hrun hcalls).2
  have hstep := step_inv hs
  have hmono := hstep.calls_le
  obtain ⟨hi, he⟩ := hi (by omega)
  exact ⟨hstep.inv (by omega) hi, hstep.entries (by omega) hi he⟩

/-- **Which calls are lost.** In a run of fewer than `2^63` calls every call is in
`CallMethod`, in transit, with its service or completed exactly when every frame sent so
far was short enough for `onMessage` and every frame delivered so far was a good request
or a response that parses. A call that is not accounted for is never completed. If all
are, then, once nothing is in transit or running, every call has completed and the table
is empty. -/
theorem no_call_lost_iff (services : Option Services) (ls : List Label) (s : State)
    (hrun : run (step services) init ls = some s) (hcalls : s.calls.length ≤ 2 ^ 63) :
    ((∀ k < s.calls.length, Accounted s k) ↔
      Guarded (step services) (Handled services) init ls) ∧
    (∀ k < s.calls.length, ¬ Accounted s k → ∀ more t, run (step services) s more = some t →
      t.calls.length ≤ 2 ^ 63 → k ∉ t.completed.map (·.done)) ∧
    (Guarded (step services) (Handled services) init ls → Quiet s →
      (∀ k < s.calls.length, k ∈ s.completed.map (·.done)) ∧
        ∀ id, s.client.outstandings_ id = none) := by
  have hi := run_inv ls s hrun hcalls
  have hclean : Clean s ↔ Guarded (step services) (Handled services) init ls := by
    rw [run_clean ls init s inv_init hrun hcalls]
    exact and_iff_right ⟨rfl, by simp [init], by simp [init]⟩
  refine ⟨hi.accounted_iff.trans hclean, fun k hk hno more t hmore ht hdone => hno ?_,
    fun hg hq => ⟨fun k hk => ?_, fun id => ?_⟩⟩
  · exact run_accounted more s t hi hmore ht hk (Or.inr (Or.inr (Or.inr (Or.inr hdone))))
  · have hacc := hi.accounted_iff.mpr (hclean.mpr hg) k hk
    simpa [Accounted, hq.calling, hq.requests, hq.running, hq.responses] using hacc
  · have hc := hclean.mpr hg
    have hreq : s.requests = [] :=
      (List.takeWhile_eq_self_iff.mpr hc.requests).symm.trans hq.requests
    have hresp : s.responses = [] :=
      (List.takeWhile_eq_self_iff.mpr hc.responses).symm.trans hq.responses
    cases hout : s.client.outstandings_ id with
    | none => rfl
    | some out =>
      have he := run_entries ls s hrun hcalls id out hout
      simp [awaited, registered, hq.calling, hreq, hq.running, hresp, hc.lost] at he

/-- Both calls of `crossedRun` complete, so every delivery on the way was handled. -/
theorem no_call_lost_iff_crossed :
    ∃ s, run (step anyService) init crossedRun = some s ∧ s.completed.map (·.done) = [1, 0] ∧
      Guarded (step anyService) (Handled anyService) init crossedRun := by
  have hview : (run (step anyService) init crossedRun).map
      (fun s => (s.completed.map (·.done), s.calls.length)) = some ([1, 0], 2) := by
    decide +kernel
  obtain ⟨s, hs, hv⟩ := Option.map_eq_some_iff.mp hview
  simp only [Prod.mk.injEq] at hv
  refine ⟨s, hs, hv.1, (no_call_lost_iff anyService crossedRun s hs (by omega)).1.mp ?_⟩
  intro k hk
  refine Or.inr (Or.inr (Or.inr (Or.inr ?_)))
  rw [hv.1]
  simp only [List.mem_cons, List.not_mem_nil, or_false]
  omega

/-- A call to a server without services: the request is consumed, nothing answers
it, and its entry stays in the table. -/
theorem call_lost_without_service :
    ∃ s, run (step none) init [.fetch (callOf 1), .register 0, .send 0, .serverRead 21,
        .serverTurn] = some s ∧ s.calls.length = 1 ∧ Quiet s ∧ ¬ Accounted s 0 ∧
      s.client.outstandings_ 0 ≠ none := by
  have hview : (run (step none) init [.fetch (callOf 1), .register 0, .send 0, .serverRead 21,
      .serverTurn]).map (fun s => ([s.calls.length, s.calling.length, s.requests.length,
        s.running.length, s.responses.length, s.completed.length],
        (s.client.outstandings_ 0).isNone)) = some ([1, 0, 0, 0, 0, 0], false) := by
    decide +kernel
  obtain ⟨s, hs, hv⟩ := Option.map_eq_some_iff.mp hview
  simp only [Prod.mk.injEq, List.cons.injEq, List.length_eq_zero_iff, and_true] at hv
  obtain ⟨⟨hcalls, hcalling, hreq, hrunning, hresp, hdone⟩, hsome⟩ := hv
  have hreq' : requestsInTransit s = [] := by rw [requestsInTransit, hreq]; rfl
  have hresp' : responsesInTransit s = [] := by rw [responsesInTransit, hresp]; rfl
  refine ⟨s, hs, hcalls, ⟨hcalling, hreq', hrunning, hresp'⟩, ?_, ?_⟩
  · simp [Accounted, hcalling, hreq', hrunning, hresp', hdone]
  · intro hnone
    rw [hnone] at hsome
    cases hsome

end Cppim.Rpc.System
