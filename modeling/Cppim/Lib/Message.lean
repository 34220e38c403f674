import Cppim.Lib.Wire

/-! Messages that are made of tagged fields, in the wire format of protocol buffers.

A `Field` says how one field is written, read, merged and measured, and carries the law
that reading what was written merges it. A `Schema` is the list of the fields of a message.
`merge` is the parser as it is generated, which looks for the tag that it expects next
before it goes back to the head of its loop; `merge_eq_parse` says that it computes what
the plain loop does, and `parse_serialize` is the round trip. All this is for any runtime
that keeps its laws. -/

namespace Cppim.Lib.Message

open Cppim.Lib.Wire

variable {M N α : Type}

/-! ## Loops over the input -/

/-- Steps are taken until nothing is left of the input. -/
def untilEnd (step : M → List UInt8 → Option (M × List UInt8)) :
    Nat → M → List UInt8 → Option M
  | 0, _, _ => none
  | _ + 1, m, [] => some m
  | n + 1, m, b :: bs => (step m (b :: bs)).bind fun p => untilEnd step n p.1 p.2

/-- Steps that take something of the input need no more fuel than there is input. -/
theorem untilEnd_fuel {step : M → List UInt8 → Option (M × List UInt8)}
    (hlt : ∀ m bs m' rest, step m bs = some (m', rest) → rest.length < bs.length)
    (n n' : Nat) (m : M) (bs : List UInt8) (hn : bs.length < n) (hn' : bs.length < n') :
    untilEnd step n m bs = untilEnd step n' m bs := by
  induction n generalizing n' m bs with
  | zero => omega
  | succ n ih =>
    obtain ⟨n', rfl⟩ : ∃ k, n' = k + 1 := ⟨n' - 1, by omega⟩
    cases bs with
    | nil => rfl
    | cons b bs =>
      simp only [untilEnd]
      cases hstep : step m (b :: bs) with
      | none => rfl
      | some p =>
        have := hlt _ _ _ _ hstep
        exact ih n' p.1 p.2 (by omega) (by omega)

/-- What every step keeps holds in the end. -/
theorem untilEnd_kept {step : M → List UInt8 → Option (M × List UInt8)} {P : M → Prop}
    (hstep : ∀ m bs m' rest, P m → step m bs = some (m', rest) → P m') (n : Nat) (m : M)
    (bs : List UInt8) (hm : P m) {m' : M} (h : untilEnd step n m bs = some m') : P m' := by
  induction n generalizing m bs with
  | zero => cases h
  | succ n ih =>
    cases bs with
    | nil =>
      cases h
      exact hm
    | cons b bs =>
      obtain ⟨⟨m₁, rest⟩, h₁, hrest⟩ := Option.bind_eq_some_iff.mp h
      exact ih m₁ rest (hstep _ _ _ _ hm h₁) hrest

/-! ## Fields -/

/-- A part of a record. -/
structure Lens (M α : Type) where
  get : M → α
  set : M → α → M
  get_set : ∀ m a, get (set m a) = a := by intros; rfl
  set_get : ∀ m, set m (get m) = m := by intros; rfl
  set_set : ∀ m a b, set (set m a) b = set m b := by intros; rfl

/-- `read` takes all of `v`, whatever is behind it, and goes on with `r`; or it fails. -/
def Takes (read : M → List UInt8 → Option (M × List UInt8)) (m : M) (v : List UInt8)
    (r : Option M) : Prop :=
  ∀ rest, read m (v ++ rest) = r.map fun m' => (m', rest)

/-- The same for one value after the other, up to the first that is refused. -/
inductive TakesAll (read : M → List UInt8 → Option (M × List UInt8)) :
    M → List (List UInt8) → Option M → Prop
  | nil (m : M) : TakesAll read m [] (some m)
  | refused {m : M} {v : List UInt8} (vs : List (List UInt8)) (h : Takes read m v none) :
    TakesAll read m (v :: vs) none
  | taken {m m' : M} {v : List UInt8} {vs : List (List UInt8)} {r : Option M}
      (h : Takes read m v (some m')) (hrest : TakesAll read m' vs r) : TakesAll read m (v :: vs) r

/-- The values are short enough for the lengths in front of them. -/
def Short (vs : List (List UInt8)) : Prop := ∀ v ∈ vs, v.length < 2 ^ 26

/-- One field of a message. Its tag is a single byte. -/
structure Field (M : Type) where
  tag : UInt8
  /-- the tags that are looked for behind a value, in this order -/
  expects : List UInt8
  /-- the values that are written, each behind the tag -/
  write : M → List (List UInt8)
  /-- takes one value into the message -/
  read : M → List UInt8 → Option (M × List UInt8)
  /-- takes the field of the second message into the first -/
  mergeFrom : M → M → M
  /-- the reader accepts what is written -/
  valid : M → Bool
  size : M → Nat
  tag_lt : tag.toNat < 128
  tag_ne : tag.toNat ≠ 0
  read_lt : ∀ m bs m' rest, read m bs = some (m', rest) → rest.length < bs.length
  takes : ∀ into m, Short (write m) →
    TakesAll read into (write m) (if valid m then some (mergeFrom into m) else none)
  size_eq : ∀ m, Short (write m) → ((write m).map fun v => v.length + 1).sum = size m

namespace Field

/-- A reader that puts the value it has read in its place. -/
theorem eq_some_of_put (put : α → M) {r : Option (α × List UInt8)} {m' : M}
    {rest : List UInt8} (h : (r.map fun p => (put p.1, p.2)) = some (m', rest)) :
    ∃ a, r = some (a, rest) ∧ m' = put a := by
  obtain ⟨⟨a, rest'⟩, hread, heq⟩ := Option.map_eq_some_iff.mp h
  cases heq
  exact ⟨a, hread, rfl⟩

/-- A field with one value, which is not written when it is zero. -/
def optional [DecidableEq α] (c : Codec α) (zero : α) (tag : UInt8) (expects : List UInt8)
    (l : Lens M α) (hzero : c.valid zero = true := by simp)
    (htag : tag.toNat < 128 ∧ tag.toNat ≠ 0 := by decide) : Field M where
  tag := tag
  expects := expects
  write m := if l.get m = zero then [] else [c.encode (l.get m)]
  read m bs := (c.decode bs).map fun p => (l.set m p.1, p.2)
  mergeFrom into m := if l.get m = zero then into else l.set into (l.get m)
  valid m := c.valid (l.get m)
  size m := if l.get m = zero then 0 else 1 + c.size (l.get m)
  tag_lt := htag.1
  tag_ne := htag.2
  read_lt := by
    intro m bs m' rest h
    obtain ⟨a, hdecode, -⟩ := eq_some_of_put (l.set m) h
    exact c.decode_lt _ _ _ hdecode
  takes := by
    intro into m hshort
    by_cases hz : l.get m = zero
    · simp only [hz, hzero, if_true]
      exact .nil into
    · simp only [if_neg hz] at hshort ⊢
      have hlen := hshort _ (List.mem_singleton.mpr rfl)
      cases hvalid : c.valid (l.get m) with
      | true => exact .taken (fun rest => by simp [c.decode_valid hlen hvalid]) (.nil _)
      | false => exact .refused [] fun rest => by simp [c.decode_invalid hlen hvalid]
  size_eq := by
    intro m hshort
    by_cases hz : l.get m = zero
    · simp [hz]
    · simp only [if_neg hz] at hshort ⊢
      have hlen := c.length_encode _ (hshort _ (List.mem_singleton.mpr rfl))
      simp [hlen, Nat.add_comm]

/-- A field with any number of values, each behind its own tag. They are kept in a container
where they are added one by one. -/
def each {κ : Type} (c : Codec α) (tag : UInt8) (expects : List UInt8) (values : κ → List α)
    (add : κ → α → κ) (l : Lens M κ) (htag : tag.toNat < 128 ∧ tag.toNat ≠ 0 := by decide) :
    Field M where
  tag := tag
  expects := expects
  write m := (values (l.get m)).map c.encode
  read m bs := (c.decode bs).map fun p => (l.set m (add (l.get m) p.1), p.2)
  mergeFrom into m := l.set into ((values (l.get m)).foldl add (l.get into))
  valid m := (values (l.get m)).all c.valid
  size m := (values (l.get m)).length + ((values (l.get m)).map c.size).sum
  tag_lt := htag.1
  tag_ne := htag.2
  read_lt := by
    intro m bs m' rest h
    obtain ⟨a, hdecode, -⟩ := eq_some_of_put (fun a => l.set m (add (l.get m) a)) h
    exact c.decode_lt _ _ _ hdecode
  takes := by
    intro into m hshort
    generalize values (l.get m) = as at hshort ⊢
    induction as generalizing into with
    | nil =>
      simp only [List.map_nil, List.all_nil, if_true, List.foldl_nil, l.set_get]
      exact .nil into
    | cons a as ih =>
      have hlen := hshort (c.encode a) (by simp)
      cases hvalid : c.valid a with
      | true =>
        have hrest := ih (l.set into (add (l.get into) a)) fun v hv => hshort v (by simp [hv])
        simp only [l.get_set, l.set_set] at hrest
        simp only [List.all_cons, hvalid, Bool.true_and, List.foldl_cons]
        exact .taken (fun rest => by simp [c.decode_valid hlen hvalid]) hrest
      | false =>
        simp only [List.all_cons, hvalid, Bool.false_and, Bool.false_eq_true, if_false]
        exact .refused _ fun rest => by simp [c.decode_invalid hlen hvalid]
  size_eq := by
    intro m hshort
    generalize values (l.get m) = as at hshort ⊢
    induction as with
    | nil => rfl
    | cons a as ih =>
      have hlen := c.length_encode a (hshort (c.encode a) (by simp))
      have hrest := ih fun v hv => hshort v (by simp [hv])
      simp only [List.map_cons, List.sum_cons, List.length_cons, hlen, hrest]
      omega

/-- A list, which grows at its end. -/
def repeated (c : Codec α) (tag : UInt8) (expects : List UInt8) (l : Lens M (List α))
    (htag : tag.toNat < 128 ∧ tag.toNat ≠ 0 := by decide) : Field M :=
  each c tag expects id (fun as a => as ++ [a]) l htag

/-- A map, whose entries are written as the iterator meets them and assigned when they are
read. -/
def map {β : Type} (P : Runtime) (c : Codec (List UInt8 × β)) (tag : UInt8)
    (expects : List UInt8) (l : Lens M (Map β))
    (htag : tag.toNat < 128 ∧ tag.toNat ≠ 0 := by decide) : Field M :=
  each c tag expects Map.entries (fun m e => P.insert m e.1 e.2) l htag

theorem length_flatMap_encode (c : Codec α) (as : List α)
    (hshort : ∀ a ∈ as, (c.encode a).length < 2 ^ 26) :
    (as.flatMap c.encode).length = (as.map c.size).sum := by
  induction as with
  | nil => rfl
  | cons a as ih =>
    rw [List.flatMap_cons, List.length_append, List.map_cons, List.sum_cons,
      c.length_encode a (hshort a (by simp)), ih fun a' ha' => hshort a' (by simp [ha'])]

theorem length_encode_le_flatMap (c : Codec α) {as : List α} {a : α} (ha : a ∈ as) :
    (c.encode a).length ≤ (as.flatMap c.encode).length := by
  induction as with
  | nil => cases ha
  | cons b as ih =>
    rw [List.flatMap_cons, List.length_append]
    rcases List.mem_cons.mp ha with rfl | ha
    · omega
    · have := ih ha
      omega

/-- A field whose numbers are written next to each other, behind one tag and their length. -/
def packed (P : Runtime) (tag : UInt8) (expects : List UInt8) (l : Lens M (List (BitVec 32)))
    (htag : tag.toNat < 128 ∧ tag.toNat ≠ 0 := by decide) : Field M where
  tag := tag
  expects := expects
  write m :=
    if (l.get m).isEmpty then [] else [P.delimit ((l.get m).flatMap P.int32.encode)]
  read m bs := (P.readPacked (l.get m) bs).map fun p => (l.set m p.1, p.2)
  mergeFrom into m := l.set into (l.get into ++ l.get m)
  valid _ := true
  size m :=
    let dataSize := ((l.get m).map P.int32.size).sum
    (if 0 < dataSize then 1 + P.lengthSize dataSize else 0) + dataSize
  tag_lt := htag.1
  tag_ne := htag.2
  read_lt := by
    intro m bs m' rest h
    obtain ⟨vs, hread, -⟩ := eq_some_of_put (l.set m) h
    exact P.readPacked_lt _ _ _ _ hread
  takes := by
    intro into m hshort
    generalize l.get m = vs at hshort ⊢
    rw [if_pos rfl]
    cases vs with
    | nil =>
      simp only [List.append_nil, l.set_get]
      exact .nil into
    | cons v vs =>
      have hlen := hshort _ (List.mem_singleton.mpr rfl)
      refine .taken (fun rest => ?_) (.nil _)
      rw [P.readPacked_delimit _ _ hlen]
      rfl
  size_eq := by
    intro m hshort
    generalize l.get m = vs at hshort ⊢
    cases vs with
    | nil => rfl
    | cons v vs =>
      have hlen := hshort _ (List.mem_singleton.mpr rfl)
      have hdata := Nat.lt_of_le_of_lt (P.length_le_delimit _) hlen
      have hone : ∀ w ∈ v :: vs, (P.int32.encode w).length < 2 ^ 26 := fun w hw =>
        Nat.lt_of_le_of_lt (length_encode_le_flatMap P.int32 hw) hdata
      have hsum := length_flatMap_encode P.int32 (v :: vs) hone
      have hpos : 0 < (P.int32.encode v).length :=
        List.length_pos_of_ne_nil (P.int32_encode_ne_nil (hone v (by simp)))
      have hfirst := length_encode_le_flatMap P.int32 (List.mem_cons_self (a := v) (l := vs))
      simp only [List.isEmpty_cons, Bool.false_eq_true, if_false, List.map_cons, List.map_nil,
        List.sum_cons, List.sum_nil]
      rw [P.length_delimit _ hlen]
      rw [List.map_cons, List.sum_cons] at hsum
      rw [if_pos (by omega), ← hsum]
      omega

/-- The other way in which the numbers of a packed field are read: one behind its own tag.
It is not written. The reader of the runtime gets the size of a tag and a tag to look for. -/
def unpacked (P : Runtime) (size : Nat) (next : UInt8) (tag : UInt8) (expects : List UInt8)
    (l : Lens M (List (BitVec 32))) (htag : tag.toNat < 128 ∧ tag.toNat ≠ 0 := by decide) :
    Field M where
  tag := tag
  expects := expects
  write _ := []
  read m bs := (P.readRepeated size next (l.get m) bs).map fun p => (l.set m p.1, p.2)
  mergeFrom into _ := into
  valid _ := true
  size _ := 0
  tag_lt := htag.1
  tag_ne := htag.2
  read_lt := by
    intro m bs m' rest h
    obtain ⟨vs, hread, -⟩ := eq_some_of_put (l.set m) h
    exact P.readRepeated_lt _ _ _ _ _ _ hread
  takes := fun into _ _ => .nil into
  size_eq := fun _ _ => rfl

/-! ### What a field is after it was read, or merged into a message where it was not set -/

section

variable {P : Runtime} {c : Codec α} {tag : UInt8} {expects : List UInt8} {m m' into : M}
  {bs rest : List UInt8} {htag : tag.toNat < 128 ∧ tag.toNat ≠ 0}

@[simp] theorem optional_valid [DecidableEq α] {zero : α} {l : Lens M α}
    {hzero : c.valid zero = true} :
    (optional c zero tag expects l hzero htag).valid m = c.valid (l.get m) :=
  rfl

@[simp] theorem repeated_valid {l : Lens M (List α)} :
    (repeated c tag expects l htag).valid m = (l.get m).all c.valid :=
  rfl

@[simp] theorem map_valid {β : Type} {c : Codec (List UInt8 × β)} {l : Lens M (Map β)} :
    (map P c tag expects l htag).valid m = (l.get m).entries.all c.valid :=
  rfl

@[simp] theorem packed_valid {l : Lens M (List (BitVec 32))} :
    (packed P tag expects l htag).valid m = true :=
  rfl

@[simp] theorem unpacked_valid {size : Nat} {next : UInt8} {l : Lens M (List (BitVec 32))} :
    (unpacked P size next tag expects l htag).valid m = true :=
  rfl

theorem optional_read [DecidableEq α] {zero : α} {l : Lens M α} {hzero : c.valid zero = true}
    (h : (optional c zero tag expects l hzero htag).read m bs = some (m', rest)) :
    ∃ a, c.valid a = true ∧ m' = l.set m a := by
  obtain ⟨a, hdecode, hm'⟩ := eq_some_of_put (l.set m) h
  exact ⟨a, c.valid_of_decode _ _ _ hdecode, hm'⟩

theorem each_read {κ : Type} {values : κ → List α} {add : κ → α → κ} {l : Lens M κ}
    (h : (each c tag expects values add l htag).read m bs = some (m', rest)) :
    ∃ a, c.valid a = true ∧ m' = l.set m (add (l.get m) a) := by
  obtain ⟨a, hdecode, hm'⟩ := eq_some_of_put (fun a => l.set m (add (l.get m) a)) h
  exact ⟨a, c.valid_of_decode _ _ _ hdecode, hm'⟩

theorem repeated_read {l : Lens M (List α)}
    (h : (repeated c tag expects l htag).read m bs = some (m', rest)) :
    ∃ a, c.valid a = true ∧ m' = l.set m (l.get m ++ [a]) :=
  each_read h

theorem map_read {β : Type} {c : Codec (List UInt8 × β)} {l : Lens M (Map β)}
    (h : (map P c tag expects l htag).read m bs = some (m', rest)) :
    ∃ e, c.valid e = true ∧ m' = l.set m (P.insert (l.get m) e.1 e.2) :=
  each_read h

theorem packed_read {l : Lens M (List (BitVec 32))}
    (h : (packed P tag expects l htag).read m bs = some (m', rest)) : ∃ vs, m' = l.set m vs := by
  obtain ⟨vs, -, hm'⟩ := eq_some_of_put (l.set m) h
  exact ⟨vs, hm'⟩

theorem unpacked_read {size : Nat} {next : UInt8} {l : Lens M (List (BitVec 32))}
    (h : (unpacked P size next tag expects l htag).read m bs = some (m', rest)) :
    ∃ vs, m' = l.set m vs := by
  obtain ⟨vs, -, hm'⟩ := eq_some_of_put (l.set m) h
  exact ⟨vs, hm'⟩

theorem optional_mergeFrom [DecidableEq α] {zero : α} {l : Lens M α}
    {hzero : c.valid zero = true} (h : l.get into = zero) :
    (optional c zero tag expects l hzero htag).mergeFrom into m = l.set into (l.get m) := by
  by_cases hz : l.get m = zero
  · simp only [optional, if_pos hz]
    rw [hz, ← h, l.set_get]
  · simp only [optional, if_neg hz]

theorem repeated_mergeFrom {l : Lens M (List α)} (h : l.get into = []) :
    (repeated c tag expects l htag).mergeFrom into m = l.set into (l.get m) := by
  have hfoldl : ∀ as bs : List α, bs.foldl (fun as a => as ++ [a]) as = as ++ bs := by
    intro as bs
    induction bs generalizing as with
    | nil => simp
    | cons b bs ih => simp [ih]
  simp only [repeated, each, id, h, hfoldl, List.nil_append]

end

end Field

/-! ## Messages -/

/-- The fields of a message, in the order in which they are written. -/
structure Schema (M : Type) where
  fields : List (Field M)
  nodup : (fields.map Field.tag).Nodup
  expects : ∀ f ∈ fields, ∀ t ∈ f.expects, ∃ g ∈ fields, g.tag = t

namespace Schema

def serialize (s : Schema M) (m : M) : List UInt8 :=
  s.fields.flatMap fun f => (f.write m).flatMap fun v => f.tag :: v

def byteSize (s : Schema M) (m : M) : Nat := (s.fields.map fun f => f.size m).sum

def mergeFrom (s : Schema M) (into m : M) : M :=
  s.fields.foldl (fun into f => f.mergeFrom into m) into

/-- The parser accepts what is written for the message. -/
def valid (s : Schema M) (m : M) : Bool := s.fields.all fun f => f.valid m

/-- The field of a tag. -/
def find (s : Schema M) (tag : Nat) : Option (Field M) := s.fields.find? fun f => f.tag.toNat = tag

theorem find?_of_nodup {fs : List (Field M)} (hnodup : (fs.map Field.tag).Nodup) {f : Field M}
    (hf : f ∈ fs) : fs.find? (fun g => g.tag.toNat = f.tag.toNat) = some f := by
  induction fs with
  | nil => cases hf
  | cons g fs ih =>
    rw [List.map_cons, List.nodup_cons] at hnodup
    rcases List.mem_cons.mp hf with rfl | hf
    · simp
    · have hne : ¬ g.tag.toNat = f.tag.toNat := fun heq =>
        hnodup.1 (List.mem_map.mpr ⟨f, hf, UInt8.toNat_inj.mp heq.symm⟩)
      rw [List.find?_cons_of_neg (by simpa using hne), ih hnodup.2 hf]

theorem find_tag (s : Schema M) {f : Field M} (hf : f ∈ s.fields) :
    s.find f.tag.toNat = some f :=
  find?_of_nodup s.nodup hf

/-! ### The parser -/

section

variable (P : Runtime)

/-- One field, known or unknown. -/
def next (P : Runtime) (s : Schema M) (budget : Nat) (m : M) (bs : List UInt8) :
    Option (M × List UInt8) :=
  let (tag, rest) := P.readTag bs
  match s.find tag with
  | some f => f.read m rest
  | none =>
    if tag = 0 ∨ tag % 8 = 4 then none else (P.skipField budget tag rest).map fun rest => (m, rest)

/-- The fields one after the other. -/
def parse (P : Runtime) (s : Schema M) (budget : Nat) (m : M) (bs : List UInt8) : Option M :=
  untilEnd (s.next P budget) (bs.length + 1) m bs

/-- The generated parser. It stands at the head of its loop, or at the label of a field
whose tag was read. The end of the input is looked for behind the last field and at the
head alike. At a tag that is zero or ends a group it returns with input left, which those
who call it refuse. -/
def merge (P : Runtime) (s : Schema M) (budget : Nat) :
    Nat → Option (Field M) → M → List UInt8 → Option M
  | 0, _, _, _ => none
  | _ + 1, none, m, [] => some m
  | n + 1, none, m, b :: bs =>
    let (tag, rest) := P.readTag (b :: bs)
    match s.find tag with
    | some f => merge P s budget n (some f) m rest
    | none =>
      if tag = 0 ∨ tag % 8 = 4 then none
      else (P.skipField budget tag rest).bind fun rest => merge P s budget n none m rest
  | n + 1, some f, m, bs =>
    (f.read m bs).bind fun p =>
      match f.expects.findSome? fun t => (P.expectTag t p.2).map fun rest => (t, rest) with
      | some (t, rest) => merge P s budget n (s.find t.toNat) p.1 rest
      | none => merge P s budget n none p.1 p.2

/-- Everything that arrives is taken into a message that is there. -/
def mergeFromArray (P : Runtime) (s : Schema M) (budget : Nat) (m : M) (bs : List UInt8) :
    Option M :=
  s.merge P budget (bs.length + 1) none m bs

theorem tag_ne_zero_of_find {s : Schema M} {tag : Nat} {f : Field M} (h : s.find tag = some f) :
    tag ≠ 0 ∧ f ∈ s.fields := by
  have hprop := List.find?_some h
  simp only [decide_eq_true_eq] at hprop
  exact ⟨hprop ▸ f.tag_ne, List.mem_of_find?_eq_some h⟩

theorem next_lt (s : Schema M) (budget : Nat) (m : M) (bs : List UInt8) (m' : M)
    (rest : List UInt8) (h : s.next P budget m bs = some (m', rest)) : rest.length < bs.length := by
  have hread := P.readTag_lt bs
  rcases htag : P.readTag bs with ⟨tag, behind⟩
  simp only [next, htag] at h hread
  cases hfind : s.find tag with
  | some f =>
    simp only [hfind] at h
    have := hread (tag_ne_zero_of_find hfind).1
    have := f.read_lt _ _ _ _ h
    omega
  | none =>
    simp only [hfind] at h
    split at h
    · cases h
    · rename_i hnot
      obtain ⟨rest', hskip, heq⟩ := Option.map_eq_some_iff.mp h
      cases heq
      have := hread fun hzero => hnot (Or.inl hzero)
      have := P.skipField_le _ _ _ _ hskip
      omega

@[simp] theorem parse_nil (s : Schema M) (budget : Nat) (m : M) : s.parse P budget m [] = some m :=
  rfl

theorem parse_cons (s : Schema M) (budget : Nat) (m : M) (b : UInt8) (bs : List UInt8) :
    s.parse P budget m (b :: bs) =
      (s.next P budget m (b :: bs)).bind fun p => s.parse P budget p.1 p.2 := by
  unfold parse
  rw [untilEnd]
  cases hnext : s.next P budget m (b :: bs) with
  | none => rfl
  | some p =>
    have hlt := s.next_lt P _ _ _ _ _ hnext
    exact untilEnd_fuel (s.next_lt P budget) _ _ _ _ hlt (Nat.lt_succ_self _)

/-- A field of the message at the front of the input. -/
theorem parse_field (s : Schema M) (budget : Nat) (m : M) {f : Field M} (hf : f ∈ s.fields)
    (bs : List UInt8) :
    s.parse P budget m (f.tag :: bs) = (f.read m bs).bind fun p => s.parse P budget p.1 p.2 := by
  have hnext : s.next P budget m (f.tag :: bs) = f.read m bs := by
    simp only [next, P.readTag_byte _ _ f.tag_lt f.tag_ne, s.find_tag hf]
  rw [parse_cons, hnext]

/-- **The generated parser is the plain one.** Looking for the expected tag first only saves
the way back to the head of the loop. -/
theorem merge_eq_parse (s : Schema M) (budget : Nat) (n : Nat) (m : M) (bs : List UInt8)
    (hn : bs.length < n) : s.merge P budget n none m bs = s.parse P budget m bs := by
  -- at the label of a field, the field is read and the rest parsed
  have hboth : ∀ n,
      (∀ m bs, bs.length < n → s.merge P budget n none m bs = s.parse P budget m bs) ∧
      ∀ f ∈ s.fields, ∀ m bs, bs.length < n →
        s.merge P budget n (some f) m bs =
          (f.read m bs).bind fun p => s.parse P budget p.1 p.2 := by
    intro n
    induction n with
    | zero => exact ⟨fun _ _ h => by omega, fun _ _ _ _ h => by omega⟩
    | succ n ih =>
      refine ⟨fun m bs hn => ?_, fun f hf m bs hn => ?_⟩
      · cases bs with
        | nil => rfl
        | cons b bs =>
          rw [parse_cons]
          have hread := P.readTag_lt (b :: bs)
          rcases htag : P.readTag (b :: bs) with ⟨tag, behind⟩
          simp only [merge, next, htag] at hread ⊢
          cases hfind : s.find tag with
          | some f =>
            obtain ⟨hne, hf⟩ := tag_ne_zero_of_find hfind
            have := hread hne
            exact ih.2 f hf m _ (by omega)
          | none =>
            simp only
            split
            · rfl
            · rename_i hnot
              have := hread fun hzero => hnot (Or.inl hzero)
              cases hskip : P.skipField budget tag behind with
              | none => rfl
              | some rest =>
                have := P.skipField_le _ _ _ _ hskip
                exact ih.1 m rest (by omega)
      · simp only [merge]
        cases hread : f.read m bs with
        | none => rfl
        | some p =>
          obtain ⟨m', rest⟩ := p
          have hlt := f.read_lt _ _ _ _ hread
          simp only [Option.bind_some]
          split
          · rename_i t behind ht
            obtain ⟨t', hmem, hexpect⟩ := List.exists_of_findSome?_eq_some ht
            obtain ⟨behind', hbehind, heq⟩ := Option.map_eq_some_iff.mp hexpect
            cases heq
            obtain ⟨g, hg, rfl⟩ := s.expects f hf t hmem
            obtain rfl := P.of_expectTag _ _ _ hbehind
            rw [s.find_tag hg, parse_field P s budget m' hg]
            rw [List.length_cons] at hlt
            exact ih.2 g hg m' behind (by omega)
          · exact ih.1 m' rest (by omega)
  exact (hboth n).1 m bs hn

theorem mergeFromArray_eq (s : Schema M) (budget : Nat) (m : M) (bs : List UInt8) :
    s.mergeFromArray P budget m bs = s.parse P budget m bs :=
  s.merge_eq_parse P budget _ m bs (Nat.lt_succ_self _)

/-- The fields are merged one after the other. -/
theorem foldl_mergeFrom_cons {f : Field M} {fs : List (Field M)} {into m into' m' : M}
    (hf : f.mergeFrom into m = into')
    (hfs : fs.foldl (fun into f => f.mergeFrom into m) into' = m') :
    (f :: fs).foldl (fun into f => f.mergeFrom into m) into = m' := by
  rw [List.foldl_cons, hf, hfs]

/-! ### Round trips -/

/-- The values of one field at the front of the input. -/
theorem parse_takesAll (s : Schema M) (budget : Nat) {f : Field M} (hf : f ∈ s.fields) {m : M}
    {vs : List (List UInt8)} {r : Option M} (h : TakesAll f.read m vs r) (rest : List UInt8) :
    s.parse P budget m ((vs.flatMap fun v => f.tag :: v) ++ rest) =
      r.bind fun m' => s.parse P budget m' rest := by
  induction h with
  | nil m => rfl
  | refused vs h =>
    rw [List.flatMap_cons, List.append_assoc, List.cons_append, parse_field P s budget _ hf, h]
    rfl
  | taken h _ ih =>
    rw [List.flatMap_cons, List.append_assoc, List.cons_append, parse_field P s budget _ hf, h,
      ← ih]
    rfl

/-- Some fields of the message, as they are written. -/
theorem parse_fields (s : Schema M) (budget : Nat) (m : M) (fs : List (Field M))
    (hfs : ∀ f ∈ fs, f ∈ s.fields) (hshort : ∀ f ∈ fs, Short (f.write m)) (into : M)
    (rest : List UInt8) :
    s.parse P budget into ((fs.flatMap fun f => (f.write m).flatMap fun v => f.tag :: v) ++ rest) =
      if fs.all fun f => f.valid m then
        s.parse P budget (fs.foldl (fun into f => f.mergeFrom into m) into) rest
      else none := by
  induction fs generalizing into with
  | nil => rfl
  | cons f fs ih =>
    have htakes := f.takes into m (hshort f (by simp))
    rw [List.flatMap_cons, List.append_assoc,
      s.parse_takesAll P budget (hfs f (by simp)) htakes]
    cases hvalid : f.valid m with
    | true =>
      simp only [if_true, Option.bind_some, List.all_cons, hvalid, Bool.true_and, List.foldl_cons]
      exact ih (fun g hg => hfs g (by simp [hg])) (fun g hg => hshort g (by simp [hg])) _
    | false => simp [hvalid]

/-- The values that a message is written with are shorter than the whole of it. -/
theorem short_of_serialize (s : Schema M) {m : M} (h : (s.serialize m).length < 2 ^ 26)
    {f : Field M} (hf : f ∈ s.fields) : Short (f.write m) := by
  intro v hv
  have hfield : (f.tag :: v).length ≤ (s.serialize m).length := by
    refine List.Sublist.length_le ?_
    have h₁ : (f.tag :: v).Sublist ((f.write m).flatMap fun v => f.tag :: v) := by
      rw [List.flatMap_def]
      exact List.sublist_flatten_of_mem (List.mem_map.mpr ⟨v, hv, rfl⟩)
    refine h₁.trans ?_
    rw [serialize, List.flatMap_def]
    exact List.sublist_flatten_of_mem (List.mem_map.mpr ⟨f, hf, rfl⟩)
  rw [List.length_cons] at hfield
  omega

/-- **Round trip.** A message that is written and read into another one is merged into it,
and what follows is read behind it; a message that is not valid is refused. -/
theorem parse_serialize (s : Schema M) (budget : Nat) (into m : M)
    (h : (s.serialize m).length < 2 ^ 26) (rest : List UInt8) :
    s.parse P budget into (s.serialize m ++ rest) =
      if s.valid m then s.parse P budget (s.mergeFrom into m) rest else none :=
  s.parse_fields P budget m s.fields (fun _ hf => hf) (fun _ hf => s.short_of_serialize h hf) into
    rest

theorem mergeFromArray_serialize (s : Schema M) (budget : Nat) (into m : M)
    (h : (s.serialize m).length < 2 ^ 26) :
    s.mergeFromArray P budget into (s.serialize m) =
      if s.valid m then some (s.mergeFrom into m) else none := by
  have hparse := s.parse_serialize P budget into m h []
  rw [List.append_nil] at hparse
  rw [mergeFromArray_eq, hparse]
  rfl

/-- What reading every field keeps holds of every message that is accepted. -/
theorem mergeFromArray_kept (s : Schema M) (budget : Nat) {Q : M → Prop}
    (hread : ∀ f ∈ s.fields, ∀ m bs m' rest, Q m → f.read m bs = some (m', rest) → Q m') (m : M)
    (bs : List UInt8) (hm : Q m) {m' : M} (h : s.mergeFromArray P budget m bs = some m') :
    Q m' := by
  rw [mergeFromArray_eq] at h
  refine untilEnd_kept (fun m bs m' rest hm hnext => ?_) _ m bs hm h
  unfold next at hnext
  cases hfind : s.find (P.readTag bs).1 with
  | some f =>
    simp only [hfind] at hnext
    exact hread f (tag_ne_zero_of_find hfind).2 _ _ _ _ hm hnext
  | none =>
    simp only [hfind] at hnext
    split at hnext
    · cases hnext
    · obtain ⟨rest', -, heq⟩ := Option.map_eq_some_iff.mp hnext
      cases heq
      exact hm

/-- **The size that is counted is the size that is written.** -/
theorem length_serialize (s : Schema M) (m : M) (h : (s.serialize m).length < 2 ^ 26) :
    (s.serialize m).length = s.byteSize m := by
  have hfield : ∀ f ∈ s.fields,
      ((f.write m).flatMap fun v => f.tag :: v).length = f.size m := by
    intro f hf
    rw [← f.size_eq m (s.short_of_serialize h hf), List.length_flatMap]
    simp
  rw [serialize, List.length_flatMap, byteSize]
  exact congrArg List.sum (List.map_congr_left hfield)

end

end Schema

/-! ## Messages in messages -/

/-- A field that holds a message of its own, or none. -/
def Field.message (P : Runtime) (s : Schema N) (budget : Nat) (init : N) (tag : UInt8)
    (expects : List UInt8) (l : Lens M (Option N))
    (htag : tag.toNat < 128 ∧ tag.toNat ≠ 0 := by decide) : Field M where
  tag := tag
  expects := expects
  write m := (l.get m).toList.map fun x => P.delimit (s.serialize x)
  read m bs := (P.readDelimited bs).bind fun p =>
    (s.mergeFromArray P budget ((l.get m).getD init) p.1).map fun x => (l.set m (some x), p.2)
  mergeFrom into m :=
    (l.get m).elim into fun x => l.set into (some (s.mergeFrom ((l.get into).getD init) x))
  valid m := (l.get m).all s.valid
  size m := (l.get m).elim 0 fun x => 1 + (P.lengthSize (s.byteSize x) + s.byteSize x)
  tag_lt := htag.1
  tag_ne := htag.2
  read_lt := by
    intro m bs m' rest h
    obtain ⟨⟨data, behind⟩, hdata, hread⟩ := Option.bind_eq_some_iff.mp h
    obtain ⟨x, -, heq⟩ := Option.map_eq_some_iff.mp hread
    cases heq
    exact P.readDelimited_lt _ _ _ hdata
  takes := by
    intro into m hshort
    generalize l.get m = o at hshort ⊢
    cases o with
    | none => exact .nil into
    | some x =>
      have hlen := hshort _ (List.mem_singleton.mpr rfl)
      have hdata := Nat.lt_of_le_of_lt (P.length_le_delimit _) hlen
      have hmerge := s.mergeFromArray_serialize P budget ((l.get into).getD init) x hdata
      have htakes : ∀ r, s.mergeFromArray P budget ((l.get into).getD init) (s.serialize x) = r →
          Takes (fun m bs => (P.readDelimited bs).bind fun p =>
            (s.mergeFromArray P budget ((l.get m).getD init) p.1).map fun x =>
              (l.set m (some x), p.2)) into (P.delimit (s.serialize x))
            (r.map fun x => l.set into (some x)) := by
        rintro r rfl rest
        simp only [P.readDelimited_delimit _ hlen, Option.bind_some, Option.map_map]
        rfl
      cases hvalid : s.valid x with
      | true =>
        rw [hvalid, if_pos rfl] at hmerge
        simp only [Option.all_some, hvalid, if_true]
        exact .taken (htakes _ hmerge) (.nil _)
      | false =>
        rw [hvalid] at hmerge
        simp only [Option.all_some, hvalid, Bool.false_eq_true, if_false]
        exact .refused [] (htakes _ hmerge)
  size_eq := by
    intro m hshort
    generalize l.get m = o at hshort ⊢
    cases o with
    | none => rfl
    | some x =>
      have hlen := hshort _ (List.mem_singleton.mpr rfl)
      have hdata := Nat.lt_of_le_of_lt (P.length_le_delimit _) hlen
      simp [P.length_delimit _ hlen, s.length_serialize x hdata, Nat.add_comm]

section

variable {P : Runtime} {s : Schema N} {budget : Nat} {init : N} {tag : UInt8} {expects : List UInt8}
  {l : Lens M (Option N)} {htag : tag.toNat < 128 ∧ tag.toNat ≠ 0}

@[simp] theorem Field.message_valid {m : M} :
    (Field.message P s budget init tag expects l htag).valid m = (l.get m).all s.valid :=
  rfl

theorem Field.message_read {m m' : M} {bs rest : List UInt8}
    (h : (Field.message P s budget init tag expects l htag).read m bs = some (m', rest)) :
    ∃ x, m' = l.set m (some x) := by
  obtain ⟨p, -, hread⟩ := Option.bind_eq_some_iff.mp h
  obtain ⟨x, -, heq⟩ := Option.map_eq_some_iff.mp hread
  cases heq
  exact ⟨x, rfl⟩

theorem Field.message_mergeFrom {into m : M} (h : l.get into = none)
    (hinit : ∀ x, s.mergeFrom init x = x) :
    (Field.message P s budget init tag expects l htag).mergeFrom into m = l.set into (l.get m) := by
  simp only [Field.message, h, Option.getD_none, hinit]
  cases hget : l.get m with
  | none =>
    have hset := l.set_get into
    rw [h] at hset
    exact hset.symm
  | some x => rfl

end

end Cppim.Lib.Message
