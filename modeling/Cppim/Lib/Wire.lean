import Mathlib.Algebra.Group.Nat.Defs
import Mathlib.Data.BitVec
import Mathlib.Data.List.Basic

/-! What the code that is generated for protocol buffers needs from the runtime that it is
linked with: tags, the values of the wire types, how an unknown value is skipped, and which
bytes are UTF-8 text. The runtime is given by its laws: a `Runtime` is any one that keeps
them.

A `Codec` is a type of values with its writer, its reader and the size that is counted
before anything is written. Inputs are shorter than `2 ^ 26` bytes, the limit that a
`CodedInputStream` has by default. -/

namespace Cppim.Lib.Wire

/-- A type of values. Values that do not pass `valid` are written as the others are, and
refused by the reader. -/
structure Codec (α : Type) where
  encode : α → List UInt8
  decode : List UInt8 → Option (α × List UInt8)
  valid : α → Bool
  size : α → Nat
  decode_lt : ∀ bs a rest, decode bs = some (a, rest) → rest.length < bs.length
  decode_encode : ∀ a, (encode a).length < 2 ^ 26 → ∀ rest,
    decode (encode a ++ rest) = if valid a then some (a, rest) else none
  valid_of_decode : ∀ bs a rest, decode bs = some (a, rest) → valid a = true
  length_encode : ∀ a, (encode a).length < 2 ^ 26 → (encode a).length = size a

namespace Codec

variable {α : Type}

theorem decode_valid (c : Codec α) {a : α} (hlen : (c.encode a).length < 2 ^ 26)
    (h : c.valid a = true) (rest : List UInt8) :
    c.decode (c.encode a ++ rest) = some (a, rest) := by
  rw [c.decode_encode a hlen, if_pos h]

theorem decode_invalid (c : Codec α) {a : α} (hlen : (c.encode a).length < 2 ^ 26)
    (h : c.valid a = false) (rest : List UInt8) : c.decode (c.encode a ++ rest) = none := by
  rw [c.decode_encode a hlen, h]
  rfl

/-- The values are looked at once more when they are read. -/
def checked (c : Codec α) (check : α → Bool) : Codec α where
  encode := c.encode
  decode bs := (c.decode bs).filter fun p => check p.1
  valid a := c.valid a && check a
  size := c.size
  decode_lt := fun bs a rest h => c.decode_lt bs a rest (Option.filter_eq_some_iff.mp h).1
  decode_encode := by
    intro a hlen rest
    rw [c.decode_encode a hlen]
    cases c.valid a <;> cases hcheck : check a <;> simp [hcheck]
  valid_of_decode := by
    intro bs a rest h
    obtain ⟨hdecode, hcheck⟩ := Option.filter_eq_some_iff.mp h
    rw [c.valid_of_decode bs a rest hdecode, Bool.true_and]
    exact hcheck
  length_encode := c.length_encode

@[simp] theorem checked_valid (c : Codec α) (check : α → Bool) :
    (c.checked check).valid = fun a => c.valid a && check a := rfl

end Codec

/-- The entries of a map, in the order in which an iterator meets them. -/
structure Map (β : Type) where
  entries : List (List UInt8 × β)
  nodup : (entries.map Prod.fst).Nodup
  deriving Repr, DecidableEq

namespace Map

def empty {β : Type} : Map β := ⟨[], List.nodup_nil⟩

def keys {β : Type} (m : Map β) : List (List UInt8) := m.entries.map Prod.fst

@[simp] theorem keys_empty {β : Type} : (empty : Map β).keys = [] := rfl

/-- The same entries, in any order. -/
def Same {β : Type} (m m' : Map β) : Prop := ∀ e, e ∈ m.entries ↔ e ∈ m'.entries

end Map

/-- The operations of a runtime, each with its laws. -/
structure Runtime where
  /-- `ReadPrimitive`, `WriteInt32ToArray` and `Int32Size`, and so on -/
  int32 : Codec (BitVec 32)
  int32_valid : ∀ v, int32.valid v = true
  /-- the same for an enumeration that is open -/
  enum : Codec (BitVec 32)
  enum_valid : ∀ v, enum.valid v = true
  int64 : Codec (BitVec 64)
  int64_valid : ∀ v, int64.valid v = true
  bool : Codec Bool
  bool_valid : ∀ v, bool.valid v = true
  /-- `ReadBytes`, and `ReadString` before the text is verified -/
  bytes : Codec (List UInt8)
  bytes_valid : ∀ data, bytes.valid data = true
  /-- `VerifyUtf8String` -/
  isUtf8 : List UInt8 → Bool
  isUtf8_nil : isUtf8 [] = true
  /-- `ReadTag`: zero stands for the end of the input and for bytes that are no tag -/
  readTag : List UInt8 → Nat × List UInt8
  readTag_byte : ∀ (b : UInt8) bs, b.toNat < 128 → b.toNat ≠ 0 → readTag (b :: bs) = (b.toNat, bs)
  readTag_lt : ∀ bs, (readTag bs).1 ≠ 0 → (readTag bs).2.length < bs.length
  /-- `ExpectTag` of a tag that is one byte -/
  expectTag : UInt8 → List UInt8 → Option (List UInt8)
  of_expectTag : ∀ tag bs rest, expectTag tag bs = some rest → bs = tag :: rest
  /-- `SkipField`, with the levels of groups that may follow -/
  skipField : Nat → Nat → List UInt8 → Option (List UInt8)
  skipField_le : ∀ budget tag bs rest, skipField budget tag bs = some rest →
    rest.length ≤ bs.length
  /-- bytes behind their length, as they are written for a message and for packed values -/
  delimit : List UInt8 → List UInt8
  /-- `VarintSize32` of a length, or `Int32Size`, which is the same for a length -/
  lengthSize : Nat → Nat
  length_delimit : ∀ data, (delimit data).length < 2 ^ 26 →
    (delimit data).length = lengthSize data.length + data.length
  length_le_delimit : ∀ data, data.length ≤ (delimit data).length
  /-- what is inside of a length that is read and pushed as a limit, and what is behind -/
  readDelimited : List UInt8 → Option (List UInt8 × List UInt8)
  readDelimited_lt : ∀ bs data rest, readDelimited bs = some (data, rest) →
    rest.length < bs.length
  readDelimited_delimit : ∀ data, (delimit data).length < 2 ^ 26 → ∀ rest,
    readDelimited (delimit data ++ rest) = some (data, rest)
  /-- `ReadPackedPrimitive` -/
  readPacked : List (BitVec 32) → List UInt8 → Option (List (BitVec 32) × List UInt8)
  readPacked_lt : ∀ vs bs vs' rest, readPacked vs bs = some (vs', rest) → rest.length < bs.length
  readPacked_delimit : ∀ vs ws, (delimit (ws.flatMap int32.encode)).length < 2 ^ 26 → ∀ rest,
    readPacked vs (delimit (ws.flatMap int32.encode) ++ rest) = some (vs ++ ws, rest)
  /-- `ReadRepeatedPrimitiveNoInline`, with the size of a tag and the tag that it looks for
  itself behind each value, for as many values as the list has places for; these follow
  from its length, since the list grew value by value -/
  readRepeated : Nat → UInt8 → List (BitVec 32) → List UInt8 →
    Option (List (BitVec 32) × List UInt8)
  readRepeated_lt : ∀ size tag vs bs vs' rest, readRepeated size tag vs bs = some (vs', rest) →
    rest.length < bs.length
  /-- an entry of a map behind its length -/
  int32Entry : Codec (List UInt8 × BitVec 32)
  int32Entry_valid : ∀ e, int32Entry.valid e = true
  boolEntry : Codec (List UInt8 × Bool)
  boolEntry_valid : ∀ e, boolEntry.valid e = true
  /-- `operator[]` of a map, with an assignment -/
  insert : {β : Type} → Map β → List UInt8 → β → Map β
  mem_insert : ∀ {β : Type} (m : Map β) key value e,
    e ∈ (insert m key value).entries ↔ e = (key, value) ∨ e ∈ m.entries ∧ e.1 ≠ key

namespace Runtime

attribute [simp] int32_valid enum_valid int64_valid bool_valid bytes_valid isUtf8_nil
  int32Entry_valid boolEntry_valid

/-- `ReadString` and `VerifyUtf8String` -/
def string (P : Runtime) : Codec (List UInt8) := P.bytes.checked P.isUtf8

@[simp] theorem string_valid (P : Runtime) : P.string.valid = P.isUtf8 := by
  funext data
  simp [string]

@[simp] theorem mem_keys_insert (P : Runtime) {β : Type} (m : Map β) (key : List UInt8)
    (value : β) (k : List UInt8) : k ∈ (P.insert m key value).keys ↔ k = key ∨ k ∈ m.keys := by
  simp only [Map.keys, List.mem_map, P.mem_insert]
  constructor
  · rintro ⟨e, rfl | ⟨he, -⟩, rfl⟩
    · exact Or.inl rfl
    · exact Or.inr ⟨e, he, rfl⟩
  · rintro (rfl | ⟨e, he, rfl⟩)
    · exact ⟨_, Or.inl rfl, rfl⟩
    · by_cases hkey : e.1 = key
      · exact ⟨_, Or.inl rfl, hkey.symm⟩
      · exact ⟨e, Or.inr ⟨he, hkey⟩, rfl⟩

/-- What entries that are assigned one after the other leave. -/
theorem mem_foldl_insert (P : Runtime) {β : Type} (es : List (List UInt8 × β))
    (hnodup : (es.map Prod.fst).Nodup) (m : Map β) (e : List UInt8 × β) :
    e ∈ (es.foldl (fun m e => P.insert m e.1 e.2) m).entries ↔
      e ∈ es ∨ e ∈ m.entries ∧ e.1 ∉ es.map Prod.fst := by
  induction es generalizing m with
  | nil => simp
  | cons d es ih =>
    rw [List.map_cons, List.nodup_cons] at hnodup
    rw [List.foldl_cons, ih hnodup.2, P.mem_insert, List.mem_cons, List.map_cons, List.mem_cons]
    -- the key of the first entry does not come again
    have hkey : e = d → e.1 ∉ es.map Prod.fst := fun h => h ▸ hnodup.1
    tauto

/-- A map that is assigned into an empty one. -/
theorem foldl_insert_same (P : Runtime) {β : Type} (m : Map β) :
    m.Same (m.entries.foldl (fun m e => P.insert m e.1 e.2) Map.empty) := by
  intro e
  rw [P.mem_foldl_insert _ m.nodup]
  simp [Map.empty]

/-- At least one byte is written for a number. -/
theorem int32_encode_ne_nil (P : Runtime) {v : BitVec 32}
    (hlen : (P.int32.encode v).length < 2 ^ 26) : P.int32.encode v ≠ [] := by
  intro hnil
  have hdecode := P.int32.decode_valid hlen (P.int32_valid v) []
  have hlt := P.int32.decode_lt _ _ _ hdecode
  simp [hnil] at hlt

end Runtime

end Cppim.Lib.Wire
