import Cppim.Lib.Varint
import Cppim.Lib.Wire

/-! A runtime for protocol buffers that can be run: varints, tags, values behind their
length and UTF-8 by the tables of well-formed sequences. It shows that the laws of `Runtime`
can be kept together, and what is proved from them is evaluated with it. -/

namespace Cppim.Lib.Reference

open Cppim.Lib.Wire (Codec Map Runtime)

/-! ## Tags and unknown values -/

/-- The tag at the front of the input, and what is behind it. Zero stands for the end of
the input and for bytes that are no tag. -/
def readTag (bs : List UInt8) : Nat × List UInt8 :=
  match Varint.decode 10 bs with
  | some (n, rest) => (n % 2 ^ 32, rest)
  | none => (0, bs)

/-- A tag below 128 is one byte. -/
theorem readTag_byte {b : UInt8} (h : b.toNat < 128) (bs : List UInt8) :
    readTag (b :: bs) = (b.toNat, bs) := by
  rw [readTag, Varint.decode_byte 9 h]
  simp only [Prod.mk.injEq, and_true]
  omega

theorem readTag_lt {bs : List UInt8} (h : (readTag bs).1 ≠ 0) :
    (readTag bs).2.length < bs.length := by
  unfold readTag at h ⊢
  split
  · rename_i hdecode
    exact Varint.decode_lt hdecode
  · rename_i hdecode
    simp [hdecode] at h

def skip (n : Nat) (bs : List UInt8) : Option (List UInt8) :=
  if n ≤ bs.length then some (bs.drop n) else none

/-- A value of one of the wire types that hold no others. -/
def skipValue (tag : Nat) (bs : List UInt8) : Option (List UInt8) :=
  match tag % 8 with
  | 0 => (Varint.decode 10 bs).map Prod.snd
  | 1 => skip 8 bs
  | 2 => (Varint.decode 10 bs).bind fun p => skip (p.1 % 2 ^ 32) p.2
  | 5 => skip 4 bs
  | _ => none

/-- The values of a group, up to the tag that ends it. -/
def skipMessage (skipField : Nat → List UInt8 → Option (List UInt8)) :
    Nat → List UInt8 → Option (Nat × List UInt8)
  | 0, _ => none
  | n + 1, bs =>
    let (tag, rest) := readTag bs
    if tag = 0 ∨ tag % 8 = 4 then some (tag, rest)
    else (skipField tag rest).bind fun rest => skipMessage skipField n rest

/-- The value of a field that the message does not have; groups are nested at most
`budget` deep. -/
def skipField : Nat → Nat → List UInt8 → Option (List UInt8)
  | 0, tag, bs => skipValue tag bs
  | budget + 1, tag, bs =>
    if tag % 8 = 3 then
      (skipMessage (skipField budget) (bs.length + 1) bs).bind fun p =>
        if p.1 = tag + 1 then some p.2 else none
    else skipValue tag bs

theorem skip_lt {n : Nat} {bs rest : List UInt8} (hn : 0 < n) (h : skip n bs = some rest) :
    rest.length < bs.length := by
  unfold skip at h
  split at h
  · cases h
    rw [List.length_drop]
    omega
  · cases h

theorem skip_le {n : Nat} {bs rest : List UInt8} (h : skip n bs = some rest) :
    rest.length ≤ bs.length := by
  unfold skip at h
  split at h
  · cases h
    rw [List.length_drop]
    omega
  · cases h

theorem skipValue_lt {tag : Nat} {bs rest : List UInt8} (h : skipValue tag bs = some rest) :
    rest.length < bs.length := by
  unfold skipValue at h
  split at h
  · obtain ⟨⟨n, rest'⟩, hp, rfl⟩ := Option.map_eq_some_iff.mp h
    exact Varint.decode_lt hp
  · exact skip_lt (by omega) h
  · obtain ⟨⟨n, rest'⟩, hp, hskip⟩ := Option.bind_eq_some_iff.mp h
    have hlt := Varint.decode_lt hp
    exact Nat.lt_of_le_of_lt (skip_le hskip) hlt
  · exact skip_lt (by omega) h
  · cases h

/-- The end of a group is a tag of at least one byte. -/
theorem skipMessage_lt {skipField : Nat → List UInt8 → Option (List UInt8)}
    (hskip : ∀ tag bs rest, skipField tag bs = some rest → rest.length < bs.length) (n : Nat)
    {tag : Nat} {bs rest : List UInt8} (htag : tag ≠ 0)
    (h : skipMessage skipField n bs = some (tag, rest)) : rest.length < bs.length := by
  induction n generalizing bs with
  | zero => cases h
  | succ n ih =>
    simp only [skipMessage] at h
    split at h
    · cases h
      exact readTag_lt htag
    · rename_i hnot
      obtain ⟨rest', hrest, hmore⟩ := Option.bind_eq_some_iff.mp h
      have hread : (readTag bs).2.length < bs.length :=
        readTag_lt fun hzero => hnot (Or.inl hzero)
      have hfield := hskip _ _ _ hrest
      have := ih hmore
      omega

theorem skipField_lt (budget tag : Nat) (bs rest : List UInt8)
    (h : skipField budget tag bs = some rest) : rest.length < bs.length := by
  induction budget generalizing tag bs rest with
  | zero => exact skipValue_lt h
  | succ budget ih =>
    simp only [skipField] at h
    split at h
    · obtain ⟨⟨last, rest'⟩, hmessage, hlast⟩ := Option.bind_eq_some_iff.mp h
      split at hlast
      · rename_i htag
        cases hlast
        exact skipMessage_lt ih _ (by omega) hmessage
      · cases hlast
    · exact skipValue_lt h

/-! ## UTF-8 -/

/-- The ranges of the bytes that have to follow a first byte. -/
def following (b : UInt8) : Option (List (UInt8 × UInt8)) :=
  if b < 0x80 then some []
  else if b < 0xC2 then none
  else if b < 0xE0 then some [(0x80, 0xBF)]
  else if b = 0xE0 then some [(0xA0, 0xBF), (0x80, 0xBF)]
  else if b = 0xED then some [(0x80, 0x9F), (0x80, 0xBF)]
  else if b < 0xF0 then some [(0x80, 0xBF), (0x80, 0xBF)]
  else if b = 0xF0 then some [(0x90, 0xBF), (0x80, 0xBF), (0x80, 0xBF)]
  else if b < 0xF4 then some [(0x80, 0xBF), (0x80, 0xBF), (0x80, 0xBF)]
  else if b = 0xF4 then some [(0x80, 0x8F), (0x80, 0xBF), (0x80, 0xBF)]
  else none

/-- The bytes go on with what is expected and are text behind it. -/
def isUtf8From : List (UInt8 × UInt8) → List UInt8 → Bool
  | pending, [] => pending.isEmpty
  | [], b :: bs =>
    match following b with
    | some pending => isUtf8From pending bs
    | none => false
  | (low, high) :: pending, b :: bs => low ≤ b && b ≤ high && isUtf8From pending bs

def isUtf8 (bs : List UInt8) : Bool := isUtf8From [] bs

/-! ## Numbers -/

/-- A number that is read off a varint. -/
def ofVarint {α : Type} (toNumber : α → BitVec 64) (ofNumber : Nat → α) (size : α → Nat)
    (hof : ∀ a, ofNumber (toNumber a).toNat = a)
    (hsize : ∀ a, Varint.size (toNumber a).toNat = size a) : Codec α where
  encode a := Varint.encode 10 (toNumber a).toNat
  decode bs := (Varint.decode 10 bs).map fun p => (ofNumber p.1, p.2)
  valid _ := true
  size := size
  decode_lt := by
    intro bs a rest h
    obtain ⟨⟨n, rest'⟩, hp, heq⟩ := Option.map_eq_some_iff.mp h
    cases heq
    exact Varint.decode_lt hp
  decode_encode := by
    intro a _ rest
    have hlt : (toNumber a).toNat < 128 ^ 10 := Nat.lt_of_lt_of_le (toNumber a).isLt (by decide)
    rw [Varint.decode_encode 10 _ (by omega) hlt, Option.map_some, hof]
    rfl
  valid_of_decode := fun _ _ _ _ => rfl
  length_encode := by
    intro a _
    rw [Varint.length_encode _ (toNumber a).isLt, hsize]

/-- A negative number is extended to 64 bits. -/
def int32Size (v : BitVec 32) : Nat := if v.msb then 10 else Varint.size v.toNat

theorem toNat_signExtend (v : BitVec 32) :
    (v.signExtend 64).toNat = v.toNat + if v.msb then 2 ^ 64 - 2 ^ 32 else 0 := by
  have hlt := v.isLt
  rw [BitVec.toNat_signExtend, BitVec.toNat_setWidth, Nat.mod_eq_of_lt (by omega)]

theorem ofNat_signExtend (v : BitVec 32) : BitVec.ofNat 32 (v.signExtend 64).toNat = v := by
  have hlt := v.isLt
  apply BitVec.eq_of_toNat_eq
  rw [BitVec.toNat_ofNat, toNat_signExtend]
  split <;> omega

theorem size_signExtend (v : BitVec 32) : Varint.size (v.signExtend 64).toNat = int32Size v := by
  have hlt := v.isLt
  rw [toNat_signExtend, int32Size]
  split
  · -- the highest of the 64 bits is set
    have hlarge : 2 ^ 63 ≤ v.toNat + (2 ^ 64 - 2 ^ 32) := by omega
    simp only [Varint.size]
    repeat rw [if_neg (by omega)]
  · rfl

def int32 : Codec (BitVec 32) :=
  ofVarint (fun v => v.signExtend 64) (BitVec.ofNat 32) int32Size ofNat_signExtend size_signExtend

def int64 : Codec (BitVec 64) :=
  ofVarint id (BitVec.ofNat 64) (fun v => Varint.size v.toNat) (fun _ => BitVec.ofNat_toNat ..)
    fun _ => rfl

/-- Any number but zero is read as true. -/
def bool : Codec Bool :=
  ofVarint (fun b => if b then 1 else 0) (fun n => n % 2 ^ 64 ≠ 0) (fun _ => 1) (by decide)
    (by decide)

/-! ## Bytes behind their length -/

/-- A length in front of the bytes. -/
def prefixed (data : List UInt8) : List UInt8 := Varint.encode 10 data.length ++ data

/-- A length that fits into an `int`. -/
def readSize (bs : List UInt8) : Option (Nat × List UInt8) :=
  (Varint.decode 10 bs).bind fun p =>
    if p.1 % 2 ^ 64 < 2 ^ 31 then some (p.1 % 2 ^ 64, p.2) else none

theorem decode_prefixed {data : List UInt8} (h : data.length < 2 ^ 26) (rest : List UInt8) :
    Varint.decode 10 (prefixed data ++ rest) = some (data.length, data ++ rest) := by
  rw [prefixed, List.append_assoc, Varint.decode_encode 10 _ (by omega)]
  exact Nat.lt_of_lt_of_le h (by decide)

theorem readSize_prefixed {data : List UInt8} (h : data.length < 2 ^ 26) (rest : List UInt8) :
    readSize (prefixed data ++ rest) = some (data.length, data ++ rest) := by
  have hmod : data.length % 2 ^ 64 = data.length := Nat.mod_eq_of_lt (by omega)
  have hint : data.length < 2 ^ 31 := by omega
  simp only [readSize, decode_prefixed h, Option.bind_some, hmod, if_pos hint]

theorem readSize_lt {bs rest : List UInt8} {n : Nat} (h : readSize bs = some (n, rest)) :
    rest.length < bs.length := by
  obtain ⟨⟨k, rest'⟩, hdecode, hsize⟩ := Option.bind_eq_some_iff.mp h
  split at hsize
  · cases hsize
    exact Varint.decode_lt hdecode
  · cases hsize

theorem length_le_prefixed (data : List UInt8) : data.length ≤ (prefixed data).length := by
  rw [prefixed, List.length_append]
  omega

theorem length_prefixed {data : List UInt8} (h : data.length < 2 ^ 26) :
    (prefixed data).length = Varint.size data.length + data.length := by
  rw [prefixed, List.length_append, Varint.length_encode _ (by omega)]

/-- Bytes behind their length. -/
def bytes : Codec (List UInt8) where
  encode := prefixed
  decode bs := (Varint.decode 10 bs).bind fun p =>
    let n := p.1 % 2 ^ 32
    if n ≤ p.2.length then some (p.2.take n, p.2.drop n) else none
  valid _ := true
  size data := Varint.size data.length + data.length
  decode_lt := by
    intro bs a rest h
    obtain ⟨⟨n, behind⟩, hdecode, hread⟩ := Option.bind_eq_some_iff.mp h
    have hlt := Varint.decode_lt hdecode
    simp only at hread
    split at hread
    · cases hread
      rw [List.length_drop]
      omega
    · cases hread
  decode_encode := by
    intro data hlen rest
    have hdata := Nat.lt_of_le_of_lt (length_le_prefixed data) hlen
    have hmod : data.length % 2 ^ 32 = data.length := Nat.mod_eq_of_lt (by omega)
    simp only [decode_prefixed hdata, Option.bind_some, hmod, List.take_left, List.drop_left,
      List.length_append]
    simp
  valid_of_decode := fun _ _ _ _ => rfl
  length_encode := fun data hlen =>
    length_prefixed (Nat.lt_of_le_of_lt (length_le_prefixed data) hlen)

/-- What is inside of a length. A length that reaches behind the end is cut off there. -/
def readDelimited (bs : List UInt8) : Option (List UInt8 × List UInt8) :=
  (readSize bs).map fun p => (p.2.take p.1, p.2.drop p.1)

theorem readDelimited_lt (bs data rest : List UInt8) (h : readDelimited bs = some (data, rest)) :
    rest.length < bs.length := by
  obtain ⟨⟨n, behind⟩, hsize, heq⟩ := Option.map_eq_some_iff.mp h
  cases heq
  rw [List.length_drop]
  exact Nat.lt_of_le_of_lt (Nat.sub_le ..) (readSize_lt hsize)

theorem readDelimited_prefixed (data : List UInt8) (hlen : (prefixed data).length < 2 ^ 26)
    (rest : List UInt8) : readDelimited (prefixed data ++ rest) = some (data, rest) := by
  have hdata := Nat.lt_of_le_of_lt (length_le_prefixed data) hlen
  simp [readDelimited, readSize_prefixed hdata]

/-! ## Lists of numbers -/

/-- All the numbers up to the end. -/
def readAll : Nat → List (BitVec 32) → List UInt8 → Option (List (BitVec 32))
  | _, vs, [] => some vs
  | 0, _, _ :: _ => none
  | n + 1, vs, b :: bs => (int32.decode (b :: bs)).bind fun p => readAll n (vs ++ [p.1]) p.2

def readPacked (vs : List (BitVec 32)) (bs : List UInt8) :
    Option (List (BitVec 32) × List UInt8) :=
  (readDelimited bs).bind fun p => (readAll p.1.length vs p.1).map fun vs => (vs, p.2)

/-- Each number is at least one byte, so there is enough fuel. -/
theorem readAll_flatMap (n : Nat) (vs ws : List (BitVec 32))
    (hshort : (ws.flatMap int32.encode).length < 2 ^ 26)
    (hn : (ws.flatMap int32.encode).length ≤ n) :
    readAll n vs (ws.flatMap int32.encode) = some (vs ++ ws) := by
  induction ws generalizing n vs with
  | nil =>
    rw [List.append_nil]
    cases n <;> rfl
  | cons w ws ih =>
    rw [List.flatMap_cons, List.length_append] at hn hshort
    have hdecode := int32.decode_valid (a := w) (by omega) rfl (ws.flatMap int32.encode)
    have hlt := int32.decode_lt _ _ _ hdecode
    rw [List.length_append] at hlt
    obtain ⟨b, bs, hbytes⟩ := List.exists_cons_of_length_pos
      (l := int32.encode w ++ ws.flatMap int32.encode) (by rw [List.length_append]; omega)
    obtain ⟨n, rfl⟩ : ∃ n', n = n' + 1 := ⟨n - 1, by omega⟩
    rw [List.flatMap_cons, hbytes, readAll, ← hbytes, hdecode, Option.bind_some,
      ih n (vs ++ [w]) (by omega) (by omega), List.append_assoc]
    rfl

theorem readPacked_lt (vs : List (BitVec 32)) (bs : List UInt8) (vs' : List (BitVec 32))
    (rest : List UInt8) (h : readPacked vs bs = some (vs', rest)) : rest.length < bs.length := by
  obtain ⟨⟨data, behind⟩, hdata, hread⟩ := Option.bind_eq_some_iff.mp h
  obtain ⟨ws, -, heq⟩ := Option.map_eq_some_iff.mp hread
  cases heq
  exact readDelimited_lt _ _ _ hdata

theorem readPacked_prefixed (vs ws : List (BitVec 32))
    (hlen : (prefixed (ws.flatMap int32.encode)).length < 2 ^ 26) (rest : List UInt8) :
    readPacked vs (prefixed (ws.flatMap int32.encode) ++ rest) = some (vs ++ ws, rest) := by
  have hdata := Nat.lt_of_le_of_lt (length_le_prefixed _) hlen
  rw [readPacked, readDelimited_prefixed _ hlen, Option.bind_some,
    readAll_flatMap _ vs ws hdata (Nat.le_refl _)]
  rfl

/-- The places that are left in a list which doubles when it is full, four at first. -/
def reserved (n : Nat) : Nat := max 4 n.nextPowerOfTwo - n

/-- While there are places left, the tag that is looked for is taken as the one of the next
number. -/
def readMore (tag : UInt8) :
    Nat → List (BitVec 32) → List UInt8 → Option (List (BitVec 32) × List UInt8)
  | n + 1, vs, b :: bs =>
    if b = tag then (int32.decode bs).bind fun p => readMore tag n (vs ++ [p.1]) p.2
    else some (vs, b :: bs)
  | _, vs, bs => some (vs, bs)

def readRepeated (_size : Nat) (tag : UInt8) (vs : List (BitVec 32)) (bs : List UInt8) :
    Option (List (BitVec 32) × List UInt8) :=
  (int32.decode bs).bind fun p => readMore tag (reserved (vs.length + 1)) (vs ++ [p.1]) p.2

theorem readMore_le (tag : UInt8) (n : Nat) {vs vs' : List (BitVec 32)} {bs rest : List UInt8}
    (h : readMore tag n vs bs = some (vs', rest)) : rest.length ≤ bs.length := by
  induction n generalizing vs bs with
  | zero =>
    cases bs <;>
    · cases h
      exact Nat.le_refl _
  | succ n ih =>
    cases bs with
    | nil =>
      cases h
      exact Nat.le_refl _
    | cons b bs =>
      rw [readMore] at h
      split at h
      · obtain ⟨⟨v, behind⟩, hdecode, hmore⟩ := Option.bind_eq_some_iff.mp h
        have hlt := int32.decode_lt _ _ _ hdecode
        have hle : rest.length ≤ behind.length := ih hmore
        rw [List.length_cons]
        omega
      · cases h
        exact Nat.le_refl _

theorem readRepeated_lt (size : Nat) (tag : UInt8) (vs : List (BitVec 32)) (bs : List UInt8)
    (vs' : List (BitVec 32)) (rest : List UInt8)
    (h : readRepeated size tag vs bs = some (vs', rest)) : rest.length < bs.length := by
  obtain ⟨⟨v, behind⟩, hdecode, hmore⟩ := Option.bind_eq_some_iff.mp h
  exact Nat.lt_of_le_of_lt (readMore_le _ _ hmore) (int32.decode_lt _ _ _ hdecode)

/-! ## Maps -/

/-- The fields of an entry up to the end; a key or a value that comes again replaces the
first. -/
def readFields {β : Type} (c : Codec β) :
    Nat → List UInt8 × β → List UInt8 → Option (List UInt8 × β)
  | _, e, [] => some e
  | 0, _, _ :: _ => none
  | n + 1, e, b :: bs =>
    let (tag, rest) := readTag (b :: bs)
    if tag = 10 then (bytes.decode rest).bind fun p => readFields c n (p.1, e.2) p.2
    else if tag = 16 then (c.decode rest).bind fun p => readFields c n (e.1, p.1) p.2
    else if tag = 0 ∨ tag % 8 = 4 then none
    else (skipField 98 tag rest).bind fun rest => readFields c n e rest

/-- The key and the value of an entry, each behind its tag. -/
def fields {β : Type} (c : Codec β) (e : List UInt8 × β) : List UInt8 :=
  10 :: bytes.encode e.1 ++ 16 :: c.encode e.2

theorem length_fields {β : Type} (c : Codec β) (e : List UInt8 × β) :
    (fields c e).length = (bytes.encode e.1).length + (c.encode e.2).length + 2 := by
  simp [fields]
  omega

theorem readFields_fields {β : Type} (c : Codec β) (hvalid : ∀ v, c.valid v = true) (n : Nat)
    (init e : List UInt8 × β) (hn : (fields c e).length ≤ n)
    (hlen : (fields c e).length < 2 ^ 26) : readFields c n init (fields c e) = some e := by
  have hsum := length_fields c e
  obtain ⟨n, rfl⟩ : ∃ k, n = k + 2 := ⟨n - 2, by omega⟩
  have hkey : readTag (fields c e) = (10, bytes.encode e.1 ++ 16 :: c.encode e.2) :=
    readTag_byte (b := 10) (by decide) _
  have hvalue : readTag (16 :: c.encode e.2) = (16, c.encode e.2) :=
    readTag_byte (b := 16) (by decide) _
  have hbytes := bytes.decode_valid (a := e.1) (by omega) rfl (16 :: c.encode e.2)
  have hdecode := c.decode_valid (a := e.2) (by omega) (hvalid e.2) []
  rw [List.append_nil] at hdecode
  have hcons : fields c e = 10 :: (bytes.encode e.1 ++ 16 :: c.encode e.2) := rfl
  rw [hcons] at hkey ⊢
  simp only [readFields, hkey, if_true, hbytes, Option.bind_some, hvalue, hdecode]
  simp

/-- An entry behind its length. -/
def entry {β : Type} (c : Codec β) (hvalid : ∀ v, c.valid v = true) (init : β) :
    Codec (List UInt8 × β) where
  encode e := prefixed (fields c e)
  decode bs := (readDelimited bs).bind fun p =>
    (readFields c p.1.length ([], init) p.1).map fun e => (e, p.2)
  valid _ := true
  size e :=
    let n := (1 + bytes.size e.1) + (1 + c.size e.2)
    Varint.size n + n
  decode_lt := by
    intro bs e rest h
    obtain ⟨⟨data, behind⟩, hdata, hread⟩ := Option.bind_eq_some_iff.mp h
    obtain ⟨e', -, heq⟩ := Option.map_eq_some_iff.mp hread
    cases heq
    exact readDelimited_lt _ _ _ hdata
  decode_encode := by
    intro e hlen rest
    have hdata := Nat.lt_of_le_of_lt (length_le_prefixed _) hlen
    rw [readDelimited_prefixed _ hlen, Option.bind_some,
      readFields_fields c hvalid _ _ e (Nat.le_refl _) hdata]
    rfl
  valid_of_decode := fun _ _ _ _ => rfl
  length_encode := by
    intro e hlen
    have hdata := Nat.lt_of_le_of_lt (length_le_prefixed _) hlen
    have hsum := length_fields c e
    have hkey := bytes.length_encode e.1 (by omega)
    have hvalue := c.length_encode e.2 (by omega)
    have hsize : (fields c e).length = (1 + bytes.size e.1) + (1 + c.size e.2) := by omega
    rw [length_prefixed hdata, hsize]

/-- The newest entry is the last. -/
def insert {β : Type} (m : Map β) (key : List UInt8) (value : β) : Map β where
  entries := m.entries.filter (fun e => e.1 ≠ key) ++ [(key, value)]
  nodup := by
    rw [List.map_append, List.nodup_append]
    refine ⟨?_, by simp, ?_⟩
    · exact m.nodup.sublist (List.filter_sublist.map _)
    · intro k hk k' hk' heq
      simp only [List.map_cons, List.map_nil, List.mem_singleton] at hk'
      obtain ⟨e, he, rfl⟩ := List.mem_map.mp hk
      have := List.of_mem_filter he
      simp [heq, hk'] at this

theorem mem_insert {β : Type} (m : Map β) (key : List UInt8) (value : β) (e : List UInt8 × β) :
    e ∈ (insert m key value).entries ↔ e = (key, value) ∨ e ∈ m.entries ∧ e.1 ≠ key := by
  simp [insert, or_comm]

/-! ## The runtime -/

def expectTag (tag : UInt8) : List UInt8 → Option (List UInt8)
  | [] => none
  | b :: bs => if b = tag then some bs else none

theorem of_expectTag (tag : UInt8) (bs rest : List UInt8) (h : expectTag tag bs = some rest) :
    bs = tag :: rest := by
  cases bs with
  | nil => cases h
  | cons b bs =>
    rw [expectTag] at h
    split at h
    · rename_i heq
      cases h
      rw [heq]
    · cases h

/-- **The laws can be kept.** The wire format as it is documented is a runtime. -/
def runtime : Runtime where
  int32 := int32
  int32_valid _ := rfl
  enum := int32
  enum_valid _ := rfl
  int64 := int64
  int64_valid _ := rfl
  bool := bool
  bool_valid _ := rfl
  bytes := bytes
  bytes_valid _ := rfl
  isUtf8 := isUtf8
  isUtf8_nil := rfl
  readTag := readTag
  readTag_byte := fun _ bs h _ => readTag_byte h bs
  readTag_lt := fun _ h => readTag_lt h
  expectTag := expectTag
  of_expectTag := of_expectTag
  skipField := skipField
  skipField_le := fun budget tag bs rest h => Nat.le_of_lt (skipField_lt budget tag bs rest h)
  delimit := prefixed
  lengthSize := Varint.size
  length_delimit := fun data hlen =>
    length_prefixed (Nat.lt_of_le_of_lt (length_le_prefixed data) hlen)
  length_le_delimit := length_le_prefixed
  readDelimited := readDelimited
  readDelimited_lt := readDelimited_lt
  readDelimited_delimit := readDelimited_prefixed
  readPacked := readPacked
  readPacked_lt := readPacked_lt
  readPacked_delimit := readPacked_prefixed
  readRepeated := readRepeated
  readRepeated_lt := readRepeated_lt
  int32Entry := entry int32 (fun _ => rfl) 0
  int32Entry_valid _ := rfl
  boolEntry := entry bool (fun _ => rfl) false
  boolEntry_valid _ := rfl
  insert := insert
  mem_insert := mem_insert

end Cppim.Lib.Reference
