import Cppim.Logic.Service
import Mathlib.Data.BitVec

/-! The keys that `LogicServer::generateKey` issues, one call after the other.

`getMilliSecond` returns the readings of a clock one by one, and a call takes as many
of them as it needs. On a clock that never goes back the keys of one server increase.
The keys of two servers are apart by the field that holds `serverid_`, whatever the
clocks show. -/

namespace Cppim.Logic.Keys

open Cppim.Common Cppim.Lib

/-! ## The fields of a key -/

/-- The number whose decimal text is the key. -/
def id (gen : KeyGen) (serverid_ : BitVec 32) : BitVec 64 :=
  (gen.lastTimestamp &&& 0x3FFFFFFFFFF) <<< 22 |||
    ((serverid_ &&& 0x3FF) <<< 12).setWidth 64 ||| gen.seqID.setWidth 64

theorem key_eq (gen : KeyGen) (serverid_ : BitVec 32) :
    gen.key serverid_ = to_string (id gen serverid_) := rfl

/-- 42 bits of time, 10 of the server, 12 of the sequence. -/
theorem id_toNat (gen : KeyGen) (serverid_ : BitVec 32) (h : gen.seqID.toNat < 2 ^ 12) :
    (id gen serverid_).toNat = gen.lastTimestamp.toNat % 2 ^ 42 * 2 ^ 22 +
      serverid_.toNat % 2 ^ 10 * 2 ^ 12 + gen.seqID.toNat := by
  have htime : ((gen.lastTimestamp &&& 0x3FFFFFFFFFF) <<< 22).toNat =
      (gen.lastTimestamp.toNat % 2 ^ 42) <<< 22 := by
    have hand : gen.lastTimestamp.toNat &&& 0x3FFFFFFFFFF = gen.lastTimestamp.toNat % 2 ^ 42 :=
      Nat.and_two_pow_sub_one_eq_mod _ 42
    have hmask : (0x3FFFFFFFFFF : BitVec 64).toNat = 0x3FFFFFFFFFF := rfl
    rw [BitVec.toNat_shiftLeft, BitVec.toNat_and, hmask, hand, Nat.shiftLeft_eq]
    omega
  have hserver : (((serverid_ &&& 0x3FF) <<< 12).setWidth 64).toNat =
      (serverid_.toNat % 2 ^ 10) <<< 12 := by
    have hand : serverid_.toNat &&& 0x3FF = serverid_.toNat % 2 ^ 10 :=
      Nat.and_two_pow_sub_one_eq_mod _ 10
    have hmask : (0x3FF : BitVec 32).toNat = 0x3FF := rfl
    rw [BitVec.toNat_setWidth, BitVec.toNat_shiftLeft, BitVec.toNat_and, hmask, hand,
      Nat.shiftLeft_eq]
    omega
  have hseq : (gen.seqID.setWidth 64).toNat = gen.seqID.toNat := by
    rw [BitVec.toNat_setWidth]
    omega
  have hlow : (serverid_.toNat % 2 ^ 10) <<< 12 ||| gen.seqID.toNat < 2 ^ 22 := by
    rw [← Nat.shiftLeft_add_eq_or_of_lt h, Nat.shiftLeft_eq]
    omega
  rw [id, BitVec.toNat_or, BitVec.toNat_or, htime, hserver, hseq, Nat.or_assoc,
    ← Nat.shiftLeft_add_eq_or_of_lt hlow, ← Nat.shiftLeft_add_eq_or_of_lt h, Nat.shiftLeft_eq,
    Nat.shiftLeft_eq, Nat.add_assoc]

/-- Keys with equal texts come from servers with equal low bits. -/
theorem server_of_key_eq {gen gen' : KeyGen} {server server' : BitVec 32}
    (h : gen.seqID.toNat < 2 ^ 12) (h' : gen'.seqID.toNat < 2 ^ 12)
    (heq : gen.key server = gen'.key server') :
    server.toInt % 1024 = server'.toInt % 1024 := by
  have hid : (id gen server).toNat = (id gen' server').toNat := Decimal.decimal_injective heq
  rw [id_toNat gen server h, id_toNat gen' server' h'] at hid
  rw [BitVec.toInt_eq_toNat_cond, BitVec.toInt_eq_toNat_cond]
  split <;> split <;> omega

/-! ## One call -/

/-- What a call does to the static variables: it stays in the millisecond and counts
on, or goes on to another millisecond that it has read. -/
theorem next_cases {gen gen' : KeyGen} {read : List (BitVec 64)} (h : gen.next read = some gen')
    (hseq : gen.seqID.toNat < 2 ^ 12) :
    gen'.lastTimestamp = gen.lastTimestamp ∧ gen'.seqID.toNat = gen.seqID.toNat + 1 ∧
      gen'.seqID.toNat < 2 ^ 12 ∨
    gen'.lastTimestamp ≠ gen.lastTimestamp ∧ gen'.lastTimestamp ∈ read ∧ gen'.seqID = 0 := by
  cases read with
  | nil => cases h
  | cons timestamp rest =>
    have hcount : ((gen.seqID + 1) &&& 0xFFF).toNat = (gen.seqID.toNat + 1) % 2 ^ 12 := by
      have hand : (gen.seqID.toNat + 1) &&& 0xFFF = (gen.seqID.toNat + 1) % 2 ^ 12 :=
        Nat.and_two_pow_sub_one_eq_mod _ 12
      rw [BitVec.toNat_and, BitVec.toNat_add, ← hand]
      congr 1
      exact Nat.mod_eq_of_lt (by simp; omega)
    simp only [KeyGen.next] at h
    split at h
    · rename_i hsame
      split at h
      · -- the sequence is used up: the loop waits for another millisecond
        rename_i hzero
        obtain ⟨t, hfind, rfl⟩ := Option.map_eq_some_iff.mp h
        have hne : gen.lastTimestamp ≠ t := by simpa using List.find?_some hfind
        exact Or.inr ⟨hne.symm, List.mem_cons_of_mem _ (List.mem_of_find?_eq_some hfind), hzero⟩
      · rename_i hzero
        cases h
        have hpos : ((gen.seqID + 1) &&& 0xFFF).toNat ≠ 0 := fun h0 =>
          hzero (BitVec.eq_of_toNat_eq h0)
        refine Or.inl ⟨hsame.symm, ?_, ?_⟩
        · show ((gen.seqID + 1) &&& 0xFFF).toNat = _
          omega
        · show ((gen.seqID + 1) &&& 0xFFF).toNat < _
          omega
    · rename_i hother
      cases h
      exact Or.inr ⟨fun he => hother he.symm, List.mem_cons_self, rfl⟩

/-- A call returns as soon as it has read another millisecond. -/
theorem next_isSome_of_mem {gen : KeyGen} {read : List (BitVec 64)} {t : BitVec 64}
    (ht : t ∈ read) (hne : t ≠ gen.lastTimestamp) : (gen.next read).isSome := by
  cases read with
  | nil => cases ht
  | cons timestamp rest =>
    simp only [KeyGen.next]
    split
    · rename_i hsame
      split
      · have hrest : t ∈ rest := by
          rcases List.mem_cons.mp ht with rfl | h
          · exact absurd hsame.symm hne
          · exact h
        rw [Option.isSome_map, List.find?_isSome]
        exact ⟨t, hrest, by simpa using hne.symm⟩
      · rfl
    · rfl

/-! ## A server's calls -/

section Server

variable (serverid_ : BitVec 32) (clock : Nat → BitVec 64)

/-- `m` readings of the clock from the `p`-th on. -/
def readings : Nat → Nat → List (BitVec 64)
  | _, 0 => []
  | p, m + 1 => clock p :: readings (p + 1) m

/-- A call that begins with the `p`-th reading returns when it has made `m` readings. -/
def Returns (statics : Option KeyGen) (p m : Nat) (gen : KeyGen) (key : Bytes) : Prop :=
  generateKey serverid_ statics (readings clock p m) = some (gen, key) ∧
    ∀ k < m, generateKey serverid_ statics (readings clock p k) = none

/-- The keys that the calls so far have returned; `p` readings have been made. -/
inductive Issued : Nat → Option KeyGen → List Bytes → Prop
  | start : Issued 0 none []
  | call {p m : Nat} {statics : Option KeyGen} {keys : List Bytes} {gen : KeyGen} {key : Bytes}
      (h : Issued p statics keys) (hcall : Returns serverid_ clock statics p m gen key) :
      Issued (p + m) (some gen) (keys ++ [key])

/-- The values of the static variables when the body of the function is reached, and
the readings made by then: the first call makes one to initialise `lastTimestamp`. -/
def Primed (statics : Option KeyGen) (p : Nat) (gen : KeyGen) (q : Nat) : Prop :=
  statics = some gen ∧ q = p ∨ statics = none ∧ q = p + 1 ∧ gen = ⟨clock p, 0⟩

variable {serverid_ clock}

theorem mem_readings {p m : Nat} {t : BitVec 64} :
    t ∈ readings clock p m ↔ ∃ i, p ≤ i ∧ i < p + m ∧ t = clock i := by
  induction m generalizing p with
  | zero => simp [readings]; omega
  | succ m ih =>
    rw [readings, List.mem_cons, ih]
    constructor
    · rintro (rfl | ⟨i, hp, hi, rfl⟩)
      · exact ⟨p, Nat.le_refl p, by omega, rfl⟩
      · exact ⟨i, by omega, by omega, rfl⟩
    · rintro ⟨i, hp, hi, rfl⟩
      rcases Nat.eq_or_lt_of_le hp with rfl | hlt
      · exact Or.inl rfl
      · exact Or.inr ⟨i, hlt, by omega, rfl⟩

theorem generateKey_inv {statics : Option KeyGen} {p m : Nat} {gen : KeyGen} {key : Bytes}
    (h : generateKey serverid_ statics (readings clock p m) = some (gen, key)) :
    ∃ gen₀ q n, Primed clock statics p gen₀ q ∧ q + n = p + m ∧
      gen₀.next (readings clock q n) = some gen ∧ key = gen.key serverid_ := by
  obtain ⟨gen', hnext, heq⟩ := Option.map_eq_some_iff.mp h
  cases heq
  cases statics with
  | some gen₀ => exact ⟨gen₀, p, m, Or.inl ⟨rfl, rfl⟩, rfl, hnext, rfl⟩
  | none =>
    cases m with
    | zero => cases hnext
    | succ m =>
      exact ⟨⟨clock p, 0⟩, p + 1, m, Or.inr ⟨rfl, rfl, rfl⟩, by omega, hnext, rfl⟩

/-- What holds between the body of one call and the next: the last millisecond has
been read, and no key is above the one that the variables stand for. -/
structure Fresh (serverid_ : BitVec 32) (clock : Nat → BitVec 64) (p : Nat) (gen : KeyGen)
    (keys : List Bytes) : Prop where
  seq_lt : gen.seqID.toNat < 2 ^ 12
  passed : ∃ i < p, gen.lastTimestamp = clock i
  ids : ∃ ids : List (BitVec 64), keys = ids.map to_string ∧ ids.Pairwise (· < ·) ∧
    ∀ i ∈ ids, i ≤ id gen serverid_

/-- The clock does not go back. -/
def Forward (clock : Nat → BitVec 64) : Prop := ∀ i j, i ≤ j → clock i ≤ clock j

theorem id_lt_of_next {p m : Nat} {gen gen' : KeyGen} {keys : List Bytes} (hclock : Forward clock)
    (hbelow : ∀ i < p + m, clock i < 2 ^ 42) (hfresh : Fresh serverid_ clock p gen keys)
    (hnext : gen.next (readings clock p m) = some gen') :
    gen'.seqID.toNat < 2 ^ 12 ∧ id gen serverid_ < id gen' serverid_ ∧
      ∃ i < p + m, gen'.lastTimestamp = clock i := by
  obtain ⟨i, hi, hlast⟩ := hfresh.passed
  have hseq := hfresh.seq_lt
  rcases next_cases hnext hseq with ⟨htime, hcount, hlt⟩ | ⟨hne, hread, hzero⟩
  · refine ⟨hlt, ?_, i, by omega, htime.trans hlast⟩
    rw [BitVec.lt_def, id_toNat _ _ hseq, id_toNat _ _ hlt, htime]
    omega
  · obtain ⟨j, hj, hjm, hread⟩ := mem_readings.mp hread
    have hseq' : gen'.seqID.toNat < 2 ^ 12 := by simp [hzero]
    refine ⟨hseq', ?_, j, hjm, hread⟩
    have hle : gen.lastTimestamp.toNat ≤ gen'.lastTimestamp.toNat := by
      rw [hlast, hread]
      exact hclock i j (by omega)
    have hne' : gen.lastTimestamp.toNat ≠ gen'.lastTimestamp.toNat := fun h =>
      hne (BitVec.eq_of_toNat_eq h.symm)
    have hb : gen.lastTimestamp.toNat < 2 ^ 42 := by
      rw [hlast]
      exact BitVec.lt_def.mp (hbelow i (by omega))
    have hb' : gen'.lastTimestamp.toNat < 2 ^ 42 := by
      rw [hread]
      exact BitVec.lt_def.mp (hbelow j hjm)
    rw [BitVec.lt_def, id_toNat _ _ hseq, id_toNat _ _ hseq']
    omega

/-- **One call.** The new key is above all earlier ones. -/
theorem Fresh.next {p m : Nat} {gen gen' : KeyGen} {keys : List Bytes} (hclock : Forward clock)
    (hbelow : ∀ i < p + m, clock i < 2 ^ 42) (hfresh : Fresh serverid_ clock p gen keys)
    (hnext : gen.next (readings clock p m) = some gen') :
    Fresh serverid_ clock (p + m) gen' (keys ++ [gen'.key serverid_]) := by
  obtain ⟨hseq, hlt, hpassed⟩ := id_lt_of_next hclock hbelow hfresh hnext
  obtain ⟨ids, rfl, hids, hle⟩ := hfresh.ids
  have habove : ∀ i ∈ ids, i < id gen' serverid_ := fun i hi =>
    BitVec.lt_def.mpr (Nat.lt_of_le_of_lt (BitVec.le_def.mp (hle i hi)) (BitVec.lt_def.mp hlt))
  refine ⟨hseq, hpassed, ids ++ [id gen' serverid_], ?_, ?_, ?_⟩
  · rw [key_eq, List.map_append, List.map_singleton]
  · refine List.pairwise_append.mpr ⟨hids, List.pairwise_singleton _ _, ?_⟩
    intro i hi j hj
    obtain rfl := List.mem_singleton.mp hj
    exact habove i hi
  · intro i hi
    rcases List.mem_append.mp hi with hi | hi
    · exact BitVec.le_of_lt (habove i hi)
    · rw [List.mem_singleton.mp hi]
      exact BitVec.le_refl _

/-- The invariant of the calls. -/
theorem Issued.fresh {p : Nat} {statics : Option KeyGen} {keys : List Bytes}
    (hclock : Forward clock) (h : Issued serverid_ clock p statics keys)
    (hbelow : ∀ i < p, clock i < 2 ^ 42) {gen : KeyGen} {q : Nat}
    (hprimed : Primed clock statics p gen q) : Fresh serverid_ clock q gen keys := by
  induction h generalizing gen q with
  | start =>
    rcases hprimed with ⟨h, -⟩ | ⟨-, rfl, rfl⟩
    · cases h
    · exact ⟨by simp, ⟨0, by omega, rfl⟩, [], rfl, List.Pairwise.nil, by simp⟩
  | @call p m statics keys gen' key h hcall ih =>
    rcases hprimed with ⟨h, rfl⟩ | ⟨h, -⟩
    · cases h
      obtain ⟨gen₀, q, n, hprimed, hsum, hnext, rfl⟩ := generateKey_inv hcall.1
      rw [← hsum] at hbelow ⊢
      exact (ih (fun i hi => hbelow i (by omega)) hprimed).next hclock hbelow hnext
    · cases h

/-- Whatever the clock shows, a sequence number has twelve bits. -/
theorem Issued.seq_lt {p : Nat} {statics : Option KeyGen} {keys : List Bytes}
    (h : Issued serverid_ clock p statics keys) :
    (∀ gen q, Primed clock statics p gen q → gen.seqID.toNat < 2 ^ 12) ∧
    ∀ key ∈ keys, ∃ gen : KeyGen, gen.seqID.toNat < 2 ^ 12 ∧ key = gen.key serverid_ := by
  induction h with
  | start =>
    refine ⟨?_, by simp⟩
    rintro gen q (⟨h, -⟩ | ⟨-, -, rfl⟩)
    · cases h
    · simp
  | @call p m statics keys gen key h hcall ih =>
    obtain ⟨gen₀, q, n, hprimed, -, hnext, rfl⟩ := generateKey_inv hcall.1
    have hseq : gen.seqID.toNat < 2 ^ 12 := by
      rcases next_cases hnext (ih.1 gen₀ q hprimed) with ⟨-, -, hlt⟩ | ⟨-, -, hzero⟩
      · exact hlt
      · simp [hzero]
    constructor
    · rintro gen' q' (⟨h, -⟩ | ⟨h, -⟩)
      · cases h
        exact hseq
      · cases h
    · intro key hkey
      rcases List.mem_append.mp hkey with hkey | hkey
      · exact ih.2 key hkey
      · exact ⟨gen, hseq, List.mem_singleton.mp hkey⟩

/-- From every reading below `2^42` the clock moves on. -/
def Advancing (clock : Nat → BitVec 64) : Prop :=
  ∀ i, clock i < 2 ^ 42 → ∃ j, i < j ∧ clock j ≠ clock i

/-- A call returns when it has made enough readings. -/
theorem exists_isSome (hadvance : Advancing clock) {p : Nat} {statics : Option KeyGen}
    (hlast : ∀ gen, statics = some gen → gen.lastTimestamp < 2 ^ 42) :
    ∃ m, (generateKey serverid_ statics (readings clock p m)).isSome := by
  cases statics with
  | none =>
    -- the sequence of the first call is not used up, so two readings are enough
    refine ⟨2, ?_⟩
    simp only [readings, generateKey, KeyGen.next]
    split <;> rfl
  | some gen =>
    have hother : ∃ j, p ≤ j ∧ clock j ≠ gen.lastTimestamp := by
      by_cases hp : clock p = gen.lastTimestamp
      · obtain ⟨j, hj, hne⟩ := hadvance p (hp ▸ hlast gen rfl)
        exact ⟨j, Nat.le_of_lt hj, hp ▸ hne⟩
      · exact ⟨p, Nat.le_refl p, hp⟩
    obtain ⟨j, hj, hne⟩ := hother
    refine ⟨j - p + 1, ?_⟩
    rw [generateKey, Option.isSome_map]
    exact next_isSome_of_mem (mem_readings.mpr ⟨j, hj, by omega, rfl⟩) hne

theorem exists_returns {statics : Option KeyGen} {p : Nat}
    (h : ∃ m, (generateKey serverid_ statics (readings clock p m)).isSome) :
    ∃ m gen key, Returns serverid_ clock statics p m gen key := by
  obtain ⟨⟨gen, key⟩, hkey⟩ := Option.isSome_iff_exists.mp (Nat.find_spec h)
  refine ⟨Nat.find h, gen, key, hkey, fun k hk => ?_⟩
  simpa using Nat.find_min h hk

end Server

/-- **Keys increase and are unique.** As long as the readings of a clock that does not
go back are below `2^42`, every call returns and the keys of a server are the texts of
increasing numbers. Servers whose `serverid_` differ modulo 1024 never issue the same
key, whatever their clocks show. -/
theorem generateKey_increases_unique :
    (∀ (serverid_ : BitVec 32) (clock : Nat → BitVec 64), Forward clock → Advancing clock →
      ∀ p statics keys, Issued serverid_ clock p statics keys → (∀ i < p, clock i < 2 ^ 42) →
        (∃ m gen key, Returns serverid_ clock statics p m gen key) ∧
        (∃ ids : List (BitVec 64), keys = ids.map to_string ∧ ids.Pairwise (· < ·)) ∧
        keys.Nodup) ∧
    ∀ (server server' : BitVec 32) (clock clock' : Nat → BitVec 64)
        p p' statics statics' keys keys',
      server.toInt % 1024 ≠ server'.toInt % 1024 →
      Issued server clock p statics keys → Issued server' clock' p' statics' keys' →
        keys.Disjoint keys' := by
  constructor
  · intro serverid_ clock hclock hadvance p statics keys h hbelow
    have hids : ∃ ids : List (BitVec 64), keys = ids.map to_string ∧ ids.Pairwise (· < ·) := by
      have hsome : ∃ gen q, Primed clock statics p gen q := by
        cases statics with
        | none => exact ⟨_, _, Or.inr ⟨rfl, rfl, rfl⟩⟩
        | some gen => exact ⟨gen, p, Or.inl ⟨rfl, rfl⟩⟩
      obtain ⟨gen, q, hprimed⟩ := hsome
      obtain ⟨ids, heq, hlt, -⟩ := (h.fresh hclock hbelow hprimed).ids
      exact ⟨ids, heq, hlt⟩
    refine ⟨exists_returns (exists_isSome hadvance ?_), hids, ?_⟩
    · rintro gen rfl
      obtain ⟨i, hi, hlast⟩ := (h.fresh hclock hbelow (Or.inl ⟨rfl, rfl⟩)).passed
      rw [hlast]
      exact hbelow i hi
    · obtain ⟨ids, rfl, hlt⟩ := hids
      refine List.Pairwise.map to_string ?_ hlt
      intro a b hab heq
      have : a.toNat = b.toNat := Decimal.decimal_injective heq
      exact absurd (BitVec.lt_def.mp hab) (by omega)
  · intro server server' clock clock' p p' statics statics' keys keys' hne h h' key hkey hkey'
    obtain ⟨gen, hseq, rfl⟩ := h.seq_lt.2 key hkey
    obtain ⟨gen', hseq', heq⟩ := h'.seq_lt.2 _ hkey'
    exact hne (server_of_key_eq hseq hseq' heq)

/-- A clock that shows each millisecond three times. -/
def slow (i : Nat) : BitVec 64 := BitVec.ofNat 64 (min (1000 + i / 3) (2 ^ 43))

theorem slow_toNat (i : Nat) : (slow i).toNat = min (1000 + i / 3) (2 ^ 43) := by
  rw [slow, BitVec.toNat_ofNat]
  omega

theorem slow_forward : Forward slow := by
  intro i j hij
  rw [BitVec.le_def, slow_toNat, slow_toNat]
  omega

theorem slow_advancing : Advancing slow := by
  intro i hi
  refine ⟨i + 3, by omega, fun h => ?_⟩
  have hlt : (slow i).toNat < 2 ^ 42 := BitVec.lt_def.mp hi
  have heq := congrArg BitVec.toNat h
  rw [slow_toNat] at hlt
  rw [slow_toNat, slow_toNat] at heq
  omega

/-- The first calls of a server: two readings, and one for each of the others. -/
theorem slow_issued (serverid_ : BitVec 32) : Issued serverid_ slow 4 (some ⟨1001, 0⟩)
    [KeyGen.key ⟨1000, 1⟩ serverid_, KeyGen.key ⟨1000, 2⟩ serverid_,
      KeyGen.key ⟨1001, 0⟩ serverid_] := by
  have hfirst : Returns serverid_ slow none 0 2 ⟨1000, 1⟩ (KeyGen.key ⟨1000, 1⟩ serverid_) :=
    ⟨rfl, by intro k hk; interval_cases k <;> rfl⟩
  have hsecond : Returns serverid_ slow (some ⟨1000, 1⟩) 2 1 ⟨1000, 2⟩
      (KeyGen.key ⟨1000, 2⟩ serverid_) := ⟨rfl, by intro k hk; interval_cases k; rfl⟩
  have hthird : Returns serverid_ slow (some ⟨1000, 2⟩) 3 1 ⟨1001, 0⟩
      (KeyGen.key ⟨1001, 0⟩ serverid_) := ⟨rfl, by intro k hk; interval_cases k; rfl⟩
  exact ((Issued.start.call hfirst).call hsecond).call hthird

/-- Three keys of server 7 differ, and none of them is a key of server 8. -/
theorem slow_keys_unique :
    [KeyGen.key ⟨1000, 1⟩ 7, KeyGen.key ⟨1000, 2⟩ 7, KeyGen.key ⟨1001, 0⟩ 7].Nodup ∧
    [KeyGen.key ⟨1000, 1⟩ 7, KeyGen.key ⟨1000, 2⟩ 7, KeyGen.key ⟨1001, 0⟩ 7].Disjoint
      [KeyGen.key ⟨1000, 1⟩ 8, KeyGen.key ⟨1000, 2⟩ 8, KeyGen.key ⟨1001, 0⟩ 8] := by
  have hbelow : ∀ i < 4, slow i < 2 ^ 42 := by decide +kernel
  obtain ⟨hone, htwo⟩ := generateKey_increases_unique
  obtain ⟨-, -, hnodup⟩ := hone 7 slow slow_forward slow_advancing _ _ _ (slow_issued 7) hbelow
  exact ⟨hnodup, htwo 7 8 slow slow _ _ _ _ _ _ (by decide) (slow_issued 7) (slow_issued 8)⟩

end Cppim.Logic.Keys
