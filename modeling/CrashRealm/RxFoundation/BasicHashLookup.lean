/-
# `RxFoundation.BasicHashLookup` — the probe loop is a search

The bucket array read as an open-addressing table: `slotOf` classifies a bucket
by its key, `classOf` is the class of a key under `isEqual`, and `probeOf` is
the sequence of bucket indices `lookupBucketFor` walks for a key.  On a
power-of-two array the `while (1)` loop computes `OpenAddressing.search`
(`probeLoop_eq_search`), so with one empty bucket in reach it ends within as
many rounds as there are buckets, for every key, sentinels included
(`probeLoop_returns`).

`WellFormed` is the invariant the whole class lives by.
-/
import CrashRealm.Lib.OpenAddressing
import CrashRealm.Lib.TriangularProbe
import CrashRealm.RxFoundation.BasicHash

namespace Rx

open OpenAddressing

variable {K V : Type}

namespace LawfulKeyInfo

variable (I : LawfulKeyInfo K)

theorem isEqual_comm (a b : K) : I.isEqual a b = I.isEqual b a := by
  rw [Bool.eq_iff_iff]
  exact ⟨I.symm a b, I.symm b a⟩

theorem isEqual_congr_left {a b : K} (h : I.isEqual a b = true) (c : K) :
    I.isEqual a c = I.isEqual b c := by
  rw [Bool.eq_iff_iff]
  exact ⟨I.trans b a c (I.symm a b h), I.trans a b c h⟩

/-- Keys up to `isEqual`. -/
def setoid : Setoid K where
  r a b := I.isEqual a b = true
  iseqv := ⟨I.refl, fun {a b} => I.symm a b, fun {a b c} => I.trans a b c⟩

end LawfulKeyInfo

/-- A key up to `isEqual`. -/
abbrev KeyClass (T : TableType K V) : Type := Quotient T.setoid

/-- The class of a key. -/
def classOf (T : TableType K V) (k : K) : KeyClass T := Quotient.mk T.setoid k

theorem classOf_eq_iff {T : TableType K V} {a b : K} :
    classOf T a = classOf T b ↔ T.isEqual a b = true :=
  ⟨fun h => Quotient.exact (s := T.setoid) h, fun h => Quotient.sound (s := T.setoid) h⟩

instance (T : TableType K V) : DecidableEq (KeyClass T) :=
  @Quotient.decidableEq K T.setoid fun a b =>
    inferInstanceAs (Decidable (T.isEqual a b = true))

/-- The hash of a class. -/
def hashOf (T : TableType K V) (c : KeyClass T) : Nat :=
  Quotient.lift (fun k => (T.getHashValue k).toNat)
    (fun a b h => congrArg UInt64.toNat (T.hash_congr a b h)) c

/-- The bucket indices walked for a key, in a table of `numBuckets` buckets. -/
def probeOf (T : TableType K V) (numBuckets : Nat) (c : KeyClass T) : Nat → Nat :=
  TriangularProbe.probe numBuckets (hashOf T c)

/-- A key that is neither sentinel. -/
def Ordinary (T : TableType K V) (k : K) : Prop := BasicHashTable.isLiveKey T k = true

instance (T : TableType K V) (k : K) : Decidable (Ordinary T k) :=
  inferInstanceAs (Decidable (_ = true))

theorem ordinary_iff {T : TableType K V} {k : K} :
    Ordinary T k ↔ T.isEqual k T.getEmptyKey = false ∧ T.isEqual k T.getTombstoneKey = false := by
  simp [Ordinary, BasicHashTable.isLiveKey]

/-- What a bucket is, by its key. -/
def slotOf (T : TableType K V) (b : Bucket K V) : Slot (Bucket K V) :=
  if T.isEqual b.key T.getEmptyKey then .empty
  else if T.isEqual b.key T.getTombstoneKey then .tombstone
  else .live b

/-- The bucket array as an open-addressing table. -/
def slotsOf (T : TableType K V) (bs : List (Bucket K V)) : List (Slot (Bucket K V)) :=
  bs.map (slotOf T)

/-- The class a bucket is stored under. -/
def bucketClass (T : TableType K V) (b : Bucket K V) : KeyClass T := classOf T b.key

section Slots
variable {T : TableType K V} {bs : List (Bucket K V)}

@[simp] theorem length_slotsOf : (slotsOf T bs).length = bs.length := List.length_map _

theorem slotOf_live {b : Bucket K V} (h : Ordinary T b.key) : slotOf T b = .live b := by
  obtain ⟨h1, h2⟩ := ordinary_iff.mp h
  simp [slotOf, h1, h2]

theorem slotOf_eq_live_iff {a b : Bucket K V} :
    slotOf T b = .live a ↔ b = a ∧ Ordinary T b.key := by
  constructor
  · intro h
    unfold slotOf at h
    split at h
    · cases h
    next h1 =>
      split at h
      · cases h
      next h2 =>
        cases h
        exact ⟨rfl, ordinary_iff.mpr ⟨Bool.eq_false_of_not_eq_true h1,
          Bool.eq_false_of_not_eq_true h2⟩⟩
  · rintro ⟨rfl, h⟩
    exact slotOf_live h

theorem slotOf_eq_empty_iff {b : Bucket K V} :
    slotOf T b = .empty ↔ T.isEqual b.key T.getEmptyKey = true := by
  constructor
  · intro h
    by_contra hne
    simp only [slotOf, hne, if_false] at h
    split at h <;> cases h
  · intro h
    simp [slotOf, h]

theorem slotOf_eq_tombstone_iff {b : Bucket K V} :
    slotOf T b = .tombstone ↔ T.isEqual b.key T.getTombstoneKey = true := by
  constructor
  · intro h
    by_contra hne
    simp only [slotOf, hne, if_false] at h
    split at h <;> cases h
  · intro h
    -- equal to the tombstone key, so not to the empty key
    have hne : T.isEqual b.key T.getEmptyKey = false := by
      rw [T.isEqual_congr_left h, T.isEqual_comm]
      exact T.sentinels
    simp [slotOf, h, hne]

/-- A live slot is a live bucket. -/
theorem isLive_slotOf (b : Bucket K V) : (slotOf T b).isLive = BasicHashTable.isLiveKey T b.key := by
  rw [Bool.eq_iff_iff]
  constructor
  · intro h
    cases hs : slotOf T b with
    | live a => exact (slotOf_eq_live_iff.mp hs).2
    | empty => rw [hs] at h; cases h
    | tombstone => rw [hs] at h; cases h
  · intro h
    rw [slotOf_live h, Slot.isLive_live]

theorem isTombstone_slotOf (b : Bucket K V) :
    (slotOf T b).isTombstone = T.isEqual b.key T.getTombstoneKey := by
  rw [Bool.eq_iff_iff, ← slotOf_eq_tombstone_iff]
  cases slotOf T b <;> simp

theorem slotOf_emptyKey (v : V) : slotOf T ⟨T.getEmptyKey, v⟩ = .empty :=
  slotOf_eq_empty_iff.mpr (T.refl _)

theorem slotOf_tombstoneKey (v : V) : slotOf T ⟨T.getTombstoneKey, v⟩ = .tombstone :=
  slotOf_eq_tombstone_iff.mpr (T.refl _)

theorem getElem?_slotsOf (i : Nat) : (slotsOf T bs)[i]? = (bs[i]?).map (slotOf T) :=
  List.getElem?_map

theorem slotsOf_getElem?_live {i : Nat} {b : Bucket K V} :
    (slotsOf T bs)[i]? = some (.live b) ↔ bs[i]? = some b ∧ Ordinary T b.key := by
  rw [getElem?_slotsOf, Option.map_eq_some_iff]
  constructor
  · rintro ⟨a, ha, hs⟩
    obtain ⟨rfl, ho⟩ := slotOf_eq_live_iff.mp hs
    exact ⟨ha, ho⟩
  · exact fun ⟨hb, ho⟩ => ⟨b, hb, slotOf_live ho⟩

theorem mem_slotsOf_live {b : Bucket K V} :
    Slot.live b ∈ slotsOf T bs ↔ b ∈ bs ∧ Ordinary T b.key := by
  rw [slotsOf, List.mem_map]
  constructor
  · rintro ⟨a, ha, hs⟩
    obtain ⟨rfl, ho⟩ := slotOf_eq_live_iff.mp hs
    exact ⟨ha, ho⟩
  · exact fun ⟨hb, ho⟩ => ⟨b, hb, slotOf_live ho⟩

theorem liveCount_slotsOf_cons (b : Bucket K V) (bs : List (Bucket K V)) :
    liveCount (slotsOf T (b :: bs))
      = liveCount (slotsOf T bs) + if (slotOf T b).isLive then 1 else 0 := by
  simp [liveCount, slotsOf, List.countP_cons]

theorem slotsOf_set (i : Nat) (b : Bucket K V) :
    slotsOf T (bs.set i b) = (slotsOf T bs).set i (slotOf T b) :=
  List.map_set

theorem slotsOf_emptied :
    slotsOf T (bs.map fun b => { b with key := T.getEmptyKey })
      = List.replicate bs.length .empty := by
  simp only [slotsOf, List.map_map]
  rw [List.eq_replicate_iff]
  refine ⟨List.length_map _, ?_⟩
  intro x hx
  obtain ⟨b, -, rfl⟩ := List.mem_map.mp hx
  exact slotOf_emptyKey b.value

end Slots

/-! ## The loop -/

section Loop
variable {T : TableType K V} {bs : List (Bucket K V)} {e : Nat}

/-- Masking an index advanced by the probe amount is one step of the probe
sequence; the 64-bit wrap is absorbed by the mask. -/
theorem next_index (he : e ≤ 63) (h n : Nat) :
    u64 (TriangularProbe.probe (2 ^ e) h n + (n + 1)) &&& (2 ^ e - 1)
      = TriangularProbe.probe (2 ^ e) h (n + 1) := by
  rw [Nat.and_two_pow_sub_one_eq_mod, TriangularProbe.probe_succ, u64]
  exact Nat.mod_mod_of_dvd _ (Nat.pow_dvd_pow 2 (by omega))

/-- The loop is the search over the classified buckets.  `hit` is equality with
the value looked up, which for an ordinary value only live buckets satisfy. -/
theorem probeLoop_eq_search {value : K} (hval : Ordinary T value)
    (hlen : bs.length = 2 ^ e) (he : e ≤ 63) (h : Nat) :
    ∀ (rounds n : Nat) (tomb : Option Nat), n + rounds ≤ 2 ^ 63 →
      BasicHashTable.probeLoop T bs value rounds (TriangularProbe.probe (2 ^ e) h n) (n + 1) tomb
        = match search (slotsOf T bs) (TriangularProbe.probe (2 ^ e) h)
            (fun b => T.isEqual value b.key) rounds n tomb with
          | some r => .ok r
          | none => .error .spinning := by
  intro rounds
  induction rounds with
  | zero => intro n tomb _; rfl
  | succ rounds ih =>
      intro n tomb hn
      have hlt : TriangularProbe.probe (2 ^ e) h n < bs.length := by
        rw [hlen]
        exact TriangularProbe.probe_lt (Nat.two_pow_pos e) h n
      have hget := List.getElem?_eq_getElem hlt
      generalize bs[TriangularProbe.probe (2 ^ e) h n] = b at hget
      have hslot : (slotsOf T bs)[TriangularProbe.probe (2 ^ e) h n]? = some (slotOf T b) := by
        rw [getElem?_slotsOf, hget, Option.map_some]
      have hamt : u64 (n + 1 + 1) = n + 1 + 1 := u64_of_lt (by omega)
      obtain ⟨hv1, hv2⟩ := ordinary_iff.mp hval
      rw [BasicHashTable.probeLoop, hget, search, hslot, hlen, next_index he, hamt]
      by_cases h1 : T.isEqual b.key T.getEmptyKey = true
      · -- an empty bucket ends the loop
        have hne : T.isEqual value b.key = false := by
          rw [T.isEqual_comm, T.isEqual_congr_left h1, T.isEqual_comm, hv1]
        rw [slotOf_eq_empty_iff.mpr h1]
        simp [hne, T.isEqual_comm T.getEmptyKey, h1]
      · have h1' : T.isEqual T.getEmptyKey b.key = false := by
          rw [T.isEqual_comm]
          exact Bool.eq_false_of_not_eq_true h1
        by_cases h2 : T.isEqual b.key T.getTombstoneKey = true
        · -- a tombstone is remembered when it is the first
          have hne : T.isEqual value b.key = false := by
            rw [T.isEqual_comm, T.isEqual_congr_left h2, T.isEqual_comm, hv2]
          rw [slotOf_eq_tombstone_iff.mpr h2]
          have h2' : T.isEqual T.getTombstoneKey b.key = true := by
            rw [T.isEqual_comm, h2]
          have hor : (if T.isEqual T.getTombstoneKey b.key && tomb.isNone then
              some (TriangularProbe.probe (2 ^ e) h n) else tomb)
              = tomb.or (some (TriangularProbe.probe (2 ^ e) h n)) := by
            cases tomb <;> simp [h2']
          simp only [hne, h1', Bool.false_eq_true, if_false, hor]
          exact ih (n + 1) _ (by omega)
        · have hord : Ordinary T b.key := ordinary_iff.mpr
            ⟨Bool.eq_false_of_not_eq_true h1, Bool.eq_false_of_not_eq_true h2⟩
          have h2' : T.isEqual T.getTombstoneKey b.key = false := by
            rw [T.isEqual_comm]
            exact Bool.eq_false_of_not_eq_true h2
          rw [slotOf_live hord]
          cases hhit : T.isEqual value b.key with
          | true => simp [hhit]
          | false =>
              simp only [hhit, h1', h2', Bool.false_eq_true, if_false, Bool.false_and]
              exact ih (n + 1) tomb (by omega)

/-- The loop ends for *every* value once an empty bucket lies within its
budget: it stops there at the latest. -/
theorem probeLoop_returns (value : K) (hlen : bs.length = 2 ^ e) (he : e ≤ 63) (h : Nat) :
    ∀ (rounds n : Nat) (tomb : Option Nat), n + rounds ≤ 2 ^ 63 →
      (∃ j, n ≤ j ∧ j < n + rounds ∧
        (slotsOf T bs)[TriangularProbe.probe (2 ^ e) h j]? = some .empty) →
      ∃ r, BasicHashTable.probeLoop T bs value rounds
        (TriangularProbe.probe (2 ^ e) h n) (n + 1) tomb = .ok r := by
  intro rounds
  induction rounds with
  | zero =>
      rintro n tomb _ ⟨j, hle, hlt, -⟩
      omega
  | succ rounds ih =>
      intro n tomb hn ⟨j, hle, hlt, hj⟩
      have hidx : TriangularProbe.probe (2 ^ e) h n < bs.length := by
        rw [hlen]
        exact TriangularProbe.probe_lt (Nat.two_pow_pos e) h n
      have hget := List.getElem?_eq_getElem hidx
      generalize bs[TriangularProbe.probe (2 ^ e) h n] = b at hget
      have hamt : u64 (n + 1 + 1) = n + 1 + 1 := u64_of_lt (by omega)
      rw [BasicHashTable.probeLoop, hget, hlen, next_index he, hamt]
      dsimp only
      split
      · exact ⟨_, rfl⟩
      · split
        · exact ⟨_, rfl⟩
        next hne =>
          -- this bucket is not empty, so the empty one lies further on
          apply ih (n + 1) _ (by omega)
          refine ⟨j, ?_, by omega, hj⟩
          rcases Nat.lt_or_ge n j with hlt' | hge
          · exact hlt'
          · obtain rfl : n = j := by omega
            rw [getElem?_slotsOf, hget, Option.map_some, Option.some.injEq,
              slotOf_eq_empty_iff, T.isEqual_comm] at hj
            exact absurd hj hne

/-- Further rounds do not change the answer of a loop that has ended. -/
theorem probeLoop_mono {value : K} {r : Bool × Nat} :
    ∀ (rounds more idx amt : Nat) (tomb : Option Nat),
      BasicHashTable.probeLoop T bs value rounds idx amt tomb = .ok r →
      BasicHashTable.probeLoop T bs value (rounds + more) idx amt tomb = .ok r := by
  intro rounds
  induction rounds with
  | zero => intro more idx amt tomb h; cases h
  | succ rounds ih =>
      intro more idx amt tomb h
      rw [show rounds + 1 + more = rounds + more + 1 by omega]
      rw [BasicHashTable.probeLoop] at h ⊢
      cases hget : bs[idx]? with
      | none => rw [hget] at h; cases h
      | some b =>
          rw [hget] at h
          dsimp only at h ⊢
          split
          next h1 => rwa [if_pos h1] at h
          next h1 =>
            rw [if_neg h1] at h
            split
            next h2 => rwa [if_pos h2] at h
            next h2 =>
              rw [if_neg h2] at h
              exact ih _ _ _ _ h

end Loop

/-! ## The invariant -/

/-- The bucket count is 0 or a power of two, the counters are the numbers of
live buckets and tombstones and leave at least one bucket empty, and the live
buckets form a valid open-addressing table. -/
structure WellFormed (T : TableType K V) (t : Table K V) : Prop where
  pow : t.buckets.length = 0 ∨ ∃ e ≤ 63, t.buckets.length = 2 ^ e
  entries : t.numEntries = liveCount (slotsOf T t.buckets)
  tombs : t.numTombstones = tombCount (slotsOf T t.buckets)
  room : t.buckets.length ≠ 0 → t.numEntries + t.numTombstones < t.buckets.length
  valid : Valid (bucketClass T) (probeOf T t.buckets.length) (slotsOf T t.buckets)

/-- The table stands for the partial map `m`. -/
def Stands (T : TableType K V) (t : Table K V) (m : KeyClass T → Option (Bucket K V)) : Prop :=
  Represents (bucketClass T) (slotsOf T t.buckets) m

namespace WellFormed

variable {T : TableType K V} {t : Table K V}

theorem length_lt (h : WellFormed T t) : t.buckets.length < 2 ^ 64 := by
  rcases h.pow with h0 | ⟨e, he, hlen⟩
  · rw [h0]
    exact Nat.two_pow_pos 64
  · rw [hlen]
    exact Nat.pow_lt_pow_right (by decide) (by omega)

/-- An empty bucket lies on every probe sequence. -/
theorem exists_empty_on_path (h : WellFormed T t) {e : Nat} (hlen : t.buckets.length = 2 ^ e)
    (start : Nat) :
    ∃ j < 2 ^ e, (slotsOf T t.buckets)[TriangularProbe.probe (2 ^ e) start j]? = some .empty := by
  have hroom := h.room (by rw [hlen]; exact Nat.ne_of_gt (Nat.two_pow_pos e))
  rw [h.entries, h.tombs, ← length_slotsOf (T := T)] at hroom
  obtain ⟨i, hi, hemp⟩ := OpenAddressing.exists_empty hroom
  rw [length_slotsOf, hlen] at hi
  obtain ⟨j, hj, hp⟩ := TriangularProbe.exists_probe_eq e start hi
  exact ⟨j, hj, by rw [hp, hemp]⟩

/-- Where a lookup of an ordinary key ends in a table that has buckets. -/
theorem lookup (h : WellFormed T t) (hne : t.buckets.length ≠ 0) {k : K} (hk : Ordinary T k) :
    ∃ isFound i, BasicHashTable.lookupBucketFor T t k = .ok (isFound, some i) ∧
      Outcome (slotsOf T t.buckets) (probeOf T t.buckets.length (classOf T k))
        (fun b => T.isEqual k b.key) (isFound, i) := by
  obtain ⟨e, he, hlen⟩ : ∃ e ≤ 63, t.buckets.length = 2 ^ e := h.pow.resolve_left hne
  have hpow : 2 ^ e ≤ 2 ^ 63 := Nat.pow_le_pow_right (by decide) he
  have hprobe : probeOf T t.buckets.length (classOf T k)
      = TriangularProbe.probe (2 ^ e) (T.getHashValue k).toNat := by
    rw [hlen]
    rfl
  obtain ⟨⟨isFound, i⟩, hr, hout⟩ :=
    search_returns (s := slotsOf T t.buckets)
      (p := TriangularProbe.probe (2 ^ e) (T.getHashValue k).toNat)
      (fun b => T.isEqual k b.key)
      (fun n => by
        rw [length_slotsOf, hlen]
        exact TriangularProbe.probe_lt (Nat.two_pow_pos e) _ n)
      (h.exists_empty_on_path hlen _)
  refine ⟨isFound, i, ?_, by rw [hprobe]; exact hout⟩
  obtain ⟨hk1, hk2⟩ := ordinary_iff.mp hk
  have hstart : (T.getHashValue k).toNat &&& (2 ^ e - 1)
      = TriangularProbe.probe (2 ^ e) (T.getHashValue k).toNat 0 := by
    rw [Nat.and_two_pow_sub_one_eq_mod, TriangularProbe.probe_zero]
  have hloop := probeLoop_eq_search hk hlen he (T.getHashValue k).toNat (2 ^ e) 0 none
    (by omega)
  rw [hr] at hloop
  simp only [BasicHashTable.lookupBucketFor, BasicHashTable.getNumBuckets, hk1, hk2, hlen,
    Bool.or_false, Bool.false_eq_true, if_false, hstart]
  rw [if_neg (Nat.ne_of_gt (Nat.two_pow_pos e)), hloop]
  rfl

end WellFormed

end Rx
