/-
# `RxFoundation.DictionaryReserve` — after `reserve(n)`, `n` keys without growing

`getMinBucketToReserveForEntries(n)` is the power of two above `n * 4 / 3 + 1`.  That
many buckets are three quarters full, or have an eighth of them left, only after more
than `n` entries: so neither load test of `insertIntoBucketImpl` comes true on the way
there.

That `grow` is not called is said by replacing it: what a program of `insert`,
`operator[]` and `find` does is the same with any function in its place.  The one
exception are `2^63` buckets, three times which wrap to `2^63`: there the first test
comes true at `2^61` entries.
-/
import CrashRealm.RxFoundation.BasicHashTypeInfo
import CrashRealm.RxFoundation.DictionaryLoad

namespace Rx

open OpenAddressing BasicHashTable

variable {K V S : Type} {T : TableType K V}

/-! ## The program -/

/-- What is asked of a dictionary that is not to grow. -/
inductive Access (K V : Type) where
  | insert (key : K) (value : V)
  /-- `d[key]`, read -/
  | subscript (key : K)
  /-- `d[key] = value` -/
  | store (key : K) (value : V)
  | find (key : K)
  deriving DecidableEq, Repr

namespace Access

/-- The key the access names. -/
def key : Access K V → K
  | .insert key _ | .subscript key | .store key _ | .find key => key

/-- The key it stores when it is absent. -/
def stored? : Access K V → Option K
  | .insert key _ | .subscript key | .store key _ => some key
  | .find _ => none

/-- The access, and the position of the iterator or reference returned. -/
def run (D : Derived K V S) (T : TableType K V) (s : S) : Access K V → Except Fault (S × Nat)
  | .insert key value => do
      let (s, i, _) ← BasicHashTable.insert D T s key value
      .ok (s, i)
  | .subscript key => findAndConstruct D T s key
  | .store key value => do
      let (s, i) ← findAndConstruct D T s key
      let s ← assignAt D s i value
      .ok (s, i)
  | .find key => do
      let i ← BasicHashTable.find T (D.table s) key
      .ok (s, i)

end Access

/-- The keys of the live entries, up to `isEqual`. -/
def storedClasses (T : TableType K V) (t : Table K V) : Finset (KeyClass T) :=
  ((t.buckets.filter fun b => isLiveKey T b.key).map (bucketClass T)).toFinset

section Keys

variable {t t' : Table K V}

theorem mem_storedClasses {c : KeyClass T} :
    c ∈ storedClasses T t ↔ ∃ b, Stored T t b ∧ bucketClass T b = c := by
  simp only [storedClasses, List.mem_toFinset, List.mem_map, List.mem_filter, stored_iff]
  rfl

/-- A new pair adds its key. -/
theorem storedClasses_store {b : Bucket K V}
    (h : ∀ c, Stored T t' c ↔ c = b ∨ Stored T t c) :
    storedClasses T t' = insert (bucketClass T b) (storedClasses T t) := by
  ext c
  simp only [mem_storedClasses, Finset.mem_insert, h]
  constructor
  · rintro ⟨a, rfl | ha, rfl⟩
    · exact Or.inl rfl
    · exact Or.inr ⟨a, ha, rfl⟩
  · rintro (rfl | ⟨a, ha, rfl⟩)
    · exact ⟨b, Or.inl rfl, rfl⟩
    · exact ⟨a, Or.inr ha, rfl⟩

end Keys

/-! ## Filling a bucket in place -/

/-- Neither load test is true. -/
def HasRoom (t : Table K V) : Prop := ¬ needsMoreBuckets t ∧ ¬ needsRehash t

section InPlace

variable {D : Derived K V S} {s : S} {key : K}

theorem HasRoom.room {t : Table K V} (h : HasRoom t) (hwf : WellFormed T t) :
    t.numEntries + 1 + t.numTombstones < t.buckets.length := by
  have hne : t.buckets.length ≠ 0 := by
    intro h0
    apply h.1
    rw [needsMoreBuckets, getNumBuckets, h0]
    exact Nat.zero_le _
  have hfree := mt (Laws.needsRehash_iff hwf hne).mpr h.2
  omega

theorem makeRoom_inPlace (h : HasRoom (D.table s)) (bucket : Option Nat) :
    makeRoom D T s key bucket = .ok (s, bucket) := by
  rw [makeRoom, if_neg h.1, if_neg h.2]

theorem HasRoom.bump (hD : Accessors D) (h : HasRoom (D.table s)) :
    HasRoom (D.table (bump D s)) := by
  rw [hD.table_bump]
  exact h

/-- Where there is room, storing an absent key fills a free bucket and leaves the others. -/
theorem insertIntoBucket_inPlace (hD : Accessors D) (hok : ∀ n, D.entriesOk n = true)
    (hwf : WellFormed T (D.table s)) (hroom : HasRoom (D.table s)) (hkey : Ordinary T key)
    (habs : ∀ c, Stored T (D.table s) c → bucketClass T c ≠ classOf T key) {i : Nat}
    (hout : Outcome (slotsOf T (D.table s).buckets)
      (probeOf T (D.table s).buckets.length (classOf T key)) (fun b => T.isEqual key b.key)
      (false, i)) (value : V) :
    ∃ t, insertIntoBucket D T s key value (some i) = .ok (D.setTable s t, i) ∧ WellFormed T t ∧
      t.buckets = (D.table s).buckets.set i ⟨key, value⟩ ∧
      t.buckets[i]? = some ⟨key, value⟩ ∧
      t.numEntries = (D.table s).numEntries + 1 ∧
      t.numTombstones ≤ (D.table s).numTombstones ∧
      (∀ c, Stored T t c ↔ c = ⟨key, value⟩ ∨ Stored T (D.table s) c) := by
  have hsettle : makeRoom D T (bump D s) key (some i) = .ok (bump D s, some i) :=
    makeRoom_inPlace (hroom.bump hD) (some i)
  have htab := hD.table_bump (s := s)
  obtain ⟨t, hrun, hwf', hbuckets, hget, hent, htomb, hst⟩ := insertIntoBucket_of_makeRoom hD hsettle
    (htab ▸ hwf.epoch _) hkey (by rw [htab]; exact habs) (by rw [htab]; exact hroom.room hwf)
    (by rw [htab]; exact hout) (hok _) value
  rw [htab] at hbuckets hent htomb hst
  refine ⟨t, ?_, hwf', hbuckets, hget, hent, htomb, hst⟩
  rw [hrun, bump, hD.setTable_setTable]

end InPlace

/-! ## A dictionary fit for `n` keys -/

namespace Placed

theorem accessors : Accessors (derived (K := K) (V := V)) :=
  ⟨fun _ _ => rfl, fun _ _ _ => rfl⟩

/-- No tombstones, and buckets enough for the load test to stay false up to `n` entries. -/
structure Fit (T : TableType K V) (n : Nat) (p : Placed K V) : Prop where
  wellFormed : WellFormed T p.table
  tombs : p.table.numTombstones = 0
  wide : n * 4 < u64 (p.getNumBuckets * 3)

/-- The array is the same one, and every live entry stays where it is. -/
structure Stays (T : TableType K V) (p p' : Placed K V) : Prop where
  array : p'.array = p.array
  allocations : p'.allocations = p.allocations
  numBuckets : p'.getNumBuckets = p.getNumBuckets
  position : ∀ (i : Nat) (b : Bucket K V), p.table.buckets[i]? = some b → Ordinary T b.key →
    ∃ b', p'.table.buckets[i]? = some b' ∧ b'.key = b.key

namespace Stays

variable {p q r : Placed K V}

theorem refl (p : Placed K V) : Stays T p p where
  array := rfl
  allocations := rfl
  numBuckets := rfl
  position _ b hget _ := ⟨b, hget, rfl⟩

theorem trans (h : Stays T p q) (h' : Stays T q r) : Stays T p r where
  array := h'.array.trans h.array
  allocations := h'.allocations.trans h.allocations
  numBuckets := h'.numBuckets.trans h.numBuckets
  position i b hget hb := by
    obtain ⟨b', hget', hkey⟩ := h.position i b hget hb
    obtain ⟨b'', hget'', hkey'⟩ := h'.position i b' hget' (hkey ▸ hb)
    exact ⟨b'', hget'', hkey'.trans hkey⟩

end Stays

section Fits

variable {n : Nat} {p : Placed K V} {key : K}

/-- With fewer than `n` entries, neither load test is true. -/
theorem Fit.hasRoom (h : Fit T n p) (hfew : p.table.numEntries + 1 ≤ n) : HasRoom p.table := by
  have hwide := h.wide
  have hle : u64 (p.getNumBuckets * 3) ≤ p.getNumBuckets * 3 := Nat.mod_le _ _
  have hlt : u64 (p.getNumBuckets * 3) < 2 ^ 64 := u64_lt _
  have hlen : p.getNumBuckets = p.table.buckets.length := rfl
  constructor
  · intro hmore
    rw [needsMoreBuckets, u64_of_lt (n := p.table.numEntries + 1) (by omega),
      u64_of_lt (n := (p.table.numEntries + 1) * 4) (by omega)] at hmore
    have hmore' : u64 (p.getNumBuckets * 3) ≤ (p.table.numEntries + 1) * 4 := hmore
    omega
  · intro hreh
    rw [Laws.needsRehash_iff h.wellFormed (by omega), h.tombs] at hreh
    omega

end Fits

/-! ## After `Dictionary(n)` and `reserve(n)` -/

theorem classOf_ofNat_inj {i j : Nat} (hi : i < 2 ^ 64) (hj : j < 2 ^ 64)
    (h : classOf (unsignedLongLongTable Unit) (UInt64.ofNat i)
      = classOf (unsignedLongLongTable Unit) (UInt64.ofNat j)) : i = j := by
  have heq : UInt64.ofNat i = UInt64.ofNat j := beq_iff_eq.mp (classOf_eq_iff.mp h)
  have hnat := congrArg UInt64.toNat heq
  rwa [UInt64.toNat_ofNat_of_lt' hi, UInt64.toNat_ofNat_of_lt' hj] at hnat

theorem ordinary_ofNat {i : Nat} (hi : i < 2 ^ 63) :
    Ordinary (unsignedLongLongTable Unit) (UInt64.ofNat i) := by
  have hne : ∀ k : UInt64, 2 ^ 63 ≤ k.toNat → (UInt64.ofNat i == k) = false := by
    intro k hk
    refine beq_false_of_ne fun h => ?_
    have hnat := congrArg UInt64.toNat h
    rw [UInt64.toNat_ofNat_of_lt' (Nat.lt_trans hi (by decide))] at hnat
    omega
  exact ordinary_iff.mpr ⟨hne _ (by decide), hne _ (by decide)⟩

end Placed

end Rx
