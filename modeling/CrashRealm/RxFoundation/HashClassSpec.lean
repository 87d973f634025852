/-
# `RxFoundation.HashClassSpec` — calls and programs refine the map

`Laws` collects what a derived class owes `BasicHashTable`: an invariant of its
own that contains `WellFormed`, and what `grow`, `shrink_and_clear`, the
constructors and `swap` do under it.  `GrowOk` and `ShrinkOk` are the states in
which the class can do what it is asked; a class that always can takes `True`.

Over any such class, a call whose demands are met (`CallOk`) computes
`DictMap.call` (`call_refines`), an operation computes `DictMap.step`
(`step_refines`) and a program `DictMap.run` (`run_refines`).
-/
import CrashRealm.RxFoundation.BasicHashInsert
import CrashRealm.RxFoundation.DictionaryMap

namespace Rx

open OpenAddressing BasicHashTable

variable {K V S : Type} {T : TableType K V}

/-! ## The map of a table -/

/-- The table stands for the map `m`. -/
def Models (T : TableType K V) (t : Table K V) (m : DictMap T) : Prop :=
  Stands T t fun c => m.lookup c

section Models
variable {t t' : Table K V} {m : DictMap T}

theorem Models.lookup_eq_some (h : Models T t m) {c : KeyClass T} {b : Bucket K V} :
    m.lookup c = some b ↔ Stored T t b ∧ bucketClass T b = c := h c b

theorem Models.lookup_eq_none (h : Models T t m) {c : KeyClass T} :
    m.lookup c = none ↔ ∀ b, Stored T t b → bucketClass T b ≠ c := h.eq_none

theorem Models.same (h : Models T t m) (hs : SameContents T t t') : Models T t' m :=
  h.congr hs.stored

theorem Cleared.models (h : Cleared T t) : Models T t ∅ := by
  intro c b
  show (∅ : DictMap T).lookup c = some b ↔ _
  rw [Finmap.lookup_empty]
  constructor
  · exact fun hb => nomatch hb
  · exact fun hb => absurd hb.1 (h.none_stored b)

theorem lookup_insert_eq_update (m : DictMap T) (c : KeyClass T) (b : Bucket K V) :
    (fun c' => (m.insert c b).lookup c') = Function.update (fun c' => m.lookup c') c (some b) := by
  funext c'
  by_cases hc : c' = c
  · subst hc
    rw [Finmap.lookup_insert, Function.update_self]
  · rw [Finmap.lookup_insert_of_ne _ hc, Function.update_of_ne hc]

theorem lookup_erase_eq_update (m : DictMap T) (c : KeyClass T) :
    (fun c' => (m.erase c).lookup c') = Function.update (fun c' => m.lookup c') c none := by
  funext c'
  by_cases hc : c' = c
  · subst hc
    rw [Finmap.lookup_erase, Function.update_self]
  · rw [Finmap.lookup_erase_ne hc, Function.update_of_ne hc]

theorem Models.put (h : Models T t m) {b : Bucket K V} (hs : ∀ c, Stored T t' c ↔
    c = b ∨ (Stored T t c ∧ bucketClass T c ≠ bucketClass T b)) :
    Models T t' (m.insert (bucketClass T b) b) := by
  unfold Models
  rw [lookup_insert_eq_update]
  exact Represents.put h hs

theorem Models.drop (h : Models T t m) {k : KeyClass T}
    (hs : ∀ c, Stored T t' c ↔ Stored T t c ∧ bucketClass T c ≠ k) :
    Models T t' (m.erase k) := by
  unfold Models
  rw [lookup_erase_eq_update]
  exact Represents.drop h hs

/-- The entry counter is the number of keys. -/
theorem Models.numEntries (h : Models T t m) (hwf : WellFormed T t) : t.numEntries = m.size := by
  rw [hwf.entries]
  refine Represents.liveCount_eq h hwf.valid ?_
  intro k
  rw [Finmap.mem_keys, Finmap.mem_iff]

/-- The two ways a lookup of an ordinary key ends, in terms of the map. -/
theorem Models.lookupBucketFor (h : Models T t m) (hwf : WellFormed T t) {k : K}
    (hk : Ordinary T k) :
    (∃ i b, lookupBucketFor T t k = .ok (true, some i) ∧ t.buckets[i]? = some b ∧
        Ordinary T b.key ∧ m.lookup (classOf T k) = some b ∧ bucketClass T b = classOf T k) ∨
    (∃ bucket, lookupBucketFor T t k = .ok (false, bucket) ∧ m.lookup (classOf T k) = none ∧
        (t.buckets.length ≠ 0 → ∃ i, bucket = some i ∧
          Outcome (slotsOf T t.buckets) (probeOf T t.buckets.length (classOf T k))
            (fun b => T.isEqual k b.key) (false, i))) := by
  rcases lookupBucketFor_spec hwf hk with ⟨i, b, hlook, hget, hord, heq⟩ | ⟨bucket, hlook, hno, hout⟩
  · have hclass : bucketClass T b = classOf T k := (classOf_eq_iff.mpr heq).symm
    exact Or.inl ⟨i, b, hlook, hget, hord, h.lookup_eq_some.mpr
      ⟨stored_iff.mpr ⟨List.mem_of_getElem? hget, hord⟩, hclass⟩, hclass⟩
  · exact Or.inr ⟨bucket, hlook, h.lookup_eq_none.mpr hno, hout⟩

end Models

/-! ## What a derived class owes -/

structure Laws (C : HashClass K V S) (T : TableType K V) where
  Inv : S → Prop
  GrowOk : S → Nat → Prop
  ShrinkOk : S → Prop
  ConstructOk : Nat → Prop
  wellFormed : ∀ {s}, Inv s → WellFormed T (C.table s)
  few : ∀ {s}, Inv s → (C.table s).numEntries < intMax
  entriesOk : ∀ {n}, n < intMax → C.entriesOk n = true
  table_setTable : ∀ s t, C.table (C.setTable s t) = t
  setTable_setTable : ∀ s t t', C.setTable (C.setTable s t) t' = C.setTable s t'
  /-- the table may be replaced by another one of its size -/
  inv_setTable : ∀ {s t}, Inv s → WellFormed T t → t.numEntries < intMax →
    t.buckets.length = (C.table s).buckets.length → Inv (C.setTable s t)
  growOk_bump : ∀ {s n}, GrowOk s n → GrowOk (bump C.toDerived s) n
  shrinkOk_bump : ∀ {s}, ShrinkOk s → ShrinkOk (bump C.toDerived s)
  /-- a rehash into at least `n` buckets, and at least 64 -/
  grow : ∀ {s n}, Inv s → GrowOk s n → PowerOrZero n → (C.table s).buckets.length ≤ n →
    ∃ s', C.grow T n s = .ok s' ∧ Inv s' ∧ SameContents T (C.table s) (C.table s') ∧
      (C.table s').numTombstones = 0 ∧ n ≤ (C.table s').buckets.length ∧
      64 ≤ (C.table s').buckets.length
  shrink : ∀ {s}, Inv s → ShrinkOk s →
    ∃ s', C.shrinkAndClear T s = .ok s' ∧ Inv s' ∧ Cleared T (C.table s')
  construct : ∀ {n}, ConstructOk n →
    ∃ s, C.construct T n = .ok s ∧ Inv s ∧ Cleared T (C.table s)
  copyConstruct : ∀ {s}, Inv s → ∃ s', C.copyConstruct T s = .ok s' ∧ Inv s' ∧
    SameContents T (C.table s) (C.table s')
  moveConstruct : ∀ {s}, Inv s → ∃ s' rest, C.moveConstruct T s = .ok (s', rest) ∧
    Inv s' ∧ SameContents T (C.table s) (C.table s') ∧ Inv rest ∧ Cleared T (C.table rest)
  assign_self : ∀ s, C.assign T true s s = .ok s
  assign : ∀ {s other}, Inv s → Inv other → ∃ s', C.assign T false s other = .ok s' ∧
    Inv s' ∧ SameContents T (C.table other) (C.table s')
  moveAssign_self : ∀ {s}, Inv s → ∃ s' rest, C.moveAssign T true s s = .ok (s', rest) ∧
    Inv s' ∧ Cleared T (C.table s')
  moveAssign : ∀ {s other}, Inv s → Inv other →
    ∃ s' rest, C.moveAssign T false s other = .ok (s', rest) ∧
      Inv s' ∧ SameContents T (C.table other) (C.table s') ∧ Inv rest ∧ Cleared T (C.table rest)
  swap_self : ∀ {s}, Inv s → ∃ s' other, C.swap T true s s = .ok (s', other) ∧
    Inv s' ∧ SameContents T (C.table s) (C.table s')
  swap : ∀ {s other}, Inv s → Inv other →
    ∃ s' other', C.swap T false s other = .ok (s', other') ∧
      Inv s' ∧ SameContents T (C.table other) (C.table s') ∧
      Inv other' ∧ SameContents T (C.table s) (C.table other')

namespace Laws

variable {C : HashClass K V S} (L : Laws C T) {s : S} {m : DictMap T}

/-- The object is in a state for the map `m`. -/
def Refines (s : S) (m : DictMap T) : Prop := L.Inv s ∧ Models T (C.table s) m

/-- What storing an absent key asks of the class: room for its rehash. -/
def InsertOk (s : S) : Prop :=
  (needsMoreBuckets (C.table s) → L.GrowOk s (u64 (getNumBuckets (C.table s) * 2))) ∧
  (¬ needsMoreBuckets (C.table s) → needsRehash (C.table s) →
    L.GrowOk s (getNumBuckets (C.table s)))

theorem accessors (L : Laws C T) : Accessors C.toDerived :=
  ⟨L.table_setTable, L.setTable_setTable⟩

theorem inv_bump (h : L.Inv s) : L.Inv (bump C.toDerived s) :=
  L.inv_setTable h ((L.wellFormed h).epoch _) (L.few h) rfl

theorem table_bump (L : Laws C T) : C.table (bump C.toDerived s) = incrementEpoch (C.table s) :=
  L.table_setTable s _

/-! ### The load tests

With fewer than `2^31` entries none of the products wraps, except three times
the largest bucket count, `2^63`, which wraps to itself. -/

theorem triple_buckets {n : Nat} (h : PowerOrZero n) :
    (u64 (n * 3) = n * 3 ∧ n ≤ 2 ^ 62) ∨ (u64 (n * 3) = 2 ^ 63 ∧ n = 2 ^ 63) := by
  rcases h with rfl | ⟨e, he, rfl⟩
  · exact Or.inl ⟨rfl, Nat.zero_le _⟩
  · rcases Nat.lt_or_ge e 63 with hlt | hge
    · have hle : 2 ^ e ≤ 2 ^ 62 := Nat.pow_le_pow_right (by decide) (by omega)
      exact Or.inl ⟨u64_of_lt (by omega), hle⟩
    · obtain rfl : e = 63 := by omega
      exact Or.inr ⟨by decide, rfl⟩

section LoadTests
variable {t : Table K V}

theorem needsMoreBuckets_iff (hwf : WellFormed T t) (hfew : t.numEntries < intMax) :
    needsMoreBuckets t ↔ t.buckets.length * 3 ≤ (t.numEntries + 1) * 4 := by
  have hint : intMax = 2147483647 := rfl
  rw [needsMoreBuckets, u64_of_lt (n := t.numEntries + 1) (by omega),
    u64_of_lt (n := (t.numEntries + 1) * 4) (by omega), getNumBuckets]
  rcases triple_buckets hwf.pow with ⟨h3, -⟩ | ⟨h3, hn⟩
  · rw [h3]
  · rw [h3, hn]
    omega

theorem needsRehash_iff (hwf : WellFormed T t) (hne : t.buckets.length ≠ 0) :
    needsRehash t ↔
      t.buckets.length - (t.numEntries + 1 + t.numTombstones) ≤ t.buckets.length / 8 := by
  have hroom := hwf.room hne
  have hlt := hwf.length_lt
  rw [needsRehash, u64_of_lt (n := t.numEntries + 1) (by omega), u64_of_lt (by omega),
    getNumBuckets, sub64_of_le hlt (by omega)]

end LoadTests

/-! ### Growing -/

/-- Growing for the sake of `key`: the class answers with a table free of
tombstones, and the second lookup finds room in it. -/
theorem growAndLookup_spec (h : L.Refines s m) {key : K} (hkey : Ordinary T key)
    (habs : m.lookup (classOf T key) = none) {atLeast : Nat}
    (hgrow : L.GrowOk s atLeast) (hpow : PowerOrZero atLeast)
    (hlen : (C.table s).buckets.length ≤ atLeast)
    (hroom : (C.table s).numEntries + 1 < max 64 atLeast) :
    ∃ s' i, growAndLookup C.toDerived T atLeast s key = .ok (s', some i) ∧ L.Refines s' m ∧
      (C.table s').numEntries = (C.table s).numEntries ∧
      (C.table s').numEntries + 1 + (C.table s').numTombstones < (C.table s').buckets.length ∧
      Outcome (slotsOf T (C.table s').buckets)
        (probeOf T (C.table s').buckets.length (classOf T key))
        (fun b => T.isEqual key b.key) (false, i) := by
  obtain ⟨hinv, hmod⟩ := h
  obtain ⟨s', hrun, hinv', hsame, htomb, hle, h64⟩ := L.grow hinv hgrow hpow hlen
  have hmod' := hmod.same hsame
  obtain ⟨i, hlook, hout⟩ := growAndLookup_of_grow (T := T) hrun (L.wellFormed hinv')
    (by omega) hkey (hmod'.lookup_eq_none.mp habs)
  refine ⟨s', i, hlook, ⟨hinv', hmod'⟩, hsame.entries, ?_, hout⟩
  rw [hsame.entries, htomb]
  omega

/-- Whichever of its three branches `makeRoom` takes, the bucket it settles on is
fit for the key and filling it leaves an empty one. -/
theorem makeRoom_spec (h : L.Refines s m) {key : K} (hkey : Ordinary T key)
    (habs : m.lookup (classOf T key) = none) (hok : L.InsertOk s)
    {bucket : Option Nat}
    (hlook : (C.table s).buckets.length ≠ 0 → ∃ i, bucket = some i ∧
      Outcome (slotsOf T (C.table s).buckets)
        (probeOf T (C.table s).buckets.length (classOf T key))
        (fun b => T.isEqual key b.key) (false, i)) :
    ∃ s' i, makeRoom C.toDerived T s key bucket = .ok (s', some i) ∧ L.Refines s' m ∧
      (C.table s').numEntries = (C.table s).numEntries ∧
      (C.table s').numEntries + 1 + (C.table s').numTombstones < (C.table s').buckets.length ∧
      Outcome (slotsOf T (C.table s').buckets)
        (probeOf T (C.table s').buckets.length (classOf T key))
        (fun b => T.isEqual key b.key) (false, i) := by
  have hwf := L.wellFormed h.1
  have hfew := L.few h.1
  have hint : intMax = 2147483647 := rfl
  have hpow : PowerOrZero (C.table s).buckets.length := hwf.pow
  rw [makeRoom]
  by_cases hmore : needsMoreBuckets (C.table s)
  · -- three quarters full: twice the buckets
    rw [if_pos hmore]
    have hload := (needsMoreBuckets_iff hwf hfew).mp hmore
    have hdouble : u64 (getNumBuckets (C.table s) * 2) = (C.table s).buckets.length * 2 := by
      rw [getNumBuckets]
      exact u64_of_lt (by omega)
    have hpow' : PowerOrZero ((C.table s).buckets.length * 2) := hpow.double (by omega)
    have hgrow := hok.1 hmore
    rw [hdouble] at hgrow ⊢
    refine L.growAndLookup_spec h hkey habs hgrow hpow' (by omega) ?_
    by_cases h0 : (C.table s).buckets.length = 0
    · have := hwf.entries_eq_zero h0
      omega
    · have := hwf.room h0
      omega
  · rw [if_neg hmore]
    have hload := mt (needsMoreBuckets_iff hwf hfew).mpr hmore
    by_cases hreh : needsRehash (C.table s)
    · -- too few empty buckets: the same number again
      rw [if_pos hreh]
      refine L.growAndLookup_spec h hkey habs (hok.2 hmore hreh) hpow (Nat.le_refl _) ?_
      show _ < max 64 (C.table s).buckets.length
      omega
    · rw [if_neg hreh]
      have hne : (C.table s).buckets.length ≠ 0 := by omega
      have hfree := mt (needsRehash_iff hwf hne).mpr hreh
      obtain ⟨i, rfl, hout⟩ := hlook hne
      exact ⟨s, i, rfl, h, rfl, by omega, hout⟩

/-- Storing a pair under an absent key. -/
theorem insertIntoBucket_spec (h : L.Refines s m) {key : K} (hkey : Ordinary T key)
    (habs : m.lookup (classOf T key) = none) (hok : L.InsertOk s)
    (hfew : (C.table s).numEntries + 1 < intMax) {bucket : Option Nat}
    (hlook : (C.table s).buckets.length ≠ 0 → ∃ i, bucket = some i ∧
      Outcome (slotsOf T (C.table s).buckets)
        (probeOf T (C.table s).buckets.length (classOf T key))
        (fun b => T.isEqual key b.key) (false, i)) (value : V) :
    ∃ s' i, insertIntoBucket C.toDerived T s key value bucket = .ok (s', i) ∧
      L.Refines s' (m.insert (classOf T key) ⟨key, value⟩) ∧
      (C.table s').buckets[i]? = some ⟨key, value⟩ := by
  have hbump : L.Refines (bump C.toDerived s) m := by
    refine ⟨L.inv_bump h.1, ?_⟩
    rw [L.table_bump]
    exact h.2
  have htab := L.table_bump (s := s)
  obtain ⟨s₁, i, hsettle, href, hent, hroom, hout⟩ := L.makeRoom_spec hbump hkey habs
    (s := bump C.toDerived s)
    ⟨fun hm => by
      rw [htab] at hm ⊢
      exact L.growOk_bump (hok.1 hm),
     fun hm hr => by
      rw [htab] at hm hr ⊢
      exact L.growOk_bump (hok.2 hm hr)⟩
    (by rw [htab]; exact hlook)
  rw [htab] at hent
  have hwf := L.wellFormed href.1
  have hfew₁ : (C.table s₁).numEntries + 1 < intMax := by
    rw [hent]
    exact hfew
  obtain ⟨t, hrun, hwf', hbuckets, hget, hent', -, hstored⟩ := insertIntoBucket_of_makeRoom
    L.accessors hsettle hwf hkey (href.2.lookup_eq_none.mp habs) hroom hout
    (L.entriesOk hfew₁) value
  refine ⟨_, i, hrun, ⟨L.inv_setTable href.1 hwf' (hent'.trans_lt hfew₁) ?_, ?_⟩, ?_⟩
  · rw [hbuckets, List.length_set]
  · rw [L.table_setTable]
    refine href.2.put (b := ⟨key, value⟩) ?_
    intro c
    rw [hstored c]
    constructor
    · rintro (rfl | hc)
      · exact Or.inl rfl
      · exact Or.inr ⟨hc, href.2.lookup_eq_none.mp habs c hc⟩
    · rintro (rfl | ⟨hc, -⟩)
      · exact Or.inl rfl
      · exact Or.inr hc
  · rw [L.table_setTable]
    exact hget

/-! ### Calls -/

/-- No pair is stored under the key. -/
def Absent (T : TableType K V) (t : Table K V) (key : K) : Prop :=
  ∀ b, Stored T t b → bucketClass T b ≠ classOf T key

/-- What storing under `key` asks, when it is absent: room for the rehash, and
room in the entry counter. -/
def StoreOk (s : S) (key : K) : Prop :=
  Absent T (C.table s) key → L.InsertOk s ∧ (C.table s).numEntries + 1 < intMax

/-- What a call asks of the class. -/
def CallOk (s : S) : Call K V → Prop
  | .insert key _ | .findAndConstruct key | .subscript key | .store key _ => L.StoreOk s key
  | .clear => ¬ ((C.table s).numEntries = 0 ∧ (C.table s).numTombstones = 0) →
      isSparse (C.table s) → L.ShrinkOk s
  | .reserve numEntries =>
      getNumBuckets (C.table s) < getMinBucketToReserveForEntries numEntries →
        L.GrowOk s (getMinBucketToReserveForEntries numEntries)
  | .erase _ | .find _ | .count _ | .size => True

/-- Asking for a key and storing `⟨key, value⟩` if it is absent, as `insert` and
`findAndConstruct` both do. -/
theorem getOrStore_spec (h : L.Refines s m) {key : K} (hkey : Ordinary T key)
    (hok : L.StoreOk s key) (value : V) :
    (∃ i b, lookupBucketFor T (C.table s) key = .ok (true, some i) ∧
        (C.table s).buckets[i]? = some b ∧ Ordinary T b.key ∧
        bucketClass T b = classOf T key ∧ m.getOrStore ⟨key, value⟩ = (m, b, false)) ∨
    (∃ bucket s' i, lookupBucketFor T (C.table s) key = .ok (false, bucket) ∧
        insertIntoBucket C.toDerived T s key value bucket = .ok (s', i) ∧
        L.Refines s' (m.insert (classOf T key) ⟨key, value⟩) ∧
        (C.table s').buckets[i]? = some ⟨key, value⟩ ∧
        m.getOrStore ⟨key, value⟩ =
          (m.insert (classOf T key) ⟨key, value⟩, ⟨key, value⟩, true)) := by
  rcases h.2.lookupBucketFor (L.wellFormed h.1) hkey with
    ⟨i, b, hlook, hget, hord, hb, hclass⟩ | ⟨bucket, hlook, habs, hout⟩
  · refine Or.inl ⟨i, b, hlook, hget, hord, hclass, ?_⟩
    have hb' : m.lookup (bucketClass T ⟨key, value⟩) = some b := hb
    simp only [DictMap.getOrStore, hb']
  · obtain ⟨hins, hfew⟩ := hok (h.2.lookup_eq_none.mp habs)
    obtain ⟨s', i, hrun, href, hget⟩ := L.insertIntoBucket_spec h hkey habs hins hfew hout value
    refine Or.inr ⟨bucket, s', i, hlook, hrun, href, hget, ?_⟩
    have habs' : m.lookup (bucketClass T ⟨key, value⟩) = none := habs
    simp only [DictMap.getOrStore, habs']
    rfl

theorem insert_refines (h : L.Refines s m) {key : K} (hkey : Ordinary T key)
    (hok : L.StoreOk s key) (value : V) :
    ∃ s' i, BasicHashTable.insert C.toDerived T s key value
        = .ok (s', i, (m.getOrStore ⟨key, value⟩).2.2) ∧
      L.Refines s' (m.getOrStore ⟨key, value⟩).1 ∧
      (C.table s').buckets[i]? = some (m.getOrStore ⟨key, value⟩).2.1 := by
  rcases L.getOrStore_spec h hkey hok value with
    ⟨i, b, hlook, hget, -, -, hspec⟩ | ⟨bucket, s', i, hlook, hrun, href, hget, hspec⟩
  · rw [hspec]
    refine ⟨s, i, ?_, h, hget⟩
    simp only [BasicHashTable.insert, hlook, ok_bind, if_true, bucketAt_some hget]
  · rw [hspec]
    refine ⟨s', i, ?_, href, hget⟩
    simp only [BasicHashTable.insert, hlook, ok_bind, Bool.false_eq_true, if_false, hrun]

theorem findAndConstruct_refines (h : L.Refines s m) {key : K} (hkey : Ordinary T key)
    (hok : L.StoreOk s key) :
    ∃ s' i, findAndConstruct C.toDerived T s key = .ok (s', i) ∧
      L.Refines s' (m.getOrStore ⟨key, T.defaultValue⟩).1 ∧
      (C.table s').buckets[i]? = some (m.getOrStore ⟨key, T.defaultValue⟩).2.1 ∧
      Ordinary T (m.getOrStore ⟨key, T.defaultValue⟩).2.1.key ∧
      bucketClass T (m.getOrStore ⟨key, T.defaultValue⟩).2.1 = classOf T key := by
  rcases L.getOrStore_spec h hkey hok T.defaultValue with
    ⟨i, b, hlook, hget, hord, hclass, hspec⟩ | ⟨bucket, s', i, hlook, hrun, href, hget, hspec⟩
  · rw [hspec]
    refine ⟨s, i, ?_, h, hget, hord, hclass⟩
    simp only [findAndConstruct, hlook, ok_bind, if_true, bucketAt_some hget]
  · rw [hspec]
    refine ⟨s', i, ?_, href, hget, hkey, rfl⟩
    simp only [findAndConstruct, hlook, ok_bind, Bool.false_eq_true, if_false, hrun]

theorem erase_refines (h : L.Refines s m) {key : K} (hkey : Ordinary T key) :
    ∃ s', erase C.toDerived T s key = .ok (s', (m.lookup (classOf T key)).isSome) ∧
      L.Refines s' (m.erase (classOf T key)) := by
  have hwf := L.wellFormed h.1
  have hint : intMax = 2147483647 := rfl
  rcases h.2.lookupBucketFor hwf hkey with
    ⟨i, b, hlook, hget, hord, hb, hclass⟩ | ⟨bucket, hlook, habs, -⟩
  · obtain ⟨hwf', hpos, hst⟩ := bury_spec hwf hget hord
    have hfew := L.few h.1
    have hlt := hwf.length_lt
    have hroom := hwf.room (by
      have := (List.getElem?_eq_some_iff.mp hget).1
      omega)
    refine ⟨_, ?_, L.inv_setTable h.1 hwf' (by show _ - 1 < _; omega) List.length_set, ?_⟩
    · have hent : sub64 (C.table s).numEntries 1 = (C.table s).numEntries - 1 :=
        sub64_of_le (by omega) hpos
      have htomb : u64 ((C.table s).numTombstones + 1) = (C.table s).numTombstones + 1 :=
        u64_of_lt (by omega)
      have hok : C.entriesOk ((C.table s).numEntries - 1) = true := L.entriesOk (by omega)
      simp only [erase, hlook, ok_bind, if_true, bucketAt_some hget, hb, Option.isSome_some,
        hent, setNumEntries_ok hok, htomb]
    · rw [L.table_setTable, ← hclass]
      exact h.2.drop hst
  · refine ⟨s, ?_, h.1, ?_⟩
    · simp only [erase, hlook, ok_bind, habs, Option.isSome_none, Bool.false_eq_true, if_false]
    · exact h.2.drop fun c =>
        ⟨fun hc => ⟨hc, h.2.lookup_eq_none.mp habs c hc⟩, fun hc => hc.1⟩

theorem assignAt_refines (h : L.Refines s m) {i : Nat} {b : Bucket K V}
    (hget : (C.table s).buckets[i]? = some b) (hord : Ordinary T b.key) (value : V) :
    ∃ s', assignAt C.toDerived s i value = .ok s' ∧
      L.Refines s' (m.insert (bucketClass T b) { b with value := value }) := by
  obtain ⟨hwf', hst⟩ := overwrite_spec (L.wellFormed h.1) hget hord value
  refine ⟨_, ?_, L.inv_setTable h.1 hwf' (L.few h.1) List.length_set, ?_⟩
  · simp only [assignAt, bucketAt_some hget, ok_bind]
  · rw [L.table_setTable]
    exact h.2.put hst

theorem clear_refines (h : L.Refines s m) (hok : L.CallOk s .clear) :
    ∃ s', clear C.toDerived T s = .ok s' ∧ L.Refines s' ∅ := by
  have hwf := L.wellFormed h.1
  have hbump := L.inv_bump h.1
  have htab := L.table_bump (s := s)
  have hint : intMax = 2147483647 := rfl
  have hfew := L.few h.1
  have hstart : clear C.toDerived T s = (if (C.table s).numEntries = 0 ∧
        (C.table s).numTombstones = 0 then .ok (bump C.toDerived s)
      else if isSparse (C.table s) then C.shrinkAndClear T (bump C.toDerived s)
      else do
        let buckets ← clearBuckets T (C.table (bump C.toDerived s))
        let t ← setNumEntries C.entriesOk 0
          { C.table (bump C.toDerived s) with buckets := buckets }
        .ok (C.setTable (bump C.toDerived s) { t with numTombstones := 0 })) := by
    rw [clear]
    rw [show C.toDerived.setTable s (incrementEpoch (C.toDerived.table s))
      = bump C.toDerived s from rfl, htab]
    rfl
  rw [hstart]
  by_cases hempty : (C.table s).numEntries = 0 ∧ (C.table s).numTombstones = 0
  · rw [if_pos hempty]
    have hclr : Cleared T (C.table (bump C.toDerived s)) := by
      rw [htab]
      exact ⟨hwf.epoch _, hempty.1, hempty.2, fun b => (hwf.epoch _).none_stored hempty.1 b⟩
    exact ⟨_, rfl, hbump, hclr.models⟩
  · rw [if_neg hempty]
    by_cases hsparse : isSparse (C.table s)
    · rw [if_pos hsparse]
      obtain ⟨s', hrun, hinv, hclr⟩ := L.shrink hbump (L.shrinkOk_bump (hok hempty hsparse))
      exact ⟨s', hrun, hinv, hclr.models⟩
    · rw [if_neg hsparse]
      have hwf' := L.wellFormed hbump
      obtain ⟨bs, hbs, hlen, hemp⟩ := clearBuckets_spec hwf' (by
        have := L.few hbump
        omega)
      have hpow : PowerOrZero bs.length := by
        rw [hlen]
        exact hwf'.pow
      have hclr := cleared_of_empty (e := (C.table (bump C.toDerived s)).epoch) hpow hemp
      refine ⟨C.setTable (bump C.toDerived s) ⟨bs, 0, 0, _⟩, ?_,
        L.inv_setTable hbump hclr.wellFormed (show 0 < intMax by decide) hlen, ?_⟩
      · simp only [hbs, ok_bind, setNumEntries_ok (L.entriesOk (show 0 < intMax by decide))]
      · rw [L.table_setTable]
        exact hclr.models

theorem getMinBucketToReserveForEntries_pow (n : Nat) :
    PowerOrZero (getMinBucketToReserveForEntries n) := by
  rw [getMinBucketToReserveForEntries]
  split
  next => exact Or.inl rfl
  next => exact Math.nextPowerOf2_64_cases _ (u64_lt _)

theorem reserve_refines (h : L.Refines s m) {n : Nat} (hok : L.CallOk s (.reserve n)) :
    ∃ s', reserve C.toDerived T s n = .ok s' ∧ L.Refines s' m := by
  have hbump := L.inv_bump h.1
  have htab := L.table_bump (s := s)
  have hmod : Models T (C.table (bump C.toDerived s)) m := by
    rw [htab]
    exact h.2
  have hstart : reserve C.toDerived T s n
      = if getMinBucketToReserveForEntries n > getNumBuckets (C.table (bump C.toDerived s)) then
          C.grow T (getMinBucketToReserveForEntries n) (bump C.toDerived s)
        else .ok (bump C.toDerived s) := rfl
  rw [hstart, htab]
  split
  next hgt =>
    obtain ⟨s', hrun, hinv, hsame, -⟩ := L.grow hbump (L.growOk_bump (hok hgt))
      (getMinBucketToReserveForEntries_pow n) (by rw [htab]; exact Nat.le_of_lt hgt)
    exact ⟨s', hrun, hinv, hmod.same hsame⟩
  next => exact ⟨_, rfl, hbump, hmod⟩

/-- Every call computes the map's own. -/
theorem call_refines (h : L.Refines s m) (c : Call K V) (hc : c.Proper T) (hok : L.CallOk s c) :
    ∃ s', C.call T s c = .ok (s', (m.call c).2) ∧ L.Refines s' (m.call c).1 := by
  have hwf := L.wellFormed h.1
  cases c with
  | insert key value =>
      obtain ⟨s', i, hrun, href, hget⟩ := L.insert_refines h (hc key rfl) hok value
      refine ⟨s', ?_, href⟩
      simp only [HashClass.call, hrun, ok_bind, bucketAt_some hget, DictMap.call]
  | erase key =>
      obtain ⟨s', hrun, href⟩ := L.erase_refines h (hc key rfl)
      refine ⟨s', ?_, href⟩
      simp only [HashClass.call, hrun, ok_bind, DictMap.call]
  | findAndConstruct key =>
      obtain ⟨s', i, hrun, href, hget, -⟩ := L.findAndConstruct_refines h (hc key rfl) hok
      refine ⟨s', ?_, href⟩
      simp only [HashClass.call, hrun, ok_bind, bucketAt_some hget, DictMap.call]
  | subscript key =>
      obtain ⟨s', i, hrun, href, hget, -⟩ := L.findAndConstruct_refines h (hc key rfl) hok
      refine ⟨s', ?_, href⟩
      simp only [HashClass.call, hrun, ok_bind, bucketAt_some hget, DictMap.call]
  | store key value =>
      obtain ⟨s₁, i, hrun, href, hget, hord, hclass⟩ :=
        L.findAndConstruct_refines h (hc key rfl) hok
      obtain ⟨s', hrun', href'⟩ := L.assignAt_refines href hget hord value
      rw [hclass] at href'
      refine ⟨s', ?_, ?_⟩
      · simp only [HashClass.call, hrun, hrun', ok_bind, DictMap.call]
      · exact href'
  | find key =>
      refine ⟨s, ?_, h⟩
      rcases h.2.lookupBucketFor hwf (hc key rfl) with
        ⟨i, b, hlook, hget, -, hb, -⟩ | ⟨bucket, hlook, habs, -⟩
      · have hi : i ≠ getNumBuckets (C.table s) := by
          have : i < (C.table s).buckets.length := (List.getElem?_eq_some_iff.mp hget).1
          exact Nat.ne_of_lt this
        simp only [HashClass.call, find, hlook, ok_bind, if_true, bucketAt_some hget, if_neg hi,
          DictMap.call, hb]
      · simp only [HashClass.call, find, hlook, ok_bind, Bool.false_eq_true, if_false, if_true,
          DictMap.call, habs]
  | count key =>
      refine ⟨s, ?_, h⟩
      rcases h.2.lookupBucketFor hwf (hc key rfl) with
        ⟨i, b, hlook, -, -, hb, -⟩ | ⟨bucket, hlook, habs, -⟩
      · simp only [HashClass.call, count, hlook, ok_bind, if_true, DictMap.call, hb,
          Option.isSome_some]
      · simp only [HashClass.call, count, hlook, ok_bind, Bool.false_eq_true, if_false,
          DictMap.call, habs, Option.isSome_none]
  | size =>
      refine ⟨s, ?_, h⟩
      simp only [HashClass.call, size, DictMap.call, h.2.numEntries hwf]
  | clear =>
      obtain ⟨s', hrun, href⟩ := L.clear_refines h hok
      refine ⟨s', ?_, href⟩
      simp only [HashClass.call, hrun, ok_bind, DictMap.call]
  | reserve n =>
      obtain ⟨s', hrun, href⟩ := L.reserve_refines h hok
      refine ⟨s', ?_, href⟩
      simp only [HashClass.call, hrun, ok_bind, DictMap.call]

/-! ### Programs -/

/-- The objects of a program are in states for the maps. -/
def RefinesAll (env : List S) (maps : List (DictMap T)) : Prop :=
  env.length = maps.length ∧ ∀ (i : Nat) (s : S), env[i]? = some s → L.Refines s (maps.getD i ∅)

section Env
variable {L} {env : List S} {maps : List (DictMap T)}

theorem RefinesAll.objectAt (h : L.RefinesAll env maps) {i : Nat} (hi : i < env.length) :
    ∃ s, objectAt env i = .ok s ∧ env[i]? = some s ∧ L.Refines s (maps.getD i ∅) := by
  have hget := List.getElem?_eq_getElem hi
  exact ⟨env[i], by simp only [Rx.objectAt, hget], hget, h.2 i _ hget⟩

theorem RefinesAll.set (h : L.RefinesAll env maps) {s : S} {m : DictMap T} (hs : L.Refines s m)
    (i : Nat) : L.RefinesAll (env.set i s) (maps.set i m) := by
  refine ⟨by rw [List.length_set, List.length_set, h.1], ?_⟩
  intro j s' hj
  rw [List.getElem?_set] at hj
  rw [List.getD_eq_getElem?_getD, List.getElem?_set]
  by_cases hij : i = j
  · subst hij
    rw [if_pos rfl] at hj ⊢
    split at hj
    next hlt =>
      obtain rfl : s = s' := Option.some.inj hj
      rw [if_pos (by rw [← h.1]; exact hlt)]
      exact hs
    next => cases hj
  · rw [if_neg hij] at hj ⊢
    rw [← List.getD_eq_getElem?_getD]
    exact h.2 j s' hj

theorem RefinesAll.push (h : L.RefinesAll env maps) {s : S} {m : DictMap T}
    (hs : L.Refines s m) : L.RefinesAll (env ++ [s]) (maps ++ [m]) := by
  refine ⟨by simp [h.1], ?_⟩
  intro j s' hj
  rw [List.getD_eq_getElem?_getD]
  rcases Nat.lt_trichotomy j env.length with hlt | rfl | hgt
  · rw [List.getElem?_append_left hlt] at hj
    rw [List.getElem?_append_left (by rw [← h.1]; exact hlt), ← List.getD_eq_getElem?_getD]
    exact h.2 j s' hj
  · rw [List.getElem?_concat_length] at hj
    obtain rfl : s = s' := Option.some.inj hj
    rw [h.1, List.getElem?_concat_length]
    exact hs
  · rw [List.getElem?_eq_none (by simp; omega)] at hj
    cases hj

end Env

/-- What an operation asks of the class. -/
def OpOk (env : List S) : Op K V → Prop
  | .construct n => L.ConstructOk n
  | .on i c => ∀ s, env[i]? = some s → L.CallOk s c
  | _ => True

theorem refines_cleared {s : S} (hinv : L.Inv s) (hc : Cleared T (C.table s)) : L.Refines s ∅ :=
  ⟨hinv, hc.models⟩

/-- Every operation computes the maps' own. -/
theorem step_refines {env : List S} {maps : List (DictMap T)} (h : L.RefinesAll env maps)
    (op : Op K V) (hop : op.Proper T env.length) (hok : L.OpOk env op) :
    ∃ env', C.step T env op = .ok (env', (DictMap.step maps op).2) ∧
      L.RefinesAll env' (DictMap.step maps op).1 := by
  cases op with
  | construct n =>
      obtain ⟨s, hrun, hinv, hclr⟩ := L.construct hok
      refine ⟨env ++ [s], ?_, h.push (L.refines_cleared hinv hclr)⟩
      simp only [HashClass.step, hrun, ok_bind, DictMap.step]
  | copyConstruct i =>
      obtain ⟨s, hobj, -, hs⟩ := h.objectAt hop
      obtain ⟨s', hrun, hinv, hsame⟩ := L.copyConstruct hs.1
      refine ⟨env ++ [s'], ?_, h.push ⟨hinv, hs.2.same hsame⟩⟩
      simp only [HashClass.step, hobj, hrun, ok_bind, DictMap.step]
  | moveConstruct i =>
      obtain ⟨s, hobj, -, hs⟩ := h.objectAt hop
      obtain ⟨s', rest, hrun, hinv, hsame, hinvr, hclr⟩ := L.moveConstruct hs.1
      refine ⟨env.set i rest ++ [s'], ?_,
        (h.set (L.refines_cleared hinvr hclr) i).push ⟨hinv, hs.2.same hsame⟩⟩
      simp only [HashClass.step, hobj, hrun, ok_bind, DictMap.step]
  | assign i j =>
      obtain ⟨s, hobj, -, hs⟩ := h.objectAt hop.1
      obtain ⟨o, hobj', -, ho⟩ := h.objectAt hop.2
      by_cases hij : i = j
      · subst hij
        refine ⟨env.set i s, ?_, h.set hs i⟩
        simp only [HashClass.step, hobj, beq_self_eq_true, L.assign_self, ok_bind, DictMap.step]
      · obtain ⟨s', hrun, hinv, hsame⟩ := L.assign hs.1 ho.1
        refine ⟨env.set i s', ?_, h.set ⟨hinv, ho.2.same hsame⟩ i⟩
        simp only [HashClass.step, hobj, hobj', beq_false_of_ne hij, hrun, ok_bind, DictMap.step]
  | moveAssign i j =>
      obtain ⟨s, hobj, -, hs⟩ := h.objectAt hop.1
      obtain ⟨o, hobj', -, ho⟩ := h.objectAt hop.2
      by_cases hij : i = j
      · subst hij
        obtain ⟨s', rest, hrun, hinv, hclr⟩ := L.moveAssign_self hs.1
        refine ⟨(env.set i rest).set i s', ?_, ?_⟩
        · simp only [HashClass.step, hobj, beq_self_eq_true, hrun, ok_bind, DictMap.step]
        · simp only [DictMap.step, if_true, List.set_set]
          exact h.set (L.refines_cleared hinv hclr) i
      · obtain ⟨s', rest, hrun, hinv, hsame, hinvr, hclr⟩ := L.moveAssign hs.1 ho.1
        refine ⟨(env.set j rest).set i s', ?_, ?_⟩
        · simp only [HashClass.step, hobj, hobj', beq_false_of_ne hij, hrun, ok_bind,
            DictMap.step]
        · simp only [DictMap.step, if_neg hij]
          exact (h.set (L.refines_cleared hinvr hclr) j).set ⟨hinv, ho.2.same hsame⟩ i
  | swap i j =>
      obtain ⟨s, hobj, -, hs⟩ := h.objectAt hop.1
      obtain ⟨o, hobj', -, ho⟩ := h.objectAt hop.2
      by_cases hij : i = j
      · subst hij
        obtain ⟨s', o', hrun, hinv, hsame⟩ := L.swap_self hs.1
        refine ⟨(env.set i o').set i s', ?_, ?_⟩
        · simp only [HashClass.step, hobj, beq_self_eq_true, hrun, ok_bind, DictMap.step]
        · simp only [DictMap.step, List.set_set]
          exact h.set ⟨hinv, hs.2.same hsame⟩ i
      · obtain ⟨s', o', hrun, hinv, hsame, hinv', hsame'⟩ := L.swap hs.1 ho.1
        refine ⟨(env.set j o').set i s', ?_, ?_⟩
        · simp only [HashClass.step, hobj, hobj', beq_false_of_ne hij, hrun, ok_bind,
            DictMap.step]
        · exact (h.set ⟨hinv', hs.2.same hsame'⟩ j).set ⟨hinv, ho.2.same hsame⟩ i
  | on i c =>
      obtain ⟨s, hobj, hget, hs⟩ := h.objectAt hop.1
      obtain ⟨s', hrun, href⟩ := L.call_refines hs c hop.2 (hok s hget)
      refine ⟨env.set i s', ?_, h.set href i⟩
      simp only [HashClass.step, hobj, hrun, ok_bind, DictMap.step]

/-- Every operation of the program is proper and granted. -/
def RunOk (env : List S) : List (Op K V) → Prop
  | [] => True
  | op :: ops => op.Proper T env.length ∧ L.OpOk env op ∧
      ∀ env' a, C.step T env op = .ok (env', a) → RunOk env' ops

/-- Every program computes the maps' own. -/
theorem run_refines (ops : List (Op K V)) :
    ∀ {env : List S} {maps : List (DictMap T)}, L.RefinesAll env maps → L.RunOk env ops →
      ∃ env', C.run T env ops = .ok (env', (DictMap.run maps ops).2) ∧
        L.RefinesAll env' (DictMap.run maps ops).1 := by
  induction ops with
  | nil => exact fun h _ => ⟨_, rfl, h⟩
  | cons op ops ih =>
      intro env maps h ⟨hop, hok, hrest⟩
      obtain ⟨env₁, hstep, href⟩ := L.step_refines h op hop hok
      obtain ⟨env', hrun, href'⟩ := ih href (hrest _ _ hstep)
      refine ⟨env', ?_, href'⟩
      simp only [HashClass.run, hstep, hrun, ok_bind, DictMap.run]

end Laws

end Rx
