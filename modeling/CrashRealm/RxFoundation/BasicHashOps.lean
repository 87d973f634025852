/-
# `RxFoundation.BasicHashOps` — what the base-class functions do

One specification for each function of `BasicHashTable` that touches the table
alone, over the invariant of `BasicHashLookup`.  What a function does to the
contents is said by membership: which live buckets the new array holds
(`Stored`).  Callers cite these and never unfold the functions again.
-/
import CrashRealm.RxFoundation.BasicHashLookup

namespace Rx

open OpenAddressing

variable {K V : Type} {T : TableType K V} {t : Table K V}

/-- `b` is a live bucket of the table. -/
def Stored (T : TableType K V) (t : Table K V) (b : Bucket K V) : Prop :=
  Slot.live b ∈ slotsOf T t.buckets

theorem stored_iff {b : Bucket K V} : Stored T t b ↔ b ∈ t.buckets ∧ Ordinary T b.key :=
  mem_slotsOf_live

/-- A table without entries, of which nothing is left but its size and epoch. -/
structure Cleared (T : TableType K V) (t : Table K V) : Prop where
  wellFormed : WellFormed T t
  entries : t.numEntries = 0
  tombs : t.numTombstones = 0
  none_stored : ∀ b, ¬ Stored T t b

/-- Two tables with the same contents. -/
structure SameContents (T : TableType K V) (t t' : Table K V) : Prop where
  entries : t'.numEntries = t.numEntries
  stored : ∀ b, Stored T t' b ↔ Stored T t b

/-- The bucket counts an array can have. -/
def PowerOrZero (n : Nat) : Prop := n = 0 ∨ ∃ e ≤ 63, n = 2 ^ e

theorem PowerOrZero.and_pred {n : Nat} (h : PowerOrZero n) : n &&& (n - 1) = 0 := by
  rcases h with rfl | ⟨e, -, rfl⟩
  · rfl
  · rw [Nat.and_two_pow_sub_one_eq_mod, Nat.mod_self]

/-- Twice a bucket count is one, short of the largest. -/
theorem PowerOrZero.double {n : Nat} (h : PowerOrZero n) (hle : n ≤ 2 ^ 62) :
    PowerOrZero (n * 2) := by
  rcases h with rfl | ⟨e, he, rfl⟩
  · exact Or.inl rfl
  · refine Or.inr ⟨e + 1, ?_, (Nat.pow_succ ..).symm⟩
    have hexp := (Nat.pow_le_pow_iff_right (by decide : 1 < 2)).mp hle
    omega

/-- An array of empty buckets under zero counters. -/
theorem cleared_of_empty {bs : List (Bucket K V)} {e : Nat} (hpow : PowerOrZero bs.length)
    (hs : slotsOf T bs = List.replicate bs.length .empty) : Cleared T ⟨bs, 0, 0, e⟩ where
  wellFormed :=
    { pow := hpow
      entries := by simp [hs]
      tombs := by simp [hs]
      room := fun h => by simpa using Nat.pos_of_ne_zero h
      valid := by
        simp only [hs]
        exact valid_replicate_empty _ }
  entries := rfl
  tombs := rfl
  none_stored := by
    intro b hb
    rw [Stored, hs] at hb
    exact absurd (List.eq_of_mem_replicate hb) nofun

/-- Counters and buckets decide everything but the epoch. -/
theorem WellFormed.epoch (h : WellFormed T t) (epoch : Nat) :
    WellFormed T { t with epoch := epoch } :=
  ⟨h.pow, h.entries, h.tombs, h.room, h.valid⟩

theorem same_epoch (t : Table K V) (epoch : Nat) : SameContents T t { t with epoch := epoch } :=
  ⟨rfl, fun _ => Iff.rfl⟩

theorem Cleared.of_same {t' : Table K V} (h : Cleared T t) (hwf : WellFormed T t')
    (htomb : t'.numTombstones = t.numTombstones) (hs : SameContents T t t') : Cleared T t' :=
  ⟨hwf, hs.entries.trans h.entries, htomb.trans h.tombs,
    fun b hb => h.none_stored b ((hs.stored b).mp hb)⟩

theorem Cleared.epoch (h : Cleared T t) (epoch : Nat) : Cleared T { t with epoch := epoch } :=
  h.of_same (h.wellFormed.epoch epoch) rfl (same_epoch t epoch)

theorem WellFormed.entries_eq_zero (h : WellFormed T t) (h0 : t.buckets.length = 0) :
    t.numEntries = 0 := by
  rw [h.entries, List.eq_nil_of_length_eq_zero h0]
  rfl

/-- A table with no entries stores nothing. -/
theorem WellFormed.none_stored (h : WellFormed T t) (h0 : t.numEntries = 0) (b : Bucket K V) :
    ¬ Stored T t b := by
  intro hb
  obtain ⟨i, hi⟩ := List.mem_iff_getElem?.mp hb
  have := liveCount_pos hi
  rw [← h.entries] at this
  omega

/-- A table whose slots and counters are those of another one. -/
theorem WellFormed.of_slots {other : Table K V} (h : WellFormed T other)
    (hslots : slotsOf T t.buckets = slotsOf T other.buckets)
    (hent : t.numEntries = other.numEntries) (htomb : t.numTombstones = other.numTombstones) :
    WellFormed T t ∧ SameContents T other t := by
  have hlen : t.buckets.length = other.buckets.length := by
    rw [← length_slotsOf (T := T), hslots, length_slotsOf]
  refine ⟨⟨?_, ?_, ?_, ?_, ?_⟩, hent, fun b => by rw [Stored, Stored, hslots]⟩
  · rw [hlen]
    exact h.pow
  · rw [hent, hslots, h.entries]
  · rw [htomb, hslots, h.tombs]
  · rw [hent, htomb, hlen]
    exact h.room
  · rw [hlen, hslots]
    exact h.valid

/-- Live buckets of the list have distinct classes. -/
def Distinct (T : TableType K V) (bs : List (Bucket K V)) : Prop :=
  bs.Pairwise fun a b => Ordinary T a.key → Ordinary T b.key → bucketClass T a ≠ bucketClass T b

theorem WellFormed.distinct (h : WellFormed T t) : Distinct T t.buckets := by
  rw [Distinct, List.pairwise_iff_getElem]
  intro i j hi hj hij ha hb hab
  have hai := slotsOf_getElem?_live.mpr ⟨List.getElem?_eq_getElem hi, ha⟩
  have hbj := slotsOf_getElem?_live.mpr ⟨List.getElem?_eq_getElem hj, hb⟩
  have := h.valid.distinct i j _ _ hai hbj hab
  omega

namespace BasicHashTable

variable {entriesOk : Nat → Bool}

theorem setNumEntries_ok {num : Nat} (h : entriesOk num = true) :
    setNumEntries entriesOk num t = .ok { t with numEntries := num } := if_pos h

/-! ## Emptying the array -/

theorem initEmpty_spec (h0 : entriesOk 0 = true) (hpow : PowerOrZero t.buckets.length) :
    ∃ t', initEmpty entriesOk T t = .ok t' ∧ Cleared T t' ∧
      t'.buckets.length = t.buckets.length := by
  refine ⟨⟨t.buckets.map fun b => { b with key := T.getEmptyKey }, 0, 0, t.epoch⟩, ?_, ?_, ?_⟩
  · simp only [initEmpty, setNumEntries_ok h0, ok_bind, getNumBuckets]
    exact if_pos hpow.and_pred
  · apply cleared_of_empty
    · rwa [List.length_map]
    · rw [slotsOf_emptied, List.length_map]
  · exact List.length_map _

/-- An array whose length is not a power of two is refused. -/
theorem initEmpty_refuses (h0 : entriesOk 0 = true)
    (h : t.buckets.length &&& (t.buckets.length - 1) ≠ 0) :
    initEmpty entriesOk T t
      = .error (.assertion "# initial buckets must be a power of two!") := by
  simp only [initEmpty, setNumEntries_ok h0, ok_bind, getNumBuckets]
  exact if_neg h

/-- `clear` counts the live buckets down and leaves empty ones only. -/
theorem clearLoop_spec :
    ∀ (bs : List (Bucket K V)) (n : Nat), n < 2 ^ 64 → liveCount (slotsOf T bs) ≤ n →
      slotsOf T (clearLoop T bs n).1 = List.replicate bs.length .empty ∧
      (clearLoop T bs n).2 = n - liveCount (slotsOf T bs) := by
  intro bs
  induction bs with
  | nil => intro n _ _; exact ⟨rfl, rfl⟩
  | cons b bs ih =>
      intro n hn hle
      rw [liveCount_slotsOf_cons] at hle ⊢
      rw [clearLoop, List.length_cons, List.replicate_succ]
      by_cases h1 : T.isEqual b.key T.getEmptyKey = true
      · have hslot := slotOf_eq_empty_iff.mpr h1
        rw [hslot] at hle ⊢
        obtain ⟨hs, hc⟩ := ih n hn (by simpa using hle)
        rw [if_pos h1]
        refine ⟨?_, by simpa using hc⟩
        show slotOf T b :: slotsOf T _ = _
        rw [hslot, hs]
      · rw [if_neg h1]
        have hemp := slotOf_emptyKey (T := T) b.value
        by_cases h2 : T.isEqual b.key T.getTombstoneKey = true
        · rw [slotOf_eq_tombstone_iff.mpr h2] at hle ⊢
          obtain ⟨hs, hc⟩ := ih n hn (by simpa using hle)
          rw [if_pos h2]
          refine ⟨?_, by simpa using hc⟩
          show slotOf T ⟨T.getEmptyKey, b.value⟩ :: slotsOf T _ = _
          rw [hemp, hs]
        · have hord : Ordinary T b.key := ordinary_iff.mpr
            ⟨Bool.eq_false_of_not_eq_true h1, Bool.eq_false_of_not_eq_true h2⟩
          rw [slotOf_live hord] at hle ⊢
          simp only [Slot.isLive_live, if_true] at hle ⊢
          rw [if_neg h2, sub64_of_le hn (by omega)]
          obtain ⟨hs, hc⟩ := ih (n - 1) (by omega) (by omega)
          refine ⟨?_, by rw [hc]; omega⟩
          show slotOf T ⟨T.getEmptyKey, b.value⟩ :: slotsOf T _ = _
          rw [hemp, hs]

theorem clearBuckets_spec (h : WellFormed T t) (hfew : t.numEntries < 2 ^ 64) :
    ∃ bs, clearBuckets T t = .ok bs ∧ bs.length = t.buckets.length ∧
      slotsOf T bs = List.replicate bs.length .empty := by
  by_cases htriv : T.isTriviallyCopyable = true
  · refine ⟨_, if_pos htriv, List.length_map _, ?_⟩
    rw [slotsOf_emptied, List.length_map]
  · obtain ⟨hs, hc⟩ := clearLoop_spec (T := T) t.buckets t.numEntries hfew (Nat.le_of_eq h.entries.symm)
    have hlen : (clearLoop T t.buckets t.numEntries).1.length = t.buckets.length := by
      rw [← length_slotsOf (T := T), hs, List.length_replicate]
    rw [← h.entries, Nat.sub_self] at hc
    refine ⟨_, ?_, hlen, by rw [hs, hlen]⟩
    rw [clearBuckets, if_neg htriv]
    exact if_pos hc

/-! ## Looking up -/

theorem lookupBucketFor_nil (h0 : t.buckets.length = 0) (k : K) :
    lookupBucketFor T t k = .ok (false, none) := if_pos h0

/-- The two ways a lookup of an ordinary key ends: at the bucket holding it, or
with the key absent and the bucket to fill (none when there are no buckets). -/
theorem lookupBucketFor_spec (h : WellFormed T t) {k : K} (hk : Ordinary T k) :
    (∃ i b, lookupBucketFor T t k = .ok (true, some i) ∧ t.buckets[i]? = some b ∧
        Ordinary T b.key ∧ T.isEqual k b.key = true) ∨
    (∃ bucket, lookupBucketFor T t k = .ok (false, bucket) ∧
        (∀ b, Stored T t b → bucketClass T b ≠ classOf T k) ∧
        (t.buckets.length ≠ 0 → ∃ i, bucket = some i ∧
          Outcome (slotsOf T t.buckets) (probeOf T t.buckets.length (classOf T k))
            (fun b => T.isEqual k b.key) (false, i))) := by
  by_cases h0 : t.buckets.length = 0
  · refine Or.inr ⟨none, lookupBucketFor_nil h0 k, ?_, fun hne => absurd h0 hne⟩
    exact fun b hb => absurd hb (h.none_stored (h.entries_eq_zero h0) b)
  · obtain ⟨isFound, i, hlook, hout⟩ := h.lookup h0 hk
    cases isFound with
    | true =>
        generalize hr : (true, i) = r at hout
        cases hout with
        | absent => cases hr
        | @found n b hb hhit =>
            obtain ⟨rfl⟩ : i = _ := (Prod.mk.inj hr).2
            obtain ⟨hget, hord⟩ := slotsOf_getElem?_live.mp hb
            exact Or.inl ⟨_, b, hlook, hget, hord, hhit⟩
    | false =>
        refine Or.inr ⟨some i, hlook, ?_, fun _ => ⟨i, rfl, hout⟩⟩
        refine Outcome.not_stored ?_ h.valid hout
        intro b hb
        rw [← classOf_eq_iff]
        exact hb.symm

theorem bucketAt_some {i : Nat} {b : Bucket K V} (h : t.buckets[i]? = some b) :
    bucketAt t (some i) = .ok (i, b) := by
  simp only [bucketAt, h]

theorem assertBucketAt_some {i : Nat} {b : Bucket K V} (h : t.buckets[i]? = some b) :
    assertBucketAt t (some i) = .ok (i, b) := bucketAt_some h

/-! ## Filling and burying a bucket -/

/-- A bucket to fill that is not empty is a tombstone, and counted. -/
theorem numTombstones_pos (h : WellFormed T t) {p : Nat → Nat} {hit : Bucket K V → Bool} {i : Nat}
    (hout : Outcome (slotsOf T t.buckets) p hit (false, i)) {old : Bucket K V}
    (hget : t.buckets[i]? = some old) (hold : ¬ T.isEqual old.key T.getEmptyKey = true) :
    0 < t.numTombstones := by
  obtain ⟨n, e, -, -, -, -, hfree, -⟩ := hout.of_absent
  rw [h.tombs]
  rcases hfree with hs | hs
  · rw [getElem?_slotsOf, hget, Option.map_some, Option.some.injEq] at hs
    exact absurd (slotOf_eq_empty_iff.mp hs) hold
  · exact tombCount_pos hs

/-- The bucket an unsuccessful lookup settles on, and what filling it does: the
counters follow, and the contents gain exactly the new pair.  `numTombstones`
drops when a tombstone was reused. -/
theorem store_spec (h : WellFormed T t) {b : Bucket K V} (hb : Ordinary T b.key) {i : Nat}
    {hit : Bucket K V → Bool}
    (hout : Outcome (slotsOf T t.buckets) (probeOf T t.buckets.length (bucketClass T b)) hit
      (false, i))
    (hnew : ∀ c, Stored T t c → bucketClass T c ≠ bucketClass T b)
    (hroom : t.numEntries + 1 + t.numTombstones < t.buckets.length) :
    ∃ old, t.buckets[i]? = some old ∧
      let t' : Table K V := ⟨t.buckets.set i b, t.numEntries + 1,
        if T.isEqual old.key T.getEmptyKey then t.numTombstones else t.numTombstones - 1,
        t.epoch⟩
      WellFormed T t' ∧ (∀ c, Stored T t' c ↔ c = b ∨ Stored T t c) := by
  obtain ⟨n, e, hle, hp, hclear, -, hfree, -⟩ := hout.of_absent
  have hlt : i < t.buckets.length := by
    rw [← length_slotsOf (T := T)]
    rcases hfree with hs | hs
    · exact (List.getElem?_eq_some_iff.mp hs).1
    · exact (List.getElem?_eq_some_iff.mp hs).1
  have hget := List.getElem?_eq_getElem hlt
  generalize t.buckets[i] = old at hget
  have hold : (slotsOf T t.buckets)[i]? = some (slotOf T old) := by
    rw [getElem?_slotsOf, hget, Option.map_some]
  have hslots : slotsOf T (t.buckets.set i b) = (slotsOf T t.buckets).set i (.live b) := by
    rw [slotsOf_set, slotOf_live hb]
  have hnotlive : ∀ c, (slotsOf T t.buckets)[i]? ≠ some (.live c) := by
    intro c hc
    rcases hfree with hs | hs
    · rw [hs] at hc
      cases hc
    · rw [hs] at hc
      cases hc
  have hvalid : Valid (bucketClass T) (probeOf T (t.buckets.set i b).length)
      (slotsOf T (t.buckets.set i b)) := by
    rw [List.length_set, hslots, ← hp]
    exact h.valid.insert (fun j hj => hclear j (by omega)) hnew
  refine ⟨old, hget, ?_, ?_⟩
  · refine ⟨?_, ?_, ?_, ?_, hvalid⟩
    · simpa only [List.length_set] using h.pow
    · show t.numEntries + 1 = liveCount (slotsOf T (t.buckets.set i b))
      rw [hslots, h.entries]
      rcases hfree with hs | hs
      · rw [liveCount_set_live_of_empty hs]
      · rw [liveCount_set_live_of_tombstone hs]
    · show (if T.isEqual old.key T.getEmptyKey then t.numTombstones
        else t.numTombstones - 1) = tombCount (slotsOf T (t.buckets.set i b))
      rw [hslots]
      rcases hfree with hs | hs
      · rw [hs, Option.some.injEq] at hold
        rw [if_pos (slotOf_eq_empty_iff.mp hold.symm), tombCount_set_live_of_empty hs, h.tombs]
      · have hne : ¬ T.isEqual old.key T.getEmptyKey = true := by
          intro he
          rw [hs, slotOf_eq_empty_iff.mpr he] at hold
          cases hold
        rw [if_neg hne, tombCount_set_live_of_tombstone hs, h.tombs]
    · intro _
      have hle : (if T.isEqual old.key T.getEmptyKey then t.numTombstones
          else t.numTombstones - 1) ≤ t.numTombstones := by
        split
        · exact Nat.le_refl _
        · exact Nat.sub_le _ _
      show t.numEntries + 1 + (if _ then _ else _) < (t.buckets.set i b).length
      rw [List.length_set]
      exact Nat.lt_of_le_of_lt (Nat.add_le_add_left hle _) hroom
  · intro c
    show Slot.live c ∈ slotsOf T (t.buckets.set i b) ↔ _
    rw [hslots]
    exact mem_set_live_of_free (by rwa [length_slotsOf]) hnotlive b c

/-- What `erase` does to the bucket it found. -/
theorem bury_spec (h : WellFormed T t) {i : Nat} {b : Bucket K V} (hget : t.buckets[i]? = some b)
    (hb : Ordinary T b.key) :
    let t' : Table K V := ⟨t.buckets.set i { b with key := T.getTombstoneKey },
      t.numEntries - 1, t.numTombstones + 1, t.epoch⟩
    WellFormed T t' ∧ 0 < t.numEntries ∧
      (∀ c, Stored T t' c ↔ Stored T t c ∧ bucketClass T c ≠ bucketClass T b) := by
  have hlive : (slotsOf T t.buckets)[i]? = some (.live b) := slotsOf_getElem?_live.mpr ⟨hget, hb⟩
  have hpos : 0 < t.numEntries := by
    rw [h.entries]
    exact liveCount_pos hlive
  have hslots : slotsOf T (t.buckets.set i { b with key := T.getTombstoneKey })
      = (slotsOf T t.buckets).set i .tombstone := by
    rw [slotsOf_set, slotOf_tombstoneKey]
  have hroom := h.room (by
    have := (List.getElem?_eq_some_iff.mp hget).1
    omega)
  refine ⟨⟨?_, ?_, ?_, ?_, ?_⟩, hpos, ?_⟩
  · simpa only [List.length_set] using h.pow
  · show t.numEntries - 1 = _
    rw [hslots, liveCount_set_tombstone hlive, h.entries]
  · show t.numTombstones + 1 = _
    rw [hslots, tombCount_set_tombstone hlive, h.tombs]
  · intro _
    show t.numEntries - 1 + (t.numTombstones + 1) < (t.buckets.set i _).length
    rw [List.length_set]
    omega
  · show Valid _ (probeOf T (t.buckets.set i _).length) _
    rw [List.length_set, hslots]
    exact h.valid.erase i
  · intro c
    show Slot.live c ∈ slotsOf T (t.buckets.set i _) ↔ _
    rw [hslots]
    exact h.valid.mem_set_tombstone hlive c

/-- What a store through `operator[]`'s reference does. -/
theorem overwrite_spec (h : WellFormed T t) {i : Nat} {b : Bucket K V}
    (hget : t.buckets[i]? = some b) (hb : Ordinary T b.key) (v : V) :
    let t' : Table K V := { t with buckets := t.buckets.set i { b with value := v } }
    WellFormed T t' ∧ (∀ c, Stored T t' c ↔
      c = { b with value := v } ∨ (Stored T t c ∧ bucketClass T c ≠ bucketClass T b)) := by
  have hlive : (slotsOf T t.buckets)[i]? = some (.live b) := slotsOf_getElem?_live.mpr ⟨hget, hb⟩
  have hslots : slotsOf T (t.buckets.set i { b with value := v })
      = (slotsOf T t.buckets).set i (.live { b with value := v }) := by
    rw [slotsOf_set, slotOf_live (b := { b with value := v }) hb]
  refine ⟨⟨?_, ?_, ?_, ?_, ?_⟩, ?_⟩
  · simpa only [List.length_set] using h.pow
  · show t.numEntries = _
    rw [hslots, liveCount_set_live_of_live hlive, h.entries]
  · show t.numTombstones = _
    rw [hslots, tombCount_set_live_of_live hlive, h.tombs]
  · intro hne
    simp only [List.length_set] at hne ⊢
    exact h.room hne
  · show Valid _ (probeOf T (t.buckets.set i _).length) _
    rw [List.length_set, hslots]
    exact h.valid.replace hlive rfl
  · intro c
    show Slot.live c ∈ slotsOf T (t.buckets.set i _) ↔ _
    rw [hslots]
    exact h.valid.mem_set_live hlive c

/-! ## Rehashing -/

/-- A live bucket is stored again, in a table free of tombstones. -/
theorem moveLoop_cons (h : WellFormed T t) (htomb : t.numTombstones = 0) {b : Bucket K V}
    (hb : Ordinary T b.key) (bs : List (Bucket K V))
    (hnew : ∀ c, Stored T t c → bucketClass T c ≠ bucketClass T b)
    (hroom : t.numEntries + 1 < t.buckets.length) (hok : entriesOk (t.numEntries + 1) = true) :
    ∃ t', moveLoop entriesOk T (b :: bs) t = moveLoop entriesOk T bs t' ∧ WellFormed T t' ∧
      t'.numTombstones = 0 ∧ t'.numEntries = t.numEntries + 1 ∧
      t'.buckets.length = t.buckets.length ∧ ∀ c, Stored T t' c ↔ c = b ∨ Stored T t c := by
  have hne : t.buckets.length ≠ 0 := by omega
  rcases lookupBucketFor_spec h hb with ⟨i, c, -, hget, hc, hkey⟩ | ⟨_, hlook, -, hsome⟩
  · -- the key cannot be in the new array already
    have hclass := hnew c (stored_iff.mpr ⟨List.mem_of_getElem? hget, hc⟩)
    exact absurd (classOf_eq_iff.mpr hkey).symm hclass
  · obtain ⟨i, rfl, hout⟩ := hsome hne
    obtain ⟨old, hget, hwf, hmem⟩ := store_spec h hb hout hnew (by omega)
    have hlt := h.length_lt
    have hstep : moveLoop entriesOk T (b :: bs) t = moveLoop entriesOk T bs
        ⟨t.buckets.set i b, t.numEntries + 1, t.numTombstones, t.epoch⟩ := by
      have hb' : isLiveKey T b.key = true := hb
      rw [moveLoop, if_pos hb', hlook]
      simp only [ok_bind, Bool.false_eq_true, if_false, bucketAt_some hget]
      rw [u64_of_lt (by omega), setNumEntries_ok hok]
      rfl
    rw [htomb] at hwf hmem hstep
    simp only [Nat.zero_sub, ite_self] at hwf hmem
    exact ⟨_, hstep, hwf, rfl, rfl, List.length_set, hmem⟩

/-- Every live bucket of the list is stored again, in a table free of
tombstones with room for all of them.  The induction is on the old array. -/
theorem moveLoop_spec :
    ∀ (bs : List (Bucket K V)) (t : Table K V), WellFormed T t → t.numTombstones = 0 →
      Distinct T bs →
      (∀ a ∈ bs, Ordinary T a.key → ∀ c, Stored T t c → bucketClass T c ≠ bucketClass T a) →
      t.numEntries + liveCount (slotsOf T bs) < t.buckets.length →
      (∀ n ≤ t.numEntries + liveCount (slotsOf T bs), entriesOk n = true) →
      ∃ t', moveLoop entriesOk T bs t = .ok t' ∧ WellFormed T t' ∧ t'.numTombstones = 0 ∧
        t'.numEntries = t.numEntries + liveCount (slotsOf T bs) ∧
        t'.buckets.length = t.buckets.length ∧
        (∀ c, Stored T t' c ↔ Slot.live c ∈ slotsOf T bs ∨ Stored T t c) := by
  intro bs
  induction bs with
  | nil =>
      intro t h htomb _ _ _ _
      exact ⟨t, rfl, h, htomb, rfl, rfl, fun c => by simp [slotsOf]⟩
  | cons b bs ih =>
      intro t h htomb hdis hfresh hroom hok
      obtain ⟨hhead, htail⟩ := List.pairwise_cons.mp hdis
      have hcons := liveCount_slotsOf_cons (T := T) b bs
      by_cases hb : Ordinary T b.key
      · rw [slotOf_live hb, Slot.isLive_live, if_pos rfl] at hcons
        rw [hcons] at hroom hok
        obtain ⟨t₁, hstep, hwf, htomb₁, hentries, hlength, hmem⟩ := moveLoop_cons h htomb hb bs
          (hfresh b List.mem_cons_self hb) (by omega) (hok _ (by omega))
        have hfresh₁ : ∀ a ∈ bs, Ordinary T a.key → ∀ c, Stored T t₁ c →
            bucketClass T c ≠ bucketClass T a := by
          intro a ha hao c hc
          rcases (hmem c).mp hc with rfl | hc
          · exact hhead a ha hb hao
          · exact hfresh a (List.mem_cons_of_mem _ ha) hao c hc
        obtain ⟨t', hrun, hwf', htomb', hent, hlen, hst⟩ := ih t₁ hwf htomb₁ htail hfresh₁
          (by omega) (fun n hn => hok n (by omega))
        refine ⟨t', hstep.trans hrun, hwf', htomb', by omega, hlen.trans hlength, fun c => ?_⟩
        rw [hst, hmem, mem_slotsOf_live, mem_slotsOf_live, List.mem_cons]
        constructor
        · rintro (⟨hc, ho⟩ | rfl | hc)
          · exact Or.inl ⟨Or.inr hc, ho⟩
          · exact Or.inl ⟨Or.inl rfl, hb⟩
          · exact Or.inr hc
        · rintro (⟨rfl | hc, ho⟩ | hc)
          · exact Or.inr (Or.inl rfl)
          · exact Or.inl ⟨hc, ho⟩
          · exact Or.inr (Or.inr hc)
      · -- an empty bucket or a tombstone is passed over
        have hb' : ¬ isLiveKey T b.key = true := hb
        have hdead : (slotOf T b).isLive = false := by
          cases hs : slotOf T b with
          | empty => rfl
          | tombstone => rfl
          | live a => exact absurd (slotOf_eq_live_iff.mp hs).2 hb
        rw [hdead] at hcons
        simp only [Bool.false_eq_true, if_false, Nat.add_zero] at hcons
        rw [hcons] at hroom hok
        obtain ⟨t', hrun, hwf', htomb', hent, hlen, hst⟩ := ih t h htomb htail
          (fun a ha => hfresh a (List.mem_cons_of_mem _ ha)) hroom hok
        refine ⟨t', ?_, hwf', htomb', by rw [hent, hcons], hlen, ?_⟩
        · rw [moveLoop, if_neg hb', hrun]
        · intro c
          rw [hst, mem_slotsOf_live, mem_slotsOf_live, List.mem_cons]
          constructor
          · rintro (⟨hc, ho⟩ | hc)
            · exact Or.inl ⟨Or.inr hc, ho⟩
            · exact Or.inr hc
          · rintro (⟨rfl | hc, ho⟩ | hc)
            · exact absurd ho hb
            · exact Or.inl ⟨hc, ho⟩
            · exact Or.inr hc

/-- `moveFromOldBuckets` into an array of the right size: the live buckets of
`bs`, no tombstones. -/
theorem moveFromOldBuckets_spec {bs : List (Bucket K V)} (hpow : PowerOrZero t.buckets.length)
    (hdis : Distinct T bs) (hroom : liveCount (slotsOf T bs) < t.buckets.length)
    (hok : ∀ n ≤ liveCount (slotsOf T bs), entriesOk n = true) :
    ∃ t', moveFromOldBuckets entriesOk T bs t = .ok t' ∧ WellFormed T t' ∧
      t'.numTombstones = 0 ∧ t'.numEntries = liveCount (slotsOf T bs) ∧
      t'.buckets.length = t.buckets.length ∧
      (∀ c, Stored T t' c ↔ Slot.live c ∈ slotsOf T bs) := by
  obtain ⟨t₀, hinit, hclr, hlen₀⟩ := initEmpty_spec (hok 0 (Nat.zero_le _)) hpow
  have hzero : ∀ c, ¬ Stored T t₀ c := hclr.none_stored
  obtain ⟨t', hrun, hwf, htomb, hent, hlen, hst⟩ := moveLoop_spec bs t₀ hclr.wellFormed hclr.tombs
    hdis (fun a _ _ c hc => absurd hc (hzero c)) (by rw [hclr.entries, hlen₀]; omega)
    (by rw [hclr.entries, Nat.zero_add]; exact hok)
  refine ⟨t', ?_, hwf, htomb, by rw [hent, hclr.entries, Nat.zero_add], hlen.trans hlen₀, ?_⟩
  · rw [moveFromOldBuckets, hinit]
    exact hrun
  · intro c
    rw [hst]
    exact or_iff_left (hzero c)

/-! ## Copying -/

/-- What a bucket is does not change when it is copied. -/
theorem slotOf_copyBucket (mine theirs : Bucket K V) :
    slotOf T (copyBucket T mine theirs) = slotOf T theirs := by
  unfold copyBucket
  split
  next => rfl
  next h =>
    -- the class of a bucket that is not live is decided by its key alone
    have hne : ¬ Ordinary T theirs.key := h
    by_cases h1 : T.isEqual theirs.key T.getEmptyKey = true
    · rw [slotOf_eq_empty_iff.mpr h1]
      exact slotOf_eq_empty_iff.mpr h1
    · have h2 : T.isEqual theirs.key T.getTombstoneKey = true := by
        by_contra h2
        exact hne (ordinary_iff.mpr ⟨Bool.eq_false_of_not_eq_true h1,
          Bool.eq_false_of_not_eq_true h2⟩)
      rw [slotOf_eq_tombstone_iff.mpr h2]
      exact slotOf_eq_tombstone_iff.mpr h2

theorem slotsOf_zipWith_copyBucket :
    ∀ (mine theirs : List (Bucket K V)), mine.length = theirs.length →
      slotsOf T (List.zipWith (copyBucket T) mine theirs) = slotsOf T theirs := by
  intro mine
  induction mine with
  | nil =>
      intro theirs h
      rw [List.eq_nil_of_length_eq_zero h.symm]
      rfl
  | cons a mine ih =>
      intro theirs h
      cases theirs with
      | nil => cases h
      | cons b theirs =>
          show slotOf T (copyBucket T a b) :: slotsOf T (List.zipWith _ mine theirs) = _
          rw [slotOf_copyBucket, ih theirs (Nat.succ.inj h)]
          rfl

theorem copyFrom_spec {other : Table K V} (h : WellFormed T other)
    (hlen : t.buckets.length = other.buckets.length)
    (hok : entriesOk other.numEntries = true) :
    ∃ t', copyFrom entriesOk T t other = .ok t' ∧ WellFormed T t' ∧ SameContents T other t' ∧
      t'.buckets.length = other.buckets.length := by
  by_cases hpod : T.isPodLike = true
  · refine ⟨⟨other.buckets, other.numEntries, other.numTombstones, t.epoch⟩, ?_, ?_⟩
    · rw [copyFrom, if_pos (show getNumBuckets t = getNumBuckets other from hlen)]
      simp only [setNumEntries_ok hok, ok_bind, hpod, if_true]
    · obtain ⟨hwf, hsame⟩ := h.of_slots
        (t := ⟨other.buckets, other.numEntries, other.numTombstones, t.epoch⟩) rfl rfl rfl
      exact ⟨hwf, hsame, rfl⟩
  · refine ⟨⟨List.zipWith (copyBucket T) t.buckets other.buckets, other.numEntries,
      other.numTombstones, t.epoch⟩, ?_, ?_⟩
    · rw [copyFrom, if_pos (show getNumBuckets t = getNumBuckets other from hlen)]
      simp only [setNumEntries_ok hok, ok_bind, hpod, Bool.false_eq_true, if_false]
    · obtain ⟨hwf, hsame⟩ := h.of_slots (t := ⟨List.zipWith (copyBucket T) t.buckets
        other.buckets, other.numEntries, other.numTombstones, t.epoch⟩)
        (slotsOf_zipWith_copyBucket _ _ hlen) rfl rfl
      refine ⟨hwf, hsame, ?_⟩
      show (List.zipWith _ _ _).length = _
      rw [List.length_zipWith, hlen, Nat.min_self]

end BasicHashTable

end Rx
