/-
# `RxFoundation.DictionaryLoad` — the load of a dictionary, without a bound on it

`Reached` is the state of any program that owns `Dictionary` objects, however many
entries they have.  What keeps their tables well formed is the load: less than three
quarters of the buckets are taken, and never more than `3 * 2^60`.

Up to `2^62` buckets the arithmetic of `insertIntoBucketImpl` is exact.  Of `2^63`
buckets three times the number wraps, and twice the number wraps to zero: `grow` then
allocates 64 buckets and cannot return, since each entry it moves fills another one of
them (`grow_stuck`).
-/
import CrashRealm.RxFoundation.DictionarySpec
import CrashRealm.RxFoundation.DictionaryIteratorSpec

namespace Rx

open OpenAddressing BasicHashTable

variable {K V : Type} {T : TableType K V}

/-! ## Moving entries fills buckets -/

/-- The slot can take a new entry. -/
def FreeSlot (T : TableType K V) (buckets : List (Bucket K V)) (i : Nat) : Prop :=
  (slotsOf T buckets)[i]? = some .empty ∨ (slotsOf T buckets)[i]? = some .tombstone

/-- A loop that ends without the key ends at a free slot: the first tombstone on its
way, or the empty bucket. -/
theorem probeLoop_free {buckets : List (Bucket K V)} {value : K} :
    ∀ (rounds bucketIndex probeAmt : Nat) (tomb : Option Nat),
      (∀ i ∈ tomb, FreeSlot T buckets i) →
      Ends anyFault (probeLoop T buckets value rounds bucketIndex probeAmt tomb)
        fun r => r.1 = false → FreeSlot T buckets r.2 := by
  intro rounds
  induction rounds with
  | zero =>
      intro bucketIndex probeAmt tomb _
      trivial
  | succ rounds ih =>
      intro bucketIndex probeAmt tomb htomb
      rw [probeLoop]
      cases hget : buckets[bucketIndex]? with
      | none => trivial
      | some b =>
          have hslot : (slotsOf T buckets)[bucketIndex]? = some (slotOf T b) := by
            rw [getElem?_slotsOf, hget, Option.map_some]
          dsimp only
          split
          next =>
            intro h
            cases h
          next =>
            split
            next hempty =>
              intro _
              cases tomb with
              | none =>
                  refine .inl (hslot.trans (congrArg some (slotOf_eq_empty_iff.mpr ?_)))
                  rwa [T.isEqual_comm]
              | some i => exact htomb i rfl
            next =>
              apply ih
              intro i hi
              split at hi
              next hbury =>
                obtain ⟨rfl⟩ : bucketIndex = i := Option.some.inj hi
                obtain ⟨hkey, -⟩ := Bool.and_eq_true_iff.mp hbury
                refine .inr (hslot.trans (congrArg some (slotOf_eq_tombstone_iff.mpr ?_)))
                rwa [T.isEqual_comm]
              next => exact htomb i hi

theorem lookupBucketFor_free (t : Table K V) (value : K) :
    Ends anyFault (lookupBucketFor T t value)
      fun r => r.1 = false → ∀ i ∈ r.2, FreeSlot T t.buckets i := by
  rw [lookupBucketFor]
  split
  next =>
    intro _ i hi
    cases hi
  next =>
    split
    next => trivial
    next =>
      refine (probeLoop_free _ _ _ none ?_).bind ?_
      · intro i hi
        cases hi
      · intro r hr hfalse i hi
        cases hi
        exact hr hfalse

/-- Filling a free slot makes one more live. -/
theorem liveCount_fill {buckets : List (Bucket K V)} {i : Nat} (hfree : FreeSlot T buckets i)
    {b : Bucket K V} (hb : Ordinary T b.key) :
    liveCount (slotsOf T (buckets.set i b)) = liveCount (slotsOf T buckets) + 1 := by
  rw [slotsOf_set, slotOf_live hb]
  rcases hfree with h | h
  · exact liveCount_set_live_of_empty h b
  · exact liveCount_set_live_of_tombstone h b

/-- As long as it returns, `moveFromOldBuckets` loses no entry. -/
theorem moveLoop_liveCount (entriesOk : Nat → Bool) (bs : List (Bucket K V)) :
    ∀ t, Ends anyFault (moveLoop entriesOk T bs t) fun t' =>
      liveCount (slotsOf T t'.buckets)
        = liveCount (slotsOf T t.buckets) + liveCount (slotsOf T bs) := by
  induction bs with
  | nil =>
      intro t
      rfl
  | cons b bs ih =>
      intro t
      have hcons := liveCount_slotsOf_cons (T := T) b bs
      rw [moveLoop, hcons, isLive_slotOf]
      split
      next hb =>
        refine (lookupBucketFor_free t b.key).bind fun r hr => ?_
        obtain ⟨foundValue, destBucket⟩ := r
        dsimp only at hr ⊢
        split
        next => trivial
        next hnew =>
          refine (bucketAt_lt t destBucket).bind fun place hplace => ?_
          have hfree := hr (Bool.eq_false_of_not_eq_true hnew) place.1 hplace.1
          have hfill := liveCount_fill hfree (b := b) hb
          simp only [setNumEntries]
          split
          next =>
            refine (ih _).mono fun t' ht' => ?_
            rw [ht']
            show liveCount (slotsOf T (t.buckets.set place.1 b)) + _ = _
            omega
          next => trivial
      next => exact ih t

namespace Dictionary

/-- `grow(0)` allocates 64 buckets, which no larger contents fit in. -/
theorem grow_stuck {d : Dictionary K V} (h : 64 < liveCount (slotsOf T d.buckets)) :
    Ends anyFault (grow T 0 d) fun _ => False := by
  have hne : d.buckets ≠ [] := by
    intro hnil
    rw [hnil] at h
    exact absurd h (Nat.not_lt_zero _ ∘ Nat.lt_trans (by decide : 0 < 64))
  have hsize : max 64 (Math.nextPowerOf2_64 (sub64 0 1)) = 64 := max_nextPowerOf2_64 (.inl rfl)
  simp only [grow, allocatedBuckets, hsize, List.isEmpty_iff, hne, if_false]
  refine (initEmpty_sameSize entriesOk _).bind fun t ht => ?_
  refine ((moveLoop_liveCount entriesOk d.buckets t).and
    (moveLoop_sameSize entriesOk d.buckets t)).mono ?_
  rintro t' ⟨hcount, hsame⟩
  have hlen : t'.buckets.length = 64 := hsame.2.trans (ht.2.trans List.length_replicate)
  have hle := liveCount_le_length (slotsOf T t'.buckets)
  rw [length_slotsOf] at hle
  omega

/-! ## The load -/

/-- Well formed, less than three quarters full, and within the counters. -/
structure Loaded (T : TableType K V) (d : Dictionary K V) : Prop where
  wellFormed : WellFormed T d
  load : d.buckets.length ≠ 0 → d.numEntries * 4 < d.buckets.length * 3
  top : d.numEntries ≤ 3 * 2 ^ 60

namespace Loaded

variable {d d' : Dictionary K V}

theorem of_cleared (h : Cleared T d) : Loaded T d where
  wellFormed := h.wellFormed
  load := by
    intro hne
    rw [h.entries]
    omega
  top := by
    rw [h.entries]
    exact Nat.zero_le _

/-- The same entries, or fewer, in no fewer buckets. -/
theorem of_le (h : Loaded T d) (hwf : WellFormed T d') (hent : d'.numEntries ≤ d.numEntries)
    (hlen : d.buckets.length ≤ d'.buckets.length) : Loaded T d' where
  wellFormed := hwf
  load := by
    intro hne
    by_cases h0 : d.buckets.length = 0
    · have := h.wellFormed.entries_eq_zero h0
      omega
    · have := h.load h0
      omega
  top := hent.trans h.top

theorem of_same (h : Loaded T d) (hwf : WellFormed T d') (hsame : SameContents T d d')
    (hlen : d.buckets.length ≤ d'.buckets.length) : Loaded T d' :=
  h.of_le hwf hsame.entries.le hlen

theorem epoch (h : Loaded T d) (epoch : Nat) : Loaded T { d with epoch := epoch } :=
  h.of_le (h.wellFormed.epoch epoch) le_rfl le_rfl

theorem needsMoreBuckets_iff (h : Loaded T d) :
    needsMoreBuckets d ↔ u64 (d.buckets.length * 3) ≤ (d.numEntries + 1) * 4 := by
  have htop := h.top
  rw [needsMoreBuckets, u64_of_lt (n := d.numEntries + 1) (by omega),
    u64_of_lt (n := (d.numEntries + 1) * 4) (by omega), getNumBuckets]

end Loaded

/-- What `makeRoom` hands on: the contents it was given, a bucket fit for the key, an
empty bucket besides, and room for one more entry within the load. -/
structure Roomy (T : TableType K V) (d d' : Dictionary K V) (key : K) (i : Nat) : Prop where
  wellFormed : WellFormed T d'
  same : SameContents T d d'
  room : d'.numEntries + 1 + d'.numTombstones < d'.buckets.length
  load : (d'.numEntries + 1) * 4 < d'.buckets.length * 3
  top : d'.numEntries + 1 ≤ 3 * 2 ^ 60
  outcome : Outcome (slotsOf T d'.buckets) (probeOf T d'.buckets.length (classOf T key))
    (fun b => T.isEqual key b.key) (false, i)

/-- `grow` to `n` buckets, with the load below three quarters of them. -/
theorem growAndLookup_roomy {d : Dictionary K V} {key : K} {n : Nat} (h : Loaded T d)
    (hkey : Ordinary T key) (habs : ∀ c, Stored T d c → bucketClass T c ≠ classOf T key)
    (hpow : PowerOrZero n) (hle : d.buckets.length ≤ n)
    (hload : (d.numEntries + 1) * 4 < max 64 n * 3) (htop : d.numEntries + 1 ≤ 3 * 2 ^ 60) :
    ∃ d' i, growAndLookup derived T n d key = .ok (d', some i) ∧ Roomy T d d' key i := by
  obtain ⟨d', hgrow, hwf, hsame, htomb, hlen⟩ := grow_wellFormed h.wellFormed hpow hle
  have hne : d'.buckets.length ≠ 0 := by omega
  obtain ⟨i, hlook, hout⟩ := growAndLookup_of_grow (D := derived) hgrow hwf hne hkey
    fun c hc => habs c ((hsame.stored c).mp hc)
  have hent := hsame.entries
  refine ⟨d', i, hlook, hwf, hsame, ?_, ?_, ?_, hout⟩
  · rw [htomb, hent, hlen]
    omega
  · rw [hent, hlen]
    exact hload
  · rw [hent]
    exact htop

section MakeRoom

variable {d : Dictionary K V} {key : K} {bucket : Option Nat}

theorem makeRoom_eq : makeRoom derived T d key bucket =
    if needsMoreBuckets d then growAndLookup derived T (u64 (d.buckets.length * 2)) d key
    else if needsRehash d then growAndLookup derived T d.buckets.length d key
    else .ok (d, bucket) := rfl

/-- Below the load `makeRoom` keeps the number of buckets. -/
theorem makeRoom_below (h : Loaded T d) (hkey : Ordinary T key)
    (habs : ∀ c, Stored T d c → bucketClass T c ≠ classOf T key)
    (hlook : d.buckets.length ≠ 0 → ∃ i, bucket = some i ∧
      Outcome (slotsOf T d.buckets) (probeOf T d.buckets.length (classOf T key))
        (fun b => T.isEqual key b.key) (false, i))
    (hless : ¬ needsMoreBuckets d) :
    ∃ d' i, makeRoom derived T d key bucket = .ok (d', some i) ∧ Roomy T d d' key i := by
  have hwf := h.wellFormed
  have hpow : PowerOrZero d.buckets.length := hwf.pow
  have hload : (d.numEntries + 1) * 4 < d.buckets.length * 3 ∧
      d.numEntries + 1 ≤ 3 * 2 ^ 60 := by
    have hless' := mt h.needsMoreBuckets_iff.mpr hless
    rcases Laws.triple_buckets hpow with ⟨h3, hn⟩ | ⟨h3, hn⟩
    · omega
    · omega
  obtain ⟨hload, htop⟩ := hload
  rw [makeRoom_eq, if_neg hless]
  by_cases hreh : needsRehash d
  · -- too few empty buckets: the same number again
    rw [if_pos hreh]
    exact growAndLookup_roomy h hkey habs hpow le_rfl (by omega) htop
  · rw [if_neg hreh]
    have hne : d.buckets.length ≠ 0 := by omega
    have hfree := mt (Laws.needsRehash_iff hwf hne).mpr hreh
    obtain ⟨i, rfl, hout⟩ := hlook hne
    exact ⟨d, i, rfl, hwf, ⟨rfl, fun _ => Iff.rfl⟩, by omega, hload, htop, hout⟩

/-- `makeRoom` returns, unless it is to double `2^63` buckets. -/
theorem makeRoom_roomy (h : Loaded T d) (hkey : Ordinary T key)
    (habs : ∀ c, Stored T d c → bucketClass T c ≠ classOf T key)
    (hlook : d.buckets.length ≠ 0 → ∃ i, bucket = some i ∧
      Outcome (slotsOf T d.buckets) (probeOf T d.buckets.length (classOf T key))
        (fun b => T.isEqual key b.key) (false, i))
    (hfit : ¬ (needsMoreBuckets d ∧ d.buckets.length = 2 ^ 63)) :
    ∃ d' i, makeRoom derived T d key bucket = .ok (d', some i) ∧ Roomy T d d' key i := by
  by_cases hmore : needsMoreBuckets d
  · have hpow : PowerOrZero d.buckets.length := h.wellFormed.pow
    have hzero := h.wellFormed.entries_eq_zero
    have hload := h.load
    rcases Laws.triple_buckets hpow with ⟨-, hsmall⟩ | ⟨-, hlarge⟩
    · -- three quarters full: twice the buckets
      rw [makeRoom_eq, if_pos hmore, u64_of_lt (n := d.buckets.length * 2) (by omega)]
      exact growAndLookup_roomy h hkey habs (hpow.double hsmall) (by omega) (by omega) (by omega)
    · exact absurd ⟨hmore, hlarge⟩ hfit
  · exact makeRoom_below h hkey habs hlook hmore

/-- Doubling `2^63` buckets does not return. -/
theorem makeRoom_stuck (h : WellFormed T d) (hmore : needsMoreBuckets d)
    (hlarge : d.buckets.length = 2 ^ 63) :
    Ends anyFault (makeRoom derived T d key bucket) fun _ => False := by
  have hzero : u64 (d.buckets.length * 2) = 0 := by
    rw [hlarge]
    rfl
  have hfull : 64 < liveCount (slotsOf T d.buckets) := by
    rw [← h.entries]
    by_contra hfew
    rw [needsMoreBuckets, getNumBuckets, hlarge, u64_of_lt (n := d.numEntries + 1) (by omega),
      u64_of_lt (n := (d.numEntries + 1) * 4) (by omega)] at hmore
    have h3 : u64 (2 ^ 63 * 3) = 2 ^ 63 := by decide
    omega
  rw [makeRoom_eq, if_pos hmore, hzero]
  exact (grow_stuck hfull).bind fun _ hfalse => hfalse.elim

end MakeRoom

/-! ## Storing an absent key -/

theorem accessors : Accessors (derived (K := K) (V := V)) :=
  ⟨fun _ _ => rfl, fun _ _ _ => rfl⟩

section Store

variable {d : Dictionary K V} {key : K} {bucket : Option Nat}

theorem insertIntoBucket_loaded (h : Loaded T d) (hkey : Ordinary T key)
    (habs : ∀ c, Stored T d c → bucketClass T c ≠ classOf T key)
    (hlook : d.buckets.length ≠ 0 → ∃ i, bucket = some i ∧
      Outcome (slotsOf T d.buckets) (probeOf T d.buckets.length (classOf T key))
        (fun b => T.isEqual key b.key) (false, i))
    (hfit : ¬ (needsMoreBuckets d ∧ d.buckets.length = 2 ^ 63)) (value : V) :
    ∃ d' i, insertIntoBucket derived T d key value bucket = .ok (d', i) ∧ Loaded T d' ∧
      d'.buckets[i]? = some ⟨key, value⟩ ∧ d'.numEntries = d.numEntries + 1 ∧
      (∀ c, Stored T d' c ↔ c = ⟨key, value⟩ ∨ Stored T d c) := by
  obtain ⟨d₁, i, hsettle, hroomy⟩ := makeRoom_roomy (h.epoch (u64 (d.epoch + 1))) hkey habs hlook
    hfit
  have hsame := hroomy.same
  obtain ⟨t, hrun, hwf, hbuckets, hget, hent, -, hst⟩ := insertIntoBucket_of_makeRoom accessors
    hsettle hroomy.wellFormed hkey (fun c hc => habs c ((hsame.stored c).mp hc))
    hroomy.room hroomy.outcome rfl value
  have hlen : t.buckets.length = d₁.buckets.length := by rw [hbuckets]; exact List.length_set
  have hsum : d₁.numEntries = d.numEntries := hsame.entries
  refine ⟨t, i, hrun, ⟨hwf, ?_, ?_⟩, hget, hent.trans (congrArg (· + 1) hsum), ?_⟩
  · intro _
    rw [hent, hlen]
    exact hroomy.load
  · rw [hent]
    exact hroomy.top
  · intro c
    rw [hst c]
    exact or_congr_right (hsame.stored c)

/-- Whenever storing returns, the load is kept. -/
theorem insertIntoBucket_keeps (h : Loaded T d) (hkey : Ordinary T key)
    (habs : ∀ c, Stored T d c → bucketClass T c ≠ classOf T key)
    (hlook : d.buckets.length ≠ 0 → ∃ i, bucket = some i ∧
      Outcome (slotsOf T d.buckets) (probeOf T d.buckets.length (classOf T key))
        (fun b => T.isEqual key b.key) (false, i)) (value : V) :
    Ends anyFault (insertIntoBucket derived T d key value bucket) fun r =>
      Loaded T r.1 ∧ r.1.buckets[r.2]? = some ⟨key, value⟩ := by
  by_cases hfit : needsMoreBuckets d ∧ d.buckets.length = 2 ^ 63
  · have hstuck : Ends anyFault (makeRoom derived T (incrementEpoch d) key bucket)
        fun _ => False :=
      makeRoom_stuck (h.wellFormed.epoch _) hfit.1 hfit.2
    rw [insertIntoBucket, insertIntoBucketImpl]
    exact (hstuck.bind fun _ hfalse => hfalse.elim).bind fun _ hfalse => hfalse
  · obtain ⟨d', i, hrun, hload, hget, -⟩ := insertIntoBucket_loaded h hkey habs hlook hfit value
    rw [hrun]
    exact ⟨hload, hget⟩

end Store

/-! ## Calls and programs -/

section Calls

variable {d : Dictionary K V}

/-- Asking for a key that is stored if it is absent: it is at the position returned. -/
theorem insert_keeps (h : Loaded T d) {key : K} (hkey : Ordinary T key) (value : V) :
    Ends anyFault (insert derived T d key value) fun r => Loaded T r.1 ∧
      ∃ b, r.1.buckets[r.2.1]? = some b ∧ Ordinary T b.key ∧ T.isEqual key b.key = true := by
  unfold BasicHashTable.insert
  rcases lookupBucketFor_spec h.wellFormed hkey with
    ⟨i, b, hlook, hget, hord, heq⟩ | ⟨bucket, hlook, habs, hout⟩
  · simp only [derived, id_eq, hlook, ok_bind, if_true, bucketAt_some hget]
    exact ⟨h, b, hget, hord, heq⟩
  · simp only [derived, id_eq, hlook, ok_bind, Bool.false_eq_true, if_false]
    exact (insertIntoBucket_keeps h hkey habs hout value).bind fun r hr =>
      ⟨hr.1, _, hr.2, hkey, T.refl key⟩

theorem findAndConstruct_keeps (h : Loaded T d) {key : K} (hkey : Ordinary T key) :
    Ends anyFault (findAndConstruct derived T d key) fun r =>
      Loaded T r.1 ∧ ∀ b, r.1.buckets[r.2]? = some b → Ordinary T b.key := by
  rw [findAndConstruct]
  rcases lookupBucketFor_spec h.wellFormed hkey with
    ⟨i, b, hlook, hget, hord, -⟩ | ⟨bucket, hlook, habs, hout⟩
  · simp only [derived, id_eq, hlook, ok_bind, if_true, bucketAt_some hget]
    refine ⟨h, fun c hc => ?_⟩
    obtain ⟨rfl⟩ : b = c := Option.some.inj (hget.symm.trans hc)
    exact hord
  · simp only [derived, id_eq, hlook, ok_bind, Bool.false_eq_true, if_false]
    refine (insertIntoBucket_keeps h hkey habs hout T.defaultValue).mono ?_
    rintro r ⟨hload, hget⟩
    refine ⟨hload, fun c hc => ?_⟩
    obtain ⟨rfl⟩ := Option.some.inj (hget.symm.trans hc)
    exact hkey

theorem assignAt_keeps (h : Loaded T d) {i : Nat}
    (hord : ∀ b, d.buckets[i]? = some b → Ordinary T b.key) (value : V) :
    Ends anyFault (assignAt derived d i value) (Loaded T) := by
  rw [assignAt]
  cases hget : d.buckets[i]? with
  | none => simp only [derived, id_eq, bucketAt, hget, error_bind]; trivial
  | some b =>
      have hov := overwrite_spec h.wellFormed hget (hord b hget) value
      simp only [derived, id_eq, bucketAt_some hget, ok_bind]
      exact h.of_le hov.1 le_rfl (List.length_set).ge

theorem erase_keeps (h : Loaded T d) {key : K} (hkey : Ordinary T key) :
    Ends anyFault (erase derived T d key) fun r => Loaded T r.1 := by
  rw [erase]
  have hwf := h.wellFormed
  rcases lookupBucketFor_spec hwf hkey with ⟨i, b, hlook, hget, hord, -⟩ | ⟨bucket, hlook, -⟩
  · obtain ⟨hwf', hpos, -⟩ := bury_spec hwf hget hord
    have hlt := hwf.length_lt
    have hroom := hwf.room (by
      have := (List.getElem?_eq_some_iff.mp hget).1
      omega)
    have hent : sub64 d.numEntries 1 = d.numEntries - 1 := sub64_of_le (by omega) hpos
    have htomb : u64 (d.numTombstones + 1) = d.numTombstones + 1 := u64_of_lt (by omega)
    simp only [derived, id_eq, hlook, ok_bind, if_true, bucketAt_some hget, hent,
      setNumEntries_ok (entriesOk_eq _), htomb]
    exact h.of_le hwf' (Nat.sub_le _ _) (List.length_set).ge
  · simp only [derived, id_eq, hlook, ok_bind, Bool.false_eq_true, if_false]
    exact h

theorem shrinkAndClear_keeps (h : WellFormed T d) :
    Ends anyFault (shrinkAndClear T d) (Cleared T) := by
  have hend : ∀ num, Ends anyFault
      (if num = getNumBuckets d then initEmpty entriesOk T d else init T num d) (Cleared T) := by
    intro num
    obtain ⟨d', hrun, hclr⟩ := startOver_spec h num
    rw [hrun]
    exact hclr
  rw [shrinkAndClear]
  split
  · exact hend 0
  · cases shiftLeftOne (Math.log2_32_Ceil (u32 (u32 d.numEntries + 1))) with
    | error e => trivial
    | ok shifted => exact hend (toSize (min 32 shifted))

theorem clear_eq (d : Dictionary K V) : clear derived T d =
    if d.numEntries = 0 ∧ d.numTombstones = 0 then .ok (incrementEpoch d)
    else if isSparse d then shrinkAndClear T (incrementEpoch d)
    else clearBuckets T (incrementEpoch d) >>= fun buckets =>
      .ok ⟨buckets, 0, 0, u64 (d.epoch + 1)⟩ := rfl

/-- `clear` where it does not shrink: the array stays. -/
theorem clear_inPlace (h : WellFormed T d)
    (hpath : isSparse d → d.numEntries = 0 ∧ d.numTombstones = 0) :
    ∃ d', clear derived T d = .ok d' ∧ Cleared T d' ∧ d'.buckets.length = d.buckets.length := by
  rw [clear_eq]
  by_cases hempty : d.numEntries = 0 ∧ d.numTombstones = 0
  · refine ⟨_, if_pos hempty, ?_, rfl⟩
    exact ⟨h.epoch _, hempty.1, hempty.2, (h.epoch _).none_stored hempty.1⟩
  · rw [if_neg hempty, if_neg (mt hpath hempty)]
    have hlt := h.length_lt
    have hfew : d.numEntries < 2 ^ 64 := by
      by_cases h0 : d.buckets.length = 0
      · rw [h.entries_eq_zero h0]
        decide
      · have := h.room h0
        omega
    obtain ⟨bs, hrun, hlen, hslots⟩ := clearBuckets_spec (h.epoch (u64 (d.epoch + 1))) hfew
    refine ⟨⟨bs, 0, 0, u64 (d.epoch + 1)⟩, ?_, cleared_of_empty ?_ hslots, hlen⟩
    · rw [show clearBuckets T (incrementEpoch d) = .ok bs from hrun]
      rfl
    · rw [hlen]
      exact h.pow

theorem clear_keeps (h : WellFormed T d) : Ends anyFault (clear derived T d) (Cleared T) := by
  by_cases hpath : isSparse d → d.numEntries = 0 ∧ d.numTombstones = 0
  · obtain ⟨d', hrun, hclr, -⟩ := clear_inPlace h hpath
    rw [hrun]
    exact hclr
  · obtain ⟨hsparse, hempty⟩ := Classical.not_imp.mp hpath
    rw [clear_eq, if_neg hempty, if_pos hsparse]
    exact shrinkAndClear_keeps (h.epoch _)

/-- `reserve` leaves at least the buckets it is asked for. -/
theorem reserve_spec (h : WellFormed T d) (n : Nat) :
    ∃ d', reserve derived T d n = .ok d' ∧ WellFormed T d' ∧ SameContents T d d' ∧
      d.buckets.length ≤ d'.buckets.length ∧
      getMinBucketToReserveForEntries n ≤ d'.buckets.length ∧
      (d.numTombstones = 0 → d'.numTombstones = 0) := by
  have hbump := h.epoch (u64 (d.epoch + 1))
  rw [reserve]
  by_cases hmore : getMinBucketToReserveForEntries n > d.buckets.length
  · obtain ⟨d', hrun, hwf, hsame, htomb, hlen⟩ := grow_wellFormed hbump
      (Laws.getMinBucketToReserveForEntries_pow n) (Nat.le_of_lt hmore)
    refine ⟨d', ?_, hwf, ⟨hsame.entries, hsame.stored⟩, ?_, ?_, fun _ => htomb⟩
    · exact (if_pos hmore).trans hrun
    · omega
    · omega
  · refine ⟨incrementEpoch d, if_neg hmore, hbump, same_epoch d _, le_rfl, ?_, id⟩
    exact Nat.le_of_not_gt hmore

theorem call_keeps (h : Loaded T d) (c : Call K V) (hc : c.Proper T) :
    Ends anyFault (hashClass.call T d c) fun r => Loaded T r.1 := by
  cases c with
  | insert key value =>
      have hkey : Ordinary T key := hc key rfl
      exact (insert_keeps h hkey value).bind fun r hr => (Ends.any _).bind fun _ _ => hr.1
  | erase key =>
      have hkey : Ordinary T key := hc key rfl
      exact (erase_keeps h hkey).bind fun r hr => hr
  | findAndConstruct key =>
      have hkey : Ordinary T key := hc key rfl
      exact (findAndConstruct_keeps h hkey).bind fun r hr => (Ends.any _).bind fun _ _ => hr.1
  | subscript key =>
      have hkey : Ordinary T key := hc key rfl
      exact (findAndConstruct_keeps h hkey).bind fun r hr => (Ends.any _).bind fun _ _ => hr.1
  | store key value =>
      have hkey : Ordinary T key := hc key rfl
      exact (findAndConstruct_keeps h hkey).bind fun r hr =>
        (assignAt_keeps hr.1 hr.2 value).bind fun _ hd => hd
  | find key =>
      refine (Ends.any _).bind fun i _ => ?_
      split
      · exact h
      · exact (Ends.any _).bind fun _ _ => h
  | count key => exact (Ends.any _).bind fun _ _ => h
  | size => exact h
  | clear => exact (clear_keeps h.wellFormed).bind fun d' hclr => .of_cleared hclr
  | reserve n =>
      obtain ⟨d', hrun, hwf, hsame, hlen, -⟩ := reserve_spec h.wellFormed n
      show Ends anyFault (BasicHashTable.reserve derived T d n >>= _) _
      rw [hrun]
      exact h.of_same hwf hsame hlen

end Calls

/-! ## Reachable objects -/

/-- The objects a program can own. -/
inductive Reached (T : TableType K V) : List (Dictionary K V) → Prop
  | start : Reached T []
  | step {env env' : List (Dictionary K V)} {op : Op K V} {a : Answer K V} :
      Reached T env → op.Proper T env.length → hashClass.step T env op = .ok (env', a) →
      Reached T env'

section Programs

variable {env : List (Dictionary K V)}

theorem objectAt_spec {P : Dictionary K V → Prop} (h : ∀ d ∈ env, P d) (i : Nat) :
    Ends anyFault (objectAt env i) P := by
  rw [objectAt]
  cases hget : env[i]? with
  | none => trivial
  | some d => exact h d (List.mem_of_getElem? hget)

theorem all_set {P : Dictionary K V → Prop} (h : ∀ d ∈ env, P d) {i : Nat} {d : Dictionary K V}
    (hd : P d) : ∀ d' ∈ env.set i d, P d' := by
  intro d' hd'
  rcases List.mem_or_eq_of_mem_set hd' with hmem | rfl
  · exact h d' hmem
  · exact hd

theorem all_push {P : Dictionary K V → Prop} (h : ∀ d ∈ env, P d) {d : Dictionary K V}
    (hd : P d) : ∀ d' ∈ env ++ [d], P d' := by
  intro d' hd'
  rcases List.mem_append.mp hd' with hmem | hmem
  · exact h d' hmem
  · rw [List.mem_singleton.mp hmem]
    exact hd

theorem init_loaded (n : Nat) (d : Dictionary K V) :
    Ends anyFault (init T n d) (Loaded T) := by
  obtain ⟨d', hrun, hclr, -⟩ := init_spec (T := T) n d
  rw [hrun]
  exact .of_cleared hclr

theorem copyFrom_loaded (d : Dictionary K V) {other : Dictionary K V} (h : Loaded T other) :
    Ends anyFault (copyFrom T d other) (Loaded T) := by
  obtain ⟨d', hrun, hwf, hsame, hlen⟩ := copyFrom_wellFormed (d := d) h.wellFormed
  rw [hrun]
  exact h.of_same hwf hsame hlen.ge

/-- The two objects after `swap`, one of them perhaps the other. -/
theorem swap_loaded (sameObject : Bool) {d other : Dictionary K V} (h : Loaded T d)
    (ho : Loaded T other) :
    Loaded T (swap sameObject d other).1 ∧ Loaded T (swap sameObject d other).2 := by
  cases sameObject with
  | false => exact ⟨ho.epoch _, h.epoch _⟩
  | true => exact ⟨h.epoch _, h.epoch _⟩

/-- Whatever operation returns, all tables keep within the load. -/
theorem step_keeps (h : ∀ d ∈ env, Loaded T d) (op : Op K V) (hop : op.Proper T env.length) :
    Ends anyFault (hashClass.step T env op) fun r => ∀ d ∈ r.1, Loaded T d := by
  cases op with
  | construct n => exact (init_loaded n fresh).bind fun d hd => all_push h hd
  | copyConstruct i =>
      refine (objectAt_spec h i).bind fun other ho => ?_
      refine Ends.bind (P := Loaded T) ?_ fun d hd => all_push h hd
      exact (init_loaded 0 fresh).bind fun d _ => copyFrom_loaded d ho
  | moveConstruct i =>
      refine (objectAt_spec h i).bind fun other ho => ?_
      refine Ends.bind (P := fun r => Loaded T r.1 ∧ Loaded T r.2) ?_ ?_
      · exact (init_loaded 0 fresh).bind fun d hd => swap_loaded false hd ho
      · rintro ⟨d, rest⟩ ⟨hd, hrest⟩
        exact all_push (all_set h hrest) hd
  | assign i j =>
      refine (objectAt_spec h i).bind fun d hd => (objectAt_spec h j).bind fun other ho => ?_
      refine Ends.bind (P := Loaded T) ?_ fun d' hd' => all_set h hd'
      show Ends anyFault (assign T (i == j) d other) _
      rw [assign]
      split
      · exact hd
      · exact copyFrom_loaded d ho
  | moveAssign i j =>
      refine (objectAt_spec h i).bind fun d hd => (objectAt_spec h j).bind fun other ho => ?_
      refine Ends.bind (P := fun r => Loaded T r.1 ∧ Loaded T r.2) ?_ ?_
      · exact (init_loaded 0 d).bind fun d' hd' => swap_loaded _ hd' ho
      · rintro ⟨d', rest⟩ ⟨hd', hrest⟩
        exact all_set (all_set h hrest) hd'
  | swap i j =>
      refine (objectAt_spec h i).bind fun d hd => (objectAt_spec h j).bind fun other ho => ?_
      have hswap := swap_loaded (i == j) hd ho
      exact all_set (all_set h hswap.2) hswap.1
  | on i c =>
      refine (objectAt_spec h i).bind fun d hd => ?_
      exact (call_keeps hd c hop.2).bind fun r hr => all_set h hr

theorem Reached.loaded (h : Reached T env) : ∀ d ∈ env, Loaded T d := by
  induction h with
  | start =>
      intro d hd
      cases hd
  | step _ hop hstep ih => exact (step_keeps ih _ hop).of_ok hstep

/-- Objects reachable with few entries are reachable. -/
theorem Reachable.reached (h : Reachable T env) : Reached T env := by
  induction h with
  | start => exact .start
  | step _ hop hstep _ ih => exact .step ih hop hstep

end Programs

end Dictionary

end Rx
