/-
# `RxFoundation.SmallDictionarySpec` — where `SmallDictionary` is a `Dictionary`

`SmallDictionary<K, V, InlineBuckets>` keeps the laws of a derived class as long
as two things are not asked of it.

* **An in-place rehash of at least 64 inline buckets.**  When too few inline
  buckets are empty, `insertIntoBucketImpl` calls `grow` with the present bucket
  count.  Below 64 that is rounded up to 64 and the table moves to the heap;
  from 64 on it stays equal to `InlineBuckets`, and `allocateBuckets` refuses to
  allocate no more buckets than are inline.
* **A shrinking `clear` of more than `2^29` entries**, whose `1 << (log + 1)`
  leaves the range of `int`.

`setNumEntries` also refuses `INT_MAX` entries.  These three are the `Trips` of
this module; a program in which no call trips answers as over `Dictionary`, and
no other program does (`agrees_iff_neverTrips`).
-/
import CrashRealm.RxFoundation.DictionarySpec

namespace Rx

open OpenAddressing BasicHashTable

variable {K V : Type} {T : TableType K V}

namespace SmallDictionary

variable {InlineBuckets : Nat}

/-- A power of two that is a `UInt32`. -/
def InlineCount (InlineBuckets : Nat) : Prop := ∃ k ≤ 31, InlineBuckets = 2 ^ k

theorem InlineCount.powerOrZero (h : InlineCount InlineBuckets) : PowerOrZero InlineBuckets := by
  obtain ⟨k, hk, rfl⟩ := h
  exact Or.inr ⟨k, by omega, rfl⟩

/-- The invariant: well formed, few entries, and the `_small` bit tells whether
there are exactly `InlineBuckets` buckets or more. -/
structure Inv (T : TableType K V) (d : SmallDictionary K V InlineBuckets) : Prop where
  wellFormed : WellFormed T d.toTable
  few : d.numEntries < intMax
  inline : d.small = true → d.buckets.length = InlineBuckets
  large : d.small = false → InlineBuckets < d.buckets.length

theorem Inv.le_length {d : SmallDictionary K V InlineBuckets} (h : Inv T d) :
    InlineBuckets ≤ d.buckets.length := by
  cases hs : d.small with
  | true => exact Nat.le_of_eq (h.inline hs).symm
  | false => exact Nat.le_of_lt (h.large hs)

/-- The inline buckets hold no more than `tmpStorage` has room for. -/
theorem Inv.liveCount_le {d : SmallDictionary K V InlineBuckets} (h : Inv T d)
    (hs : d.small = true) : liveCount (slotsOf T d.buckets) ≤ InlineBuckets := by
  have hlen := h.inline hs
  have hle := liveCount_le_length (slotsOf T d.buckets)
  rw [length_slotsOf] at hle
  omega

theorem entriesOk_of_lt {n : Nat} (h : n < intMax) : entriesOk n = true := decide_eq_true h

theorem onTable_ok {f : Table K V → Except Fault (Table K V)}
    {d : SmallDictionary K V InlineBuckets} {t : Table K V} (h : f d.toTable = .ok t) :
    onTable f d = .ok { d with toTable := t } := by
  simp only [onTable, h, ok_bind]

theorem useLarge_ok (T : TableType K V) {num : Nat} (h : InlineBuckets < num)
    (d : SmallDictionary K V InlineBuckets) :
    useLarge T num d = .ok { d with small := false, buckets := List.replicate num T.raw } := by
  simp only [useLarge, allocateBuckets, gt_iff_lt, h, if_true, ok_bind]

/-- `allocateBuckets` refuses what would fit inline. -/
theorem useLarge_refuses (T : TableType K V) {num : Nat} (h : num ≤ InlineBuckets)
    (d : SmallDictionary K V InlineBuckets) :
    useLarge T num d = .error (.assertion "Must allocate more buckets than are inline") := by
  simp only [useLarge, allocateBuckets, gt_iff_lt, Nat.not_lt.mpr h, if_false, error_bind]

theorem chooseStorage_spec (T : TableType K V) (num : Nat)
    (d : SmallDictionary K V InlineBuckets) :
    ∃ d', chooseStorage T num d = .ok d' ∧ d'.buckets.length = max num InlineBuckets ∧
      (d'.small = true ↔ num ≤ InlineBuckets) := by
  by_cases h : num > InlineBuckets
  · refine ⟨_, by rw [chooseStorage, if_pos h, useLarge_ok T h], ?_, ?_⟩
    · show (List.replicate num T.raw).length = _
      rw [List.length_replicate, Nat.max_eq_left (Nat.le_of_lt h)]
    · exact iff_of_false nofun (Nat.not_le.mpr h)
  · have hle := Nat.le_of_not_gt h
    refine ⟨_, by rw [chooseStorage, if_neg h], ?_, ?_⟩
    · show (List.replicate InlineBuckets T.raw).length = _
      rw [List.length_replicate, Nat.max_eq_right hle]
    · exact iff_of_true rfl hle

/-- An object whose array has the length its storage was chosen for. -/
theorem inv_of_storage {d : SmallDictionary K V InlineBuckets} {num : Nat}
    (hwf : WellFormed T d.toTable) (hfew : d.numEntries < intMax)
    (hlen : d.buckets.length = max num InlineBuckets)
    (hsmall : d.small = true ↔ num ≤ InlineBuckets) : Inv T d where
  wellFormed := hwf
  few := hfew
  inline := by
    intro hs
    rw [hlen, Nat.max_eq_right (hsmall.mp hs)]
  large := by
    intro hs
    have : ¬ num ≤ InlineBuckets := fun hle => by
      rw [hsmall.mpr hle] at hs
      cases hs
    rw [hlen]
    omega

theorem init_spec (hN : InlineCount InlineBuckets) {num : Nat} (hpow : PowerOrZero num)
    (d : SmallDictionary K V InlineBuckets) :
    ∃ d', init T num d = .ok d' ∧ Inv T d' ∧ Cleared T d'.toTable := by
  obtain ⟨d₁, hrun₁, hlen₁, hsmall₁⟩ := chooseStorage_spec T num d
  have hpow₁ : PowerOrZero d₁.buckets.length := by
    rw [hlen₁]
    rcases Nat.le_total num InlineBuckets with hle | hle
    · rw [Nat.max_eq_right hle]
      exact hN.powerOrZero
    · rwa [Nat.max_eq_left hle]
  obtain ⟨t, hrun, hclr, hlen⟩ := initEmpty_spec (T := T) (t := d₁.toTable)
    (entriesOk_of_lt (show 0 < intMax by decide)) hpow₁
  refine ⟨{ d₁ with toTable := t }, ?_, ?_, hclr⟩
  · rw [init, hrun₁, ok_bind]
    exact onTable_ok hrun
  · refine inv_of_storage hclr.wellFormed (by show t.numEntries < _; rw [hclr.entries]; decide)
      (hlen.trans hlen₁) hsmall₁

/-! ## Growing -/

/-- The live buckets of the inline array, collected in order. -/
theorem collectInline_spec :
    ∀ (bs tmp : List (Bucket K V)), tmp.length + liveCount (slotsOf T bs) ≤ InlineBuckets →
      collectInline T InlineBuckets bs tmp
        = .ok (tmp ++ bs.filter fun b => isLiveKey T b.key) := by
  intro bs
  induction bs with
  | nil =>
      intro tmp _
      simp [collectInline]
  | cons b bs ih =>
      intro tmp hroom
      rw [liveCount_slotsOf_cons, isLive_slotOf] at hroom
      by_cases hb : isLiveKey T b.key = true
      · rw [if_pos hb] at hroom
        rw [collectInline, if_pos hb, if_pos (by omega), ih (tmp ++ [b]) (by simp; omega),
          List.filter_cons, if_pos hb, List.append_assoc]
        rfl
      · rw [if_neg hb] at hroom
        rw [collectInline, if_neg hb, ih tmp hroom, List.filter_cons, if_neg hb]

/-- The live buckets of an array, as a list of buckets to move. -/
theorem slotsOf_filter_live (bs : List (Bucket K V)) :
    liveCount (slotsOf T (bs.filter fun b => isLiveKey T b.key)) = liveCount (slotsOf T bs) ∧
      ∀ b, Slot.live b ∈ slotsOf T (bs.filter fun b => isLiveKey T b.key)
        ↔ Slot.live b ∈ slotsOf T bs := by
  constructor
  · simp only [liveCount, slotsOf, List.countP_map, List.countP_filter]
    refine congrArg (List.countP · bs) (funext fun b => ?_)
    simp only [Function.comp, isLive_slotOf, Bool.and_self]
  · intro b
    rw [mem_slotsOf_live, mem_slotsOf_live, List.mem_filter]
    constructor
    · exact fun h => ⟨h.1.1, h.2⟩
    · exact fun h => ⟨⟨h.1, h.2⟩, h.2⟩

/-- Moving the buckets `bs`, the live ones of `d`, to the heap. -/
theorem moveLarge_spec {d : SmallDictionary K V InlineBuckets} {n : Nat} {bs : List (Bucket K V)}
    (h : Inv T d) (hpow : PowerOrZero n) (hn : InlineBuckets < n) (hle : d.buckets.length ≤ n)
    (hdis : Distinct T bs)
    (hcount : liveCount (slotsOf T bs) = liveCount (slotsOf T d.buckets))
    (hmem : ∀ b, Slot.live b ∈ slotsOf T bs ↔ Slot.live b ∈ slotsOf T d.buckets) :
    ∃ d', (useLarge T n d >>= onTable (moveFromOldBuckets entriesOk T bs)) = .ok d' ∧
      Inv T d' ∧ SameContents T d.toTable d'.toTable ∧ d'.numTombstones = 0 ∧
      d'.buckets.length = n := by
  have hent : d.numEntries = liveCount (slotsOf T d.buckets) := h.wellFormed.entries
  have hfew := h.few
  have hroom : liveCount (slotsOf T bs) < (List.replicate n T.raw).length := by
    rw [hcount, List.length_replicate, ← hent]
    by_cases h0 : d.buckets.length = 0
    · have := h.wellFormed.entries_eq_zero h0
      omega
    · have := h.wellFormed.room h0
      omega
  have hok : ∀ k ≤ liveCount (slotsOf T bs), entriesOk k = true := by
    intro k hk
    rw [hcount, ← hent] at hk
    exact entriesOk_of_lt (by omega)
  obtain ⟨t, hrun, hwf, htomb, hentries, hlen, hst⟩ := moveFromOldBuckets_spec
    (t := { d.toTable with buckets := List.replicate n T.raw })
    (by rwa [List.length_replicate]) hdis hroom hok
  rw [List.length_replicate] at hlen
  rw [hcount, ← hent] at hentries
  refine ⟨⟨t, false⟩, ?_, ⟨hwf, by show t.numEntries < _; omega, nofun, ?_⟩,
    ⟨hentries, fun b => (hst b).trans (hmem b)⟩, htomb, hlen⟩
  · rw [useLarge_ok T hn, ok_bind]
    exact onTable_ok hrun
  · intro _
    show InlineBuckets < t.buckets.length
    omega

/-- `grow` moves to the heap, whatever the storage, unless it is asked for as
many buckets as are inline and those are 64 or more. -/
theorem grow_spec {d : SmallDictionary K V InlineBuckets} {n : Nat}
    (h : Inv T d) (hok : ¬ (d.small = true ∧ 64 ≤ InlineBuckets ∧ n = InlineBuckets))
    (hpow : PowerOrZero n) (hle : d.buckets.length ≤ n) :
    ∃ d', grow T n d = .ok d' ∧ Inv T d' ∧ SameContents T d.toTable d'.toTable ∧
      d'.numTombstones = 0 ∧ n ≤ d'.buckets.length ∧ 64 ≤ d'.buckets.length := by
  have hNn : InlineBuckets ≤ n := Nat.le_trans h.le_length hle
  have hle' : d.buckets.length ≤ max 64 n := Nat.le_trans hle (Nat.le_max_right ..)
  cases hs : d.small with
  | true =>
      have hlen := h.inline hs
      have hbig : InlineBuckets < max 64 n := by
        have : ¬ (64 ≤ InlineBuckets ∧ n = InlineBuckets) := fun hc => hok ⟨hs, hc⟩
        omega
      have hcount := h.liveCount_le hs
      obtain ⟨hc, hm⟩ := slotsOf_filter_live (T := T) d.buckets
      obtain ⟨d', hrun, hinv, hsame, htomb, hlen'⟩ := moveLarge_spec h hpow.max_64 hbig hle'
        (h.wellFormed.distinct.filter fun b => isLiveKey T b.key) hc hm
      refine ⟨d', ?_, hinv, hsame, htomb, by rw [hlen']; exact Nat.le_max_right ..,
        by rw [hlen']; exact Nat.le_max_left ..⟩
      rw [grow]
      simp only [ge_iff_le, hNn, if_true, max_nextPowerOf2_64 hpow, hs]
      rw [if_neg (Nat.not_lt.mpr (Nat.le_of_lt hbig)), getInlineBuckets, if_pos hs, ok_bind,
        collectInline_spec d.buckets [] (by simpa using hcount), ok_bind, List.nil_append]
      exact hrun
  | false =>
      have hlen := h.large hs
      have hbig : InlineBuckets < max 64 n := by omega
      obtain ⟨d', hrun, hinv, hsame, htomb, hlen'⟩ := moveLarge_spec h hpow.max_64 hbig hle'
        h.wellFormed.distinct rfl (fun _ => Iff.rfl)
      refine ⟨d', ?_, hinv, hsame, htomb, by rw [hlen']; exact Nat.le_max_right ..,
        by rw [hlen']; exact Nat.le_max_left ..⟩
      rw [grow]
      simp only [ge_iff_le, hNn, if_true, max_nextPowerOf2_64 hpow, hs, Bool.false_eq_true, if_false]
      rw [getLargeRep, hs]
      simp only [Bool.false_eq_true, if_false, ok_bind]
      rw [if_neg (Nat.not_le.mpr hbig)]
      exact hrun

/-- The in-place rehash of 64 or more inline buckets fails the assertion of
`allocateBuckets`. -/
theorem grow_refuses (hN : InlineCount InlineBuckets) {d : SmallDictionary K V InlineBuckets}
    (h : Inv T d) (hs : d.small = true) (h64 : 64 ≤ InlineBuckets) :
    grow T InlineBuckets d
      = .error (.assertion "Must allocate more buckets than are inline") := by
  have hmax : max 64 (Math.nextPowerOf2_64 (sub64 InlineBuckets 1)) = InlineBuckets := by
    rw [max_nextPowerOf2_64 hN.powerOrZero, Nat.max_eq_right h64]
  have hcount := h.liveCount_le hs
  rw [grow]
  simp only [ge_iff_le, Nat.le_refl, if_true, hmax, hs]
  rw [if_neg (Nat.lt_irrefl _), getInlineBuckets, if_pos hs, ok_bind,
    collectInline_spec d.buckets [] (by simpa using hcount), ok_bind,
    useLarge_refuses T (Nat.le_refl _), error_bind]

/-! ## Shrinking -/

/-- The bucket count a shrinking `clear` settles on, from the shifted word. -/
def shrunkBuckets (InlineBuckets num : Nat) : Nat :=
  if num > InlineBuckets ∧ num < 64 then 64 else num

theorem shrunkBuckets_pow (InlineBuckets : Nat) {num : Nat} (h : PowerOrZero num) :
    PowerOrZero (shrunkBuckets InlineBuckets num) := by
  rw [shrunkBuckets]
  split
  next => exact Or.inr ⟨6, by decide, rfl⟩
  next => exact h

theorem shrinkTo_spec (hN : InlineCount InlineBuckets)
    {d : SmallDictionary K V InlineBuckets} (h : Inv T d) {n : Nat} (hpow : PowerOrZero n) :
    ∃ d', shrinkTo T n d = .ok d' ∧ Inv T d' ∧ Cleared T d'.toTable := by
  obtain ⟨d₁, hinit, hres₁⟩ := init_spec (T := T) hN hpow d
  obtain ⟨t, hemp, hclr, hlen⟩ := initEmpty_spec (T := T) (t := d.toTable)
    (entriesOk_of_lt (show 0 < intMax by decide)) h.wellFormed.pow
  have hinv : Inv T ({ d with toTable := t } : SmallDictionary K V InlineBuckets) := by
    refine ⟨hclr.wellFormed, by show t.numEntries < _; rw [hclr.entries]; decide, ?_, ?_⟩
    · exact fun hs => hlen.trans (h.inline hs)
    · intro hs
      show InlineBuckets < t.buckets.length
      rw [hlen]
      exact h.large hs
  obtain ⟨keeps, hkeeps⟩ : ∃ keeps, keepsStorage n d = .ok keeps := by
    cases hs : d.small with
    | true => exact ⟨_, if_pos hs⟩
    | false =>
        refine ⟨n == d.buckets.length, ?_⟩
        simp only [keepsStorage, getLargeRep, hs, Bool.false_eq_true, if_false, ok_bind]
  cases keeps with
  | true =>
      refine ⟨_, ?_, hinv, hclr⟩
      rw [shrinkTo, hkeeps, ok_bind, if_pos rfl]
      exact onTable_ok hemp
  | false =>
      refine ⟨d₁, ?_, hres₁⟩
      rw [shrinkTo, hkeeps, ok_bind, if_neg nofun]
      exact hinit

/-- Up to `2^29` entries the shift stays inside `int`. -/
theorem shiftLeftOne_log {n : Nat} (h0 : 0 < n) (h : n ≤ 2 ^ 29) :
    ∃ e ≤ 30, shiftLeftOne (Math.log2_32_Ceil (u32 n) + 1) = .ok (2 ^ e : Int) := by
  have hlog : Math.log2_32_Ceil (u32 n) ≤ 29 := by
    rw [u32_of_lt (by omega), Math.log2_32_Ceil_eq h0 (by omega)]
    exact Nat.size_le.mpr (by omega)
  exact ⟨Math.log2_32_Ceil (u32 n) + 1, by omega, if_pos (by omega)⟩

theorem toSize_two_pow {e : Nat} (h : e ≤ 30) : toSize (2 ^ e : Int) = 2 ^ e := by
  have hlt : 2 ^ e < 2 ^ 64 := Nat.pow_lt_pow_right (by decide) (by omega)
  have hcast : (2 ^ e : Int) = ((2 ^ e : Nat) : Int) := by norm_cast
  rw [toSize, hcast]
  generalize 2 ^ e = n at hlt ⊢
  omega

theorem shrinkAndClear_spec (hN : InlineCount InlineBuckets)
    {d : SmallDictionary K V InlineBuckets} (h : Inv T d) (hok : d.numEntries ≤ 2 ^ 29) :
    ∃ d', shrinkAndClear T d = .ok d' ∧ Inv T d' ∧ Cleared T d'.toTable := by
  by_cases h0 : d.numEntries = 0
  · obtain ⟨d', hrun, hres⟩ := shrinkTo_spec hN h (n := 0) (Or.inl rfl)
    refine ⟨d', ?_, hres⟩
    rw [shrinkAndClear]
    simp only [size, h0, if_true, hrun]
  · obtain ⟨e, he, hshift⟩ := shiftLeftOne_log (Nat.pos_of_ne_zero h0) hok
    have hpow : PowerOrZero (2 ^ e) := Or.inr ⟨e, by omega, rfl⟩
    obtain ⟨d', hrun, hres⟩ :=
      shrinkTo_spec hN h (shrunkBuckets_pow InlineBuckets hpow)
    refine ⟨d', ?_, hres⟩
    rw [shrinkAndClear]
    simp only [size, h0, if_false, hshift, ok_bind, toSize_two_pow he]
    exact hrun

/-! ## Copying and swapping -/

theorem copyFrom_spec {other : SmallDictionary K V InlineBuckets} (h : Inv T other)
    (d : SmallDictionary K V InlineBuckets) :
    ∃ d', copyFrom T d other = .ok d' ∧ Inv T d' ∧ SameContents T other.toTable d'.toTable := by
  obtain ⟨d₁, hrun₁, hlen₁, hsmall₁⟩ := chooseStorage_spec T (getNumBuckets other.toTable) d
  have hlen : d₁.buckets.length = other.buckets.length := by
    rw [hlen₁]
    exact Nat.max_eq_left h.le_length
  obtain ⟨t, hrun, hwf, hsame, hlen'⟩ := BasicHashTable.copyFrom_spec (T := T)
    (t := d₁.toTable) h.wellFormed hlen (entriesOk_of_lt h.few)
  refine ⟨{ d₁ with toTable := t }, ?_, ?_, hsame⟩
  · rw [copyFrom, hrun₁, ok_bind]
    exact onTable_ok hrun
  · refine inv_of_storage hwf (by show t.numEntries < _; rw [hsame.entries]; exact h.few) ?_ hsmall₁
    rw [show t.buckets.length = _ from hlen', ← hlen, hlen₁]

/-- `t'` has the buckets of `t` and its counters. -/
structure SameTable (T : TableType K V) (t t' : Table K V) : Prop where
  slots : slotsOf T t'.buckets = slotsOf T t.buckets
  entries : t'.numEntries = t.numEntries
  tombs : t'.numTombstones = t.numTombstones

theorem SameTable.length_eq {t t' : Table K V} (h : SameTable T t t') :
    t'.buckets.length = t.buckets.length := by
  rw [← length_slotsOf (T := T), h.slots, length_slotsOf]

theorem SameTable.sameContents {t t' : Table K V} (h : SameTable T t t') : SameContents T t t' :=
  ⟨h.entries, fun b => by rw [Stored, Stored, h.slots]⟩

theorem SameTable.cleared {t t' : Table K V} (h : SameTable T t t') (hc : Cleared T t) :
    Cleared T t' :=
  hc.of_same (hc.wellFormed.of_slots h.slots h.entries h.tombs).1 h.tombs h.sameContents

/-- An object that has taken over another one's table and storage. -/
theorem SameTable.inv {d d' : SmallDictionary K V InlineBuckets}
    (hs : SameTable T d.toTable d'.toTable) (h : Inv T d) (hsmall : d'.small = d.small) :
    Inv T d' where
  wellFormed := (h.wellFormed.of_slots hs.slots hs.entries hs.tombs).1
  few := by
    rw [hs.entries]
    exact h.few
  inline := by
    intro h'
    rw [hsmall] at h'
    exact hs.length_eq.trans (h.inline h')
  large := by
    intro h'
    rw [hsmall] at h'
    rw [hs.length_eq]
    exact h.large h'

/-- All four combinations of inline and heap storage exchange the two tables. -/
theorem swap_spec {d rhs : SmallDictionary K V InlineBuckets} (hd : Inv T d) (hr : Inv T rhs) :
    ∃ d' rhs', swap T false d rhs = .ok (d', rhs') ∧
      SameTable T rhs.toTable d'.toTable ∧ d'.small = rhs.small ∧
      SameTable T d.toTable rhs'.toTable ∧ rhs'.small = d.small := by
  have hcopy : ∀ mine theirs : List (Bucket K V), mine.length = InlineBuckets →
      theirs.length = InlineBuckets →
      slotsOf T (List.zipWith (copyBucket T) mine theirs) = slotsOf T theirs :=
    fun mine theirs hm ht => slotsOf_zipWith_copyBucket mine theirs (hm.trans ht.symm)
  have hraw : (List.replicate InlineBuckets T.raw).length = InlineBuckets := List.length_replicate
  rw [swap]
  cases hds : d.small with
  | true =>
      cases hrs : rhs.small with
      | true =>
          simp only [Bool.false_eq_true, if_false, and_self, if_true, getInlineBuckets, hds, hrs,
            ok_bind]
          exact ⟨_, _, rfl,
            ⟨hcopy _ _ (hd.inline hds) (hr.inline hrs), rfl, rfl⟩, rfl,
            ⟨hcopy _ _ (hr.inline hrs) (hd.inline hds), rfl, rfl⟩, rfl⟩
      | false =>
          simp only [Bool.false_eq_true, if_false, and_false, not_true_eq_false, false_and,
            if_true, getLargeRep, getInlineBuckets, useInline, hds, hrs, ok_bind]
          exact ⟨_, _, rfl, ⟨rfl, rfl, rfl⟩, rfl, ⟨hcopy _ _ hraw (hd.inline hds), rfl, rfl⟩, rfl⟩
  | false =>
      cases hrs : rhs.small with
      | true =>
          simp only [Bool.false_eq_true, if_false, false_and, not_true_eq_false, and_false,
            if_true, getLargeRep, getInlineBuckets, useInline, hds, hrs, ok_bind]
          exact ⟨_, _, rfl, ⟨hcopy _ _ hraw (hr.inline hrs), rfl, rfl⟩, rfl, ⟨rfl, rfl, rfl⟩, rfl⟩
      | false =>
          simp only [Bool.false_eq_true, if_false, not_false_eq_true, and_self, if_true,
             getLargeRep, hds, hrs, ok_bind]
          exact ⟨_, _, rfl, ⟨rfl, rfl, rfl⟩, rfl, ⟨rfl, rfl, rfl⟩, rfl⟩

/-! ## The laws -/

section Laws
variable (hN : InlineCount InlineBuckets)
include hN

theorem copyConstruct_spec {other : SmallDictionary K V InlineBuckets} (h : Inv T other) :
    ∃ d', copyConstruct T other = .ok d' ∧ Inv T d' ∧
      SameContents T other.toTable d'.toTable := by
  obtain ⟨d, hrun, -⟩ := init_spec (T := T) hN (Or.inl rfl) fresh
  obtain ⟨d', hrun', hres⟩ := copyFrom_spec h d
  exact ⟨d', by simp only [copyConstruct, hrun, hrun', ok_bind], hres⟩

theorem moveConstruct_spec {other : SmallDictionary K V InlineBuckets} (h : Inv T other) :
    ∃ d' rest, moveConstruct T other = .ok (d', rest) ∧ Inv T d' ∧
      SameContents T other.toTable d'.toTable ∧ Inv T rest ∧ Cleared T rest.toTable := by
  obtain ⟨d, hrun, hinv, hclr⟩ := init_spec (T := T) hN (Or.inl rfl) fresh
  obtain ⟨d', rest, hswap, hs, hsmall, hs', hsmall'⟩ := swap_spec hinv h
  refine ⟨d', rest, ?_, hs.inv h hsmall, hs.sameContents, hs'.inv hinv hsmall', hs'.cleared hclr⟩
  simp only [moveConstruct, hrun, hswap, ok_bind]

theorem moveAssign_self_spec (d : SmallDictionary K V InlineBuckets) :
    ∃ d' rest, moveAssign T true d d = .ok (d', rest) ∧ Inv T d' ∧ Cleared T d'.toTable := by
  obtain ⟨d₀, hrun, hinv, hclr⟩ := init_spec (T := T) hN (Or.inl rfl) d
  exact ⟨d₀, d₀, by simp only [moveAssign, hrun, ok_bind, swap, if_true], hinv, hclr⟩

theorem moveAssign_spec (d : SmallDictionary K V InlineBuckets)
    {other : SmallDictionary K V InlineBuckets} (h : Inv T other) :
    ∃ d' rest, moveAssign T false d other = .ok (d', rest) ∧ Inv T d' ∧
      SameContents T other.toTable d'.toTable ∧ Inv T rest ∧ Cleared T rest.toTable := by
  obtain ⟨d₀, hrun, hinv, hclr⟩ := init_spec (T := T) hN (Or.inl rfl) d
  obtain ⟨d', rest, hswap, hs, hsmall, hs', hsmall'⟩ := swap_spec hinv h
  refine ⟨d', rest, ?_, hs.inv h hsmall, hs.sameContents, hs'.inv hinv hsmall', hs'.cleared hclr⟩
  simp only [moveAssign, hrun, hswap, ok_bind]

end Laws

/-- `SmallDictionary` keeps the laws where it is not asked for an in-place
rehash of 64 inline buckets or more, nor to shrink from more than `2^29` entries. -/
def laws (T : TableType K V) (hN : InlineCount InlineBuckets) :
    Laws (hashClass (K := K) (V := V) InlineBuckets) T where
  Inv := Inv T
  GrowOk d n := ¬ (d.small = true ∧ 64 ≤ InlineBuckets ∧ n = InlineBuckets)
  ShrinkOk d := d.numEntries ≤ 2 ^ 29
  ConstructOk n := PowerOrZero n
  wellFormed h := h.wellFormed
  few h := h.few
  entriesOk h := entriesOk_of_lt h
  table_setTable _ _ := rfl
  setTable_setTable _ _ _ := rfl
  inv_setTable h hwf hfew hlen :=
    ⟨hwf, hfew, fun hs => hlen.trans (h.inline hs), fun hs => hlen.symm ▸ h.large hs⟩
  growOk_bump h := h
  shrinkOk_bump h := h
  grow h hok hpow hle := grow_spec h hok hpow hle
  shrink h hok := shrinkAndClear_spec hN h hok
  construct hpow := init_spec hN hpow fresh
  copyConstruct h := copyConstruct_spec hN h
  moveConstruct h := moveConstruct_spec hN h
  assign_self _ := rfl
  assign {d _} _ h := copyFrom_spec h d
  moveAssign_self {d} _ := moveAssign_self_spec hN d
  moveAssign {d _} _ h := moveAssign_spec hN d h
  swap_self {d} h := ⟨d, d, rfl, h, rfl, fun _ => Iff.rfl⟩
  swap {d rhs} hd hr := by
    obtain ⟨d', rhs', hrun, hs, hsmall, hs', hsmall'⟩ := swap_spec hd hr
    exact ⟨d', rhs', hrun, hs.inv hr hsmall, hs.sameContents, hs'.inv hd hsmall',
      hs'.sameContents⟩

/-! ## The calls that fail -/

/-- Storing a further key would rehash 64 or more inline buckets in place. -/
def RehashTrips (d : SmallDictionary K V InlineBuckets) : Prop :=
  d.small = true ∧ 64 ≤ InlineBuckets ∧ ¬ needsMoreBuckets d.toTable ∧ needsRehash d.toTable

/-- Storing a further key fails: the entry counter is full, or the rehash is refused. -/
def StoreTrips (d : SmallDictionary K V InlineBuckets) : Prop :=
  intMax ≤ d.numEntries + 1 ∨ RehashTrips d

/-- The calls that fail. -/
def Trips (T : TableType K V) (d : SmallDictionary K V InlineBuckets) : Call K V → Prop
  | .insert key _ | .findAndConstruct key | .subscript key | .store key _ =>
      Laws.Absent T d.toTable key ∧ StoreTrips d
  | .clear => isSparse d.toTable ∧ 2 ^ 29 < d.numEntries
  | .erase _ | .find _ | .count _ | .size | .reserve _ => False

theorem insertOk_of_not_trips (hN : InlineCount InlineBuckets)
    {d : SmallDictionary K V InlineBuckets} (h : Inv T d) (hno : ¬ RehashTrips d) :
    (laws T hN).InsertOk d := by
  constructor
  · -- twice the inline buckets are more than the inline buckets
    rintro - ⟨hs, -, heq⟩
    obtain ⟨k, hk, hpow⟩ := hN
    have hlen : getNumBuckets d.toTable = InlineBuckets := h.inline hs
    have hlt : 2 ^ k ≤ 2 ^ 31 := Nat.pow_le_pow_right (by decide) hk
    have hpos := Nat.two_pow_pos k
    have heq' : u64 (getNumBuckets d.toTable * 2) = InlineBuckets := heq
    rw [hlen, u64_of_lt (by omega)] at heq'
    omega
  · rintro hmore hreh ⟨hs, h64, -⟩
    exact hno ⟨hs, h64, hmore, hreh⟩

theorem storeOk_of_not_trips (hN : InlineCount InlineBuckets)
    {d : SmallDictionary K V InlineBuckets} (h : Inv T d) {key : K}
    (hno : ¬ (Laws.Absent T d.toTable key ∧ StoreTrips d)) : (laws T hN).StoreOk d key := by
  intro habs
  have htrip : ¬ StoreTrips d := fun ht => hno ⟨habs, ht⟩
  exact ⟨insertOk_of_not_trips hN h fun hr => htrip (Or.inr hr),
    Nat.lt_of_not_le fun hle => htrip (Or.inl hle)⟩

theorem callOk_of_not_trips (hN : InlineCount InlineBuckets)
    {d : SmallDictionary K V InlineBuckets} (h : Inv T d) {c : Call K V} (hno : ¬ Trips T d c) :
    (laws T hN).CallOk d c := by
  cases c with
  | insert key value => exact storeOk_of_not_trips hN h hno
  | findAndConstruct key => exact storeOk_of_not_trips hN h hno
  | subscript key => exact storeOk_of_not_trips hN h hno
  | store key value => exact storeOk_of_not_trips hN h hno
  | clear => exact fun _ hsparse => Nat.le_of_not_lt fun hlt => hno ⟨hsparse, hlt⟩
  | reserve n =>
      rintro hlt ⟨hs, -, heq⟩
      have hlen : getNumBuckets d.toTable = InlineBuckets := h.inline hs
      have hlt' : getNumBuckets d.toTable < getMinBucketToReserveForEntries n := hlt
      rw [heq, hlen] at hlt'
      exact Nat.lt_irrefl _ hlt'
  | erase key => trivial
  | find key => trivial
  | count key => trivial
  | size => trivial

theorem insertIntoBucket_trips (hN : InlineCount InlineBuckets)
    {d : SmallDictionary K V InlineBuckets} {m : DictMap T} (h : (laws T hN).Refines d m) {key : K}
    (hkey : Ordinary T key) (habs : m.lookup (classOf T key) = none) (htrip : StoreTrips d)
    {bucket : Option Nat}
    (hlook : d.buckets.length ≠ 0 → ∃ i, bucket = some i ∧
      Outcome (slotsOf T d.buckets) (probeOf T d.buckets.length (classOf T key))
        (fun b => T.isEqual key b.key) (false, i)) (value : V) :
    ∃ f, insertIntoBucket derived T d key value bucket = .error f := by
  have hinv : Inv T d := h.1
  have hbump : (laws T hN).Refines (bump derived d) m := ⟨(laws T hN).inv_bump h.1, h.2⟩
  have hstart : derived.setTable d (incrementEpoch (derived.table d)) = bump derived d := rfl
  by_cases hrehash : RehashTrips d
  · obtain ⟨hs, h64, hmore, hreh⟩ := hrehash
    have hlen : getNumBuckets d.toTable = InlineBuckets := hinv.inline hs
    have hgrow : derived.grow T (getNumBuckets d.toTable) (bump derived d)
        = .error (.assertion "Must allocate more buckets than are inline") := by
      rw [hlen]
      exact grow_refuses hN hbump.1 hs h64
    have hroom : makeRoom derived T (bump derived d) key bucket
        = growAndLookup derived T (getNumBuckets d.toTable) (bump derived d) key := by
      rw [makeRoom]
      exact (if_neg hmore).trans (if_pos hreh)
    refine ⟨.assertion "Must allocate more buckets than are inline", ?_⟩
    rw [insertIntoBucket, insertIntoBucketImpl]
    simp only [hstart, hroom, growAndLookup, hgrow, error_bind]
  · -- the counter is full
    have hfull : intMax ≤ d.numEntries + 1 := htrip.resolve_right hrehash
    have hfew := hinv.few
    obtain ⟨d₁, i, hmake, href, hent, hroom, hout⟩ := (laws T hN).makeRoom_spec hbump hkey habs
      (insertOk_of_not_trips hN hbump.1 hrehash) hlook
    have hwf : WellFormed T d₁.toTable := (laws T hN).wellFormed href.1
    obtain ⟨old, hget, -⟩ := store_spec hwf (b := ⟨key, value⟩) hkey hout
      (href.2.lookup_eq_none.mp habs) hroom
    have hcount : u64 (d₁.numEntries + 1) = intMax := by
      have hint : intMax = 2147483647 := rfl
      have hent' : d₁.numEntries = d.numEntries := hent
      rw [hent', u64_of_lt (by omega)]
      omega
    have hset : setNumEntries
        (derived : Derived K V (SmallDictionary K V InlineBuckets)).entriesOk
        (u64 ((derived.table d₁).numEntries + 1)) (derived.table d₁)
          = .error (.assertion "Cannot support more than INT_MAX entries") := by
      rw [show u64 ((derived.table d₁).numEntries + 1) = intMax from hcount]
      exact if_neg (show ¬ entriesOk intMax = true by decide)
    refine ⟨.assertion "Cannot support more than INT_MAX entries", ?_⟩
    have hmake' : makeRoom derived T (bump derived d) key bucket = .ok (d₁, some i) := hmake
    have hbucket : assertBucketAt (derived.table d₁) (some i) = .ok (i, old) :=
      assertBucketAt_some hget
    rw [insertIntoBucket, insertIntoBucketImpl]
    simp only [hstart, hmake', ok_bind, hbucket, hset, error_bind]

/-- A shrinking `clear` of more than `2^29` entries shifts out of `int`. -/
theorem shrinkAndClear_trips (hN : InlineCount InlineBuckets)
    {d : SmallDictionary K V InlineBuckets} (h : Inv T d) (hbig : 2 ^ 29 < d.numEntries) :
    ∃ f, shrinkAndClear T d = .error f := by
  have hint : intMax = 2147483647 := rfl
  have hfew := h.few
  have h0 : d.numEntries ≠ 0 := by omega
  have hlog : Math.log2_32_Ceil (u32 d.numEntries) = (d.numEntries - 1).size := by
    rw [u32_of_lt (by omega), Math.log2_32_Ceil_eq (by omega) (by omega)]
  have hge : 30 ≤ (d.numEntries - 1).size := Nat.lt_size.mpr (by omega)
  rw [shrinkAndClear]
  simp only [size, h0, if_false, hlog]
  by_cases h30 : (d.numEntries - 1).size = 30
  · -- `1 << 31` is negative, and as a size neither small nor a power of two
    have hshift : shiftLeftOne ((d.numEntries - 1).size + 1) = .ok (-2 ^ 31) := by
      rw [h30]
      rfl
    have hsize : toSize (-2 ^ 31) = 18446744071562067968 := by decide
    have hN' : InlineBuckets < 18446744071562067968 := by
      obtain ⟨k, hk, rfl⟩ := hN
      have : 2 ^ k ≤ 2 ^ 31 := Nat.pow_le_pow_right (by decide) hk
      omega
    have hinit : init T 18446744071562067968 d
        = .error (.assertion "# initial buckets must be a power of two!") := by
      rw [init, chooseStorage, if_pos hN', useLarge_ok T hN', ok_bind, onTable]
      rw [initEmpty_refuses (entriesOk_of_lt (show 0 < intMax by decide))]
      · rfl
      · rw [List.length_replicate]
        decide
    have hkeeps : keepsStorage 18446744071562067968 d = .ok false := by
      cases hs : d.small with
      | true =>
          rw [keepsStorage, if_pos hs, decide_eq_false (Nat.not_le.mpr hN')]
      | false =>
          simp only [keepsStorage, getLargeRep, hs, Bool.false_eq_true, if_false, ok_bind]
          rw [beq_eq_false_iff_ne.mpr]
          intro heq
          have := PowerOrZero.and_pred h.wellFormed.pow
          rw [← heq] at this
          exact absurd this (by decide)
    refine ⟨.assertion "# initial buckets must be a power of two!", ?_⟩
    have hround : ¬ (18446744071562067968 > InlineBuckets ∧ 18446744071562067968 < 64) := by omega
    rw [hshift, ok_bind, hsize, if_neg hround, shrinkTo, hkeeps, ok_bind, if_neg Bool.false_ne_true,
      hinit]
  · have hshift : shiftLeftOne ((d.numEntries - 1).size + 1) = .error .undefinedArithmetic := by
      rw [shiftLeftOne, if_neg (by omega), if_neg (by omega)]
    refine ⟨.undefinedArithmetic, ?_⟩
    rw [hshift]
    rfl

section Trips
variable (hN : InlineCount InlineBuckets) {d : SmallDictionary K V InlineBuckets} {m : DictMap T}
include hN

/-- The key is not found, and cannot be stored. -/
theorem store_trips (h : (laws T hN).Refines d m) {key : K} (hkey : Ordinary T key)
    (htrip : Laws.Absent T d.toTable key ∧ StoreTrips d) (value : V) :
    ∃ bucket f, lookupBucketFor T (derived.table d) key = .ok (false, bucket) ∧
      insertIntoBucket derived T d key value bucket = .error f := by
  have habs := h.2.lookup_eq_none.mpr htrip.1
  rcases h.2.lookupBucketFor ((laws T hN).wellFormed h.1) hkey with
    ⟨i, b, -, -, -, hb, -⟩ | ⟨bucket, hlook, -, hout⟩
  · rw [habs] at hb
    cases hb
  · obtain ⟨f, hf⟩ := insertIntoBucket_trips hN h hkey habs htrip.2 hout value
    exact ⟨bucket, f, hlook, hf⟩

theorem insert_trips (h : (laws T hN).Refines d m) {key : K} (hkey : Ordinary T key)
    (htrip : Laws.Absent T d.toTable key ∧ StoreTrips d) (value : V) :
    ∃ f, BasicHashTable.insert derived T d key value = .error f := by
  obtain ⟨bucket, f, hlook, hf⟩ := store_trips hN h hkey htrip value
  refine ⟨f, ?_⟩
  simp only [BasicHashTable.insert, hlook, ok_bind, Bool.false_eq_true, if_false, hf, error_bind]

theorem findAndConstruct_trips (h : (laws T hN).Refines d m) {key : K} (hkey : Ordinary T key)
    (htrip : Laws.Absent T d.toTable key ∧ StoreTrips d) :
    ∃ f, findAndConstruct derived T d key = .error f := by
  obtain ⟨bucket, f, hlook, hf⟩ := store_trips hN h hkey htrip T.defaultValue
  refine ⟨f, ?_⟩
  simp only [findAndConstruct, hlook, ok_bind, Bool.false_eq_true, if_false, hf]

theorem clear_trips (h : (laws T hN).Refines d m)
    (htrip : isSparse d.toTable ∧ 2 ^ 29 < d.numEntries) :
    ∃ f, BasicHashTable.clear derived T d = .error f := by
  obtain ⟨f, hf⟩ := shrinkAndClear_trips hN (T := T) ((laws T hN).inv_bump h.1) htrip.2
  refine ⟨f, ?_⟩
  have hne : ¬ (d.numEntries = 0 ∧ d.numTombstones = 0) := by
    have := htrip.2
    omega
  rw [BasicHashTable.clear]
  exact (if_neg hne).trans ((if_pos htrip.1).trans hf)

/-- The calls that trip do fail. -/
theorem call_trips (h : (laws T hN).Refines d m) {c : Call K V} (hc : c.Proper T)
    (htrip : Trips T d c) : ∃ f, (hashClass InlineBuckets).call T d c = .error f := by
  cases c with
  | insert key value =>
      obtain ⟨f, hf⟩ := insert_trips hN h (hc key rfl) htrip value
      exact ⟨f, by simp only [HashClass.call, hashClass, hf, error_bind]⟩
  | findAndConstruct key =>
      obtain ⟨f, hf⟩ := findAndConstruct_trips hN h (hc key rfl) htrip
      exact ⟨f, by simp only [HashClass.call, hashClass, hf, error_bind]⟩
  | subscript key =>
      obtain ⟨f, hf⟩ := findAndConstruct_trips hN h (hc key rfl) htrip
      exact ⟨f, by simp only [HashClass.call, hashClass, hf, error_bind]⟩
  | store key value =>
      obtain ⟨f, hf⟩ := findAndConstruct_trips hN h (hc key rfl) htrip
      exact ⟨f, by simp only [HashClass.call, hashClass, hf, error_bind]⟩
  | clear =>
      obtain ⟨f, hf⟩ := clear_trips hN h htrip
      exact ⟨f, by simp only [HashClass.call, hashClass, hf, error_bind]⟩
  | reserve n => exact htrip.elim
  | erase key => exact htrip.elim
  | find key => exact htrip.elim
  | count key => exact htrip.elim
  | size => exact htrip.elim

end Trips

/-! ## Programs -/

/-- The operations that fail. -/
def OpTrips (T : TableType K V) (env : List (SmallDictionary K V InlineBuckets)) :
    Op K V → Prop
  | .on i c => ∃ d, env[i]? = some d ∧ Trips T d c
  | _ => False

/-- No operation of the program trips in the state it is reached in. -/
def NeverTrips (T : TableType K V) (env : List (SmallDictionary K V InlineBuckets)) :
    List (Op K V) → Prop
  | [] => True
  | op :: ops => ¬ OpTrips T env op ∧ ∀ env' a,
      (hashClass InlineBuckets).step T env op = .ok (env', a) → NeverTrips T env' ops

/-- A constructor call takes the default argument. -/
def IsDefault : Op K V → Prop
  | .construct n => n = 0
  | _ => True

instance : ∀ op : Op K V, Decidable (IsDefault op)
  | .construct _ => inferInstanceAs (Decidable (_ = 0))
  | .copyConstruct _ | .moveConstruct _ | .assign _ _ | .moveAssign _ _ | .swap _ _ | .on _ _ =>
      inferInstanceAs (Decidable True)

theorem opOk_of_not_trips (hN : InlineCount InlineBuckets)
    {env : List (SmallDictionary K V InlineBuckets)} {maps : List (DictMap T)}
    (h : (laws T hN).RefinesAll env maps) {op : Op K V} (hdef : IsDefault op)
    (hno : ¬ OpTrips T env op) : (laws T hN).OpOk env op := by
  cases op with
  | on i c => exact fun d hget =>
      callOk_of_not_trips hN (h.2 i d hget).1 fun ht => hno ⟨d, hget, ht⟩
  | construct n => exact Or.inl hdef
  | copyConstruct i => trivial
  | moveConstruct i => trivial
  | assign i j => trivial
  | moveAssign i j => trivial
  | swap i j => trivial

/-- An operation that trips does fail. -/
theorem step_trips (hN : InlineCount InlineBuckets)
    {env : List (SmallDictionary K V InlineBuckets)} {maps : List (DictMap T)}
    (h : (laws T hN).RefinesAll env maps) {op : Op K V} (hop : op.Proper T env.length)
    (htrip : OpTrips T env op) : ∃ f, (hashClass InlineBuckets).step T env op = .error f := by
  cases op with
  | on i c =>
      obtain ⟨d, hget, ht⟩ := htrip
      obtain ⟨f, hf⟩ := call_trips hN (h.2 i d hget) hop.2 ht
      exact ⟨f, by simp only [HashClass.step, objectAt, hget, ok_bind, hf, error_bind]⟩
  | construct n => exact htrip.elim
  | copyConstruct i => exact htrip.elim
  | moveConstruct i => exact htrip.elim
  | assign i j => exact htrip.elim
  | moveAssign i j => exact htrip.elim
  | swap i j => exact htrip.elim

/-- What does not trip over inline storage is granted by `Dictionary`. -/
theorem dictionary_opOk (hN : InlineCount InlineBuckets)
    {env : List (SmallDictionary K V InlineBuckets)} {denv : List (Dictionary K V)}
    {maps : List (DictMap T)} (h : (laws T hN).RefinesAll env maps)
    (hd : (Dictionary.laws T).RefinesAll denv maps) {op : Op K V} (hno : ¬ OpTrips T env op) :
    (Dictionary.laws T).OpOk denv op := by
  refine Dictionary.opOk op ?_
  rintro i c d' rfl hget'
  refine Dictionary.callOk c ?_
  intro key hkey habs'
  -- both objects stand for one map, so they agree on what is stored and how much
  have hi : i < env.length := by
    rw [h.1, ← hd.1]
    exact (List.getElem?_eq_some_iff.mp hget').1
  have hget := List.getElem?_eq_getElem hi
  obtain ⟨hinv, hmod⟩ := h.2 i _ hget
  obtain ⟨hinv', hmod'⟩ := hd.2 i d' hget'
  have hnum : env[i].numEntries = d'.numEntries :=
    (hmod.numEntries hinv.wellFormed).trans (hmod'.numEntries hinv'.wellFormed).symm
  have habs : Laws.Absent T env[i].toTable key :=
    hmod.lookup_eq_none.mp (hmod'.lookup_eq_none.mpr habs')
  have hfew : ¬ StoreTrips env[i] := by
    intro ht
    apply hno
    refine ⟨env[i], hget, ?_⟩
    cases c with
    | insert k v => cases hkey; exact ⟨habs, ht⟩
    | findAndConstruct k => cases hkey; exact ⟨habs, ht⟩
    | subscript k => cases hkey; exact ⟨habs, ht⟩
    | store k v => cases hkey; exact ⟨habs, ht⟩
    | erase k => cases hkey
    | find k => cases hkey
    | count k => cases hkey
    | size => cases hkey
    | clear => cases hkey
    | reserve n => cases hkey
  have : ¬ intMax ≤ env[i].numEntries + 1 := fun hle => hfew (Or.inl hle)
  rw [← hnum]
  omega

theorem runs_agree (hN : InlineCount InlineBuckets) (ops : List (Op K V)) :
    ∀ {env : List (SmallDictionary K V InlineBuckets)} {denv : List (Dictionary K V)}
      {maps : List (DictMap T)}, (laws T hN).RefinesAll env maps →
      (Dictionary.laws T).RefinesAll denv maps → ProperProgram T maps.length ops →
      (∀ op ∈ ops, IsDefault op) → NeverTrips T env ops →
      ∃ env' denv' as, (hashClass InlineBuckets).run T env ops = .ok (env', as) ∧
        Dictionary.hashClass.run T denv ops = .ok (denv', as) := by
  induction ops with
  | nil => exact fun _ _ _ _ _ => ⟨_, _, [], rfl, rfl⟩
  | cons op ops ih =>
      intro env denv maps h hd ⟨hop, hproper⟩ hdef ⟨hno, hrest⟩
      obtain ⟨env₁, hstep, href⟩ := (laws T hN).step_refines h op (by rwa [h.1])
        (opOk_of_not_trips hN h (hdef op List.mem_cons_self) hno)
      obtain ⟨denv₁, hstep', href'⟩ := (Dictionary.laws T).step_refines hd op (by rwa [hd.1])
        (dictionary_opOk hN h hd hno)
      rw [← DictMap.length_step] at hproper
      obtain ⟨env', denv', as, hrun, hrun'⟩ := ih href href' hproper
        (fun o ho => hdef o (List.mem_cons_of_mem _ ho)) (hrest _ _ hstep)
      refine ⟨env', denv', (DictMap.step maps op).2 :: as, ?_, ?_⟩
      · simp only [HashClass.run, hstep, hrun, ok_bind]
      · simp only [HashClass.run, hstep', hrun', ok_bind]

theorem neverTrips_of_run (hN : InlineCount InlineBuckets) (ops : List (Op K V)) :
    ∀ {env env' : List (SmallDictionary K V InlineBuckets)} {maps : List (DictMap T)}
      {as : List (Answer K V)}, (laws T hN).RefinesAll env maps →
      ProperProgram T maps.length ops → (∀ op ∈ ops, IsDefault op) →
      (hashClass InlineBuckets).run T env ops = .ok (env', as) → NeverTrips T env ops := by
  induction ops with
  | nil => exact fun _ _ _ _ => trivial
  | cons op ops ih =>
      intro env env' maps as h ⟨hop, hproper⟩ hdef hrun
      rw [HashClass.run, bind_eq_ok] at hrun
      obtain ⟨⟨env₁, a⟩, hstep, hrest⟩ := hrun
      obtain ⟨⟨env₂, as'⟩, hrun', -⟩ := bind_eq_ok.mp hrest
      have hop' : op.Proper T env.length := by rwa [h.1]
      have hno : ¬ OpTrips T env op := by
        intro htrip
        obtain ⟨f, hf⟩ := step_trips hN h hop' htrip
        rw [hf] at hstep
        cases hstep
      refine ⟨hno, ?_⟩
      intro env₃ a' hstep₃
      rw [hstep] at hstep₃
      cases hstep₃
      obtain ⟨env₄, hstep₄, href⟩ := (laws T hN).step_refines h op hop'
        (opOk_of_not_trips hN h (hdef op List.mem_cons_self) hno)
      rw [hstep] at hstep₄
      cases hstep₄
      rw [← DictMap.length_step] at hproper
      exact ih href hproper (fun o ho => hdef o (List.mem_cons_of_mem _ ho)) hrun'

/-- Over `SmallDictionary` objects a program returns with the answers it has over
`Dictionary` objects exactly when none of its calls trips. -/
theorem agrees_iff_neverTrips (T : TableType K V) (InlineBuckets : Nat)
    (hN : InlineCount InlineBuckets) (ops : List (Op K V)) (hproper : ProperProgram T 0 ops)
    (hdef : ∀ op ∈ ops, IsDefault op) :
    (∃ env denv as, (hashClass InlineBuckets).run T [] ops = .ok (env, as) ∧
      Dictionary.hashClass.run T [] ops = .ok (denv, as)) ↔
      NeverTrips T ([] : List (SmallDictionary K V InlineBuckets)) ops := by
  have h : (laws T hN).RefinesAll [] [] := ⟨rfl, fun i s hs => nomatch hs⟩
  have hd : (Dictionary.laws T).RefinesAll [] [] := ⟨rfl, fun i s hs => nomatch hs⟩
  constructor
  · rintro ⟨env, denv, as, hrun, -⟩
    exact neverTrips_of_run hN ops h hproper hdef hrun
  · exact runs_agree hN ops h hd hproper hdef

/-- Below 64 inline buckets, and with 64 of them but few erasures, nothing trips. -/
theorem agrees_iff_neverTrips_sample :
    (∃ env denv as,
      (hashClass 4).run (unsignedTable Nat) [] Dictionary.sampleProgram = .ok (env, as) ∧
        Dictionary.hashClass.run (unsignedTable Nat) [] Dictionary.sampleProgram = .ok (denv, as)) ↔
      NeverTrips (unsignedTable Nat) ([] : List (SmallDictionary UInt32 Nat 4))
        Dictionary.sampleProgram :=
  agrees_iff_neverTrips (unsignedTable Nat) 4 ⟨2, by decide, rfl⟩ Dictionary.sampleProgram
    (by decide +kernel) (by decide)

/-- A program whose tombstones fill 64 inline buckets: 55 keys are inserted and
erased in turn, and one more is inserted. -/
def tombstoneProgram : List (Op UInt32 Nat) :=
  .construct 0 :: ((List.range 55).flatMap fun k =>
    [.on 0 (.insert k.toUInt32 0), .on 0 (.erase k.toUInt32)]) ++ [.on 0 (.insert 55 0)]

/-- With 64 inline buckets it fails the assertion of `allocateBuckets`; over
`Dictionary` it returns. -/
theorem tombstoneProgram_fails :
    ProperProgram (unsignedTable Nat) 0 tombstoneProgram ∧
      (∀ op ∈ tombstoneProgram, IsDefault op) ∧
      (hashClass 64).run (unsignedTable Nat) [] tombstoneProgram
        = .error (.assertion "Must allocate more buckets than are inline") ∧
      (Dictionary.hashClass.run (unsignedTable Nat) [] tombstoneProgram).isOk = true := by
  refine ⟨?_, ?_, ?_, ?_⟩ <;> decide +kernel

end SmallDictionary

end Rx
