/-
# `RxFoundation.DictionaryIteratorSpec` — a handle in sync points into the array

What an operation does to one dictionary is of three kinds.  It leaves the epoch
and the array (`Still`); it increments the epoch, and then may replace the array
(`Bumped`); or it replaces the array and not the epoch, which only copy assignment
does.  The first two keep every handle right, unless the epoch comes round to one an
iterator was made at (`sync_sound`).  The third makes wrong every handle that is in
sync, unless neither dictionary has buckets (`assign_breaks`).
-/
import CrashRealm.RxFoundation.BasicHashTypeInfo
import CrashRealm.RxFoundation.DictionaryIterator

namespace Rx

open BasicHashTable

variable {K V : Type} {T : TableType K V}

/-! ## Epochs and sizes of tables -/

/-- The epoch and the bucket count are left alone. -/
def SameSize (t t' : Table K V) : Prop :=
  t'.epoch = t.epoch ∧ getNumBuckets t' = getNumBuckets t

namespace SameSize

variable {t t' : Table K V}

theorem trans {t'' : Table K V} (h : SameSize t t') (h' : SameSize t' t'') : SameSize t t'' :=
  ⟨h'.1.trans h.1, h'.2.trans h.2⟩

theorem set (t : Table K V) (i : Nat) (b : Bucket K V) :
    SameSize t { t with buckets := t.buckets.set i b } := ⟨rfl, List.length_set⟩

theorem numTombstones (t : Table K V) (n : Nat) : SameSize t { t with numTombstones := n } :=
  ⟨rfl, rfl⟩

end SameSize

theorem setNumEntries_sameSize (entriesOk : Nat → Bool) (num : Nat) (t : Table K V) :
    Ends anyFault (setNumEntries entriesOk num t) (SameSize t) := by
  rw [setNumEntries]
  split
  · exact ⟨rfl, rfl⟩
  · trivial

theorem initEmpty_sameSize (entriesOk : Nat → Bool) (t : Table K V) :
    Ends anyFault (initEmpty entriesOk T t) (SameSize t) := by
  refine (setNumEntries_sameSize entriesOk 0 t).bind fun t' h => ?_
  dsimp only
  split
  · exact ⟨h.1, (List.length_map _).trans h.2⟩
  · trivial

/-- Where a bucket pointer can be dereferenced. -/
theorem bucketAt_lt (t : Table K V) (bucket : Option Nat) :
    Ends anyFault (bucketAt t bucket) fun r => bucket = some r.1 ∧ r.1 < getNumBuckets t := by
  cases bucket with
  | none => trivial
  | some i =>
      rw [bucketAt]
      split
      next => trivial
      next b hb => exact ⟨rfl, (List.getElem?_eq_some_iff.mp hb).1⟩

theorem moveLoop_sameSize (entriesOk : Nat → Bool) (bs : List (Bucket K V)) :
    ∀ t, Ends anyFault (moveLoop entriesOk T bs t) (SameSize t) := by
  induction bs with
  | nil =>
      intro t
      exact ⟨rfl, rfl⟩
  | cons b bs ih =>
      intro t
      rw [moveLoop]
      split
      next =>
        cases lookupBucketFor T t b.key with
        | error e => trivial
        | ok r =>
            obtain ⟨foundValue, destBucket⟩ := r
            rw [ok_bind]
            dsimp only
            split
            next => trivial
            next =>
              refine (bucketAt_lt t destBucket).bind fun place _ => ?_
              refine (setNumEntries_sameSize entriesOk _ _).bind fun t' h => ?_
              exact (ih t').mono fun t'' h' => ((SameSize.set t place.1 b).trans h).trans h'
      next => exact ih t

theorem moveFromOldBuckets_sameSize (entriesOk : Nat → Bool) (bs : List (Bucket K V))
    (t : Table K V) : Ends anyFault (moveFromOldBuckets entriesOk T bs t) (SameSize t) :=
  (initEmpty_sameSize entriesOk t).bind fun t' h =>
    (moveLoop_sameSize entriesOk bs t').mono fun _ h' => h.trans h'

namespace Dictionary

theorem init_epoch (n : Nat) (d : Dictionary K V) :
    Ends anyFault (init T n d) fun d' => d'.epoch = d.epoch := by
  rw [init]
  dsimp only [allocatedBuckets]
  split
  next hd =>
    obtain ⟨rfl, -⟩ := Prod.mk.inj hd
    exact (initEmpty_sameSize entriesOk _).mono fun _ h => h.1
  next hd =>
    obtain ⟨rfl, -⟩ := Prod.mk.inj hd
    rfl

theorem grow_epoch (atLeast : Nat) (d : Dictionary K V) :
    Ends anyFault (grow T atLeast d) fun d' => d'.epoch = d.epoch := by
  rw [grow]
  dsimp only [allocatedBuckets]
  split
  · exact (initEmpty_sameSize entriesOk _).mono fun _ h => h.1
  · exact (moveFromOldBuckets_sameSize entriesOk _ _).mono fun _ h => h.1

/-- Copying leaves the epoch, and takes over the other's bucket count. -/
theorem copyFrom_epoch (d other : Dictionary K V) :
    Ends anyFault (copyFrom T d other) fun d' =>
      d'.epoch = d.epoch ∧ getNumBuckets d' = getNumBuckets other := by
  rw [copyFrom]
  dsimp only [allocatedBuckets]
  split
  next hd =>
    obtain ⟨rfl, -⟩ := Prod.mk.inj hd
    rw [BasicHashTable.copyFrom]
    split
    next hlen =>
      refine (setNumEntries_sameSize entriesOk _ _).bind fun t h => ?_
      dsimp only
      split
      · exact ⟨h.1, rfl⟩
      · refine ⟨h.1, ?_⟩
        have hlen' : t.buckets.length = other.buckets.length := h.2.trans hlen
        show (List.zipWith _ t.buckets other.buckets).length = other.buckets.length
        rw [List.length_zipWith, hlen', Nat.min_self]
    next => trivial
  next hd =>
    obtain ⟨rfl, -⟩ := Prod.mk.inj hd
    refine ⟨rfl, ?_⟩
    show (List.replicate (getNumBuckets other) T.raw).length = _
    exact List.length_replicate

end Dictionary

/-! ## What is done to one dictionary -/

/-- The array stays. -/
def Kept (p p' : Placed K V) : Prop :=
  p'.array = p.array ∧ p'.getNumBuckets = p.getNumBuckets ∧ p'.allocations = p.allocations

/-- There is a new array, or none. -/
def Replaced (p p' : Placed K V) : Prop :=
  p'.array = (if p'.getNumBuckets = 0 then none else some p.allocations) ∧
    p'.allocations = p.allocations + 1

/-- Neither the epoch nor the array changes. -/
def Still (p p' : Placed K V) : Prop := p'.table.epoch = p.table.epoch ∧ Kept p p'

/-- The array may change. -/
def Moved (p p' : Placed K V) : Prop :=
  p'.table.epoch = p.table.epoch ∧ (Kept p p' ∨ Replaced p p')

/-- The epoch is incremented, and the array may change. -/
def Bumped (p p' : Placed K V) : Prop :=
  p'.table.epoch = (incrementEpoch p.table).epoch ∧ (Kept p p' ∨ Replaced p p')

theorem Kept.refl (p : Placed K V) : Kept p p := ⟨rfl, rfl, rfl⟩

theorem Still.refl (p : Placed K V) : Still p p := ⟨rfl, .refl p⟩

theorem Kept.trans {p q r : Placed K V} (h : Kept p q) (h' : Kept q r) : Kept p r :=
  ⟨h'.1.trans h.1, h'.2.1.trans h.2.1, h'.2.2.trans h.2.2⟩

theorem Still.trans {p q r : Placed K V} (h : Still p q) (h' : Still q r) : Still p r :=
  ⟨h'.1.trans h.1, h.2.trans h'.2⟩

theorem Replaced.kept {p q r : Placed K V} (h : Replaced p q) (h' : Kept q r) : Replaced p r := by
  rw [Replaced, h'.1, h'.2.1, h'.2.2]
  exact h

/-- The epoch was incremented, and then nothing more moved. -/
theorem Bumped.still {p q r : Placed K V} (h : Bumped p q) (h' : Still q r) : Bumped p r :=
  ⟨h'.1.trans h.1, h.2.imp (·.trans h'.2) (·.kept h'.2)⟩

theorem Still.of_sameSize {p : Placed K V} {t : Table K V} (h : SameSize p.table t) :
    Still p { p with table := t } := ⟨h.1, rfl, h.2, rfl⟩

namespace Moved

variable {p q : Placed K V}

theorem refl (p : Placed K V) : Moved p p := ⟨rfl, .inl (.refl p)⟩

theorem of_still (h : Still p q) : Moved p q := ⟨h.1, .inl h.2⟩

/-- After the array may have changed, the table is worked on. -/
theorem resize {t : Table K V} (h : Moved p q) (ht : SameSize q.table t) :
    Moved p { q with table := t } := by
  refine ⟨ht.1.trans h.1, ?_⟩
  obtain h | h := h.2
  · exact .inl ⟨h.1, ht.2.trans h.2.1, h.2.2⟩
  · refine .inr ⟨?_, h.2⟩
    have hsize : Placed.getNumBuckets { q with table := t } = q.getNumBuckets := ht.2
    rw [hsize]
    exact h.1

/-- A table whose epoch was incremented first. -/
theorem bumped (h : Moved { p with table := incrementEpoch p.table } q) : Bumped p q := h

end Moved

/-! ## The members of the base class, on a placed dictionary -/

namespace Placed

theorem init_moved (n : Nat) (p : Placed K V) : Ends anyFault (p.init T n) (Moved p) :=
  (Dictionary.init_epoch n p.table).bind fun _ h => ⟨h, .inr ⟨rfl, rfl⟩⟩

theorem grow_moved (atLeast : Nat) (p : Placed K V) :
    Ends anyFault (p.grow T atLeast) (Moved p) :=
  (Dictionary.grow_epoch atLeast p.table).bind fun _ h => ⟨h, .inr ⟨rfl, rfl⟩⟩

/-- Copying replaces the array and leaves the epoch. -/
theorem copyFrom_replaced (p other : Placed K V) :
    Ends anyFault (p.copyFrom T other) fun p' =>
      p'.table.epoch = p.table.epoch ∧ p'.getNumBuckets = other.getNumBuckets ∧
        Replaced p p' :=
  (Dictionary.copyFrom_epoch p.table other.table).bind fun _ h => ⟨h.1, h.2, rfl, rfl⟩

theorem shrinkAndClear_moved (p : Placed K V) : Ends anyFault (p.shrinkAndClear T) (Moved p) := by
  refine (Ends.any p.shrunkNumBuckets).bind fun n _ => ?_
  split
  · exact (initEmpty_sameSize _ p.table).bind fun _ h => .of_still (.of_sameSize h)
  · exact init_moved n p

theorem growAndLookup_moved (atLeast : Nat) (p : Placed K V) (lookup : K) :
    Ends anyFault (growAndLookup derived T atLeast p lookup) fun r => Moved p r.1 :=
  (grow_moved atLeast p).bind fun _ h => (Ends.any _).bind fun _ _ => h

theorem makeRoom_moved (p : Placed K V) (lookup : K) (bucket : Option Nat) :
    Ends anyFault (makeRoom derived T p lookup bucket) fun r => Moved p r.1 := by
  rw [makeRoom]
  split
  · exact growAndLookup_moved _ p lookup
  · split
    · exact growAndLookup_moved _ p lookup
    · exact .refl p

theorem assertBucketAt_lt (t : Table K V) (bucket : Option Nat) :
    Ends anyFault (assertBucketAt t bucket) fun r => r.1 < BasicHashTable.getNumBuckets t := by
  rw [assertBucketAt]
  split
  · exact (bucketAt_lt t bucket).mono fun _ h => h.2
  · trivial

theorem insertIntoBucketImpl_bumped (p : Placed K V) (lookup : K) (bucket : Option Nat) :
    Ends anyFault (insertIntoBucketImpl derived T p lookup bucket) fun r =>
      Bumped p r.1 ∧ r.2 < r.1.getNumBuckets := by
  refine (makeRoom_moved _ lookup bucket).bind fun r hmoved => ?_
  refine (assertBucketAt_lt _ r.2).bind fun place hlt => ?_
  refine (setNumEntries_sameSize _ _ r.1.table).bind fun t ht => ?_
  dsimp only
  split
  · exact ⟨Moved.bumped (Moved.resize hmoved ht), hlt.trans_eq ht.2.symm⟩
  · have hcount := ht.trans (SameSize.numTombstones t (sub64 t.numTombstones 1))
    exact ⟨Moved.bumped (Moved.resize hmoved hcount), hlt.trans_eq hcount.2.symm⟩

theorem insertIntoBucket_bumped (p : Placed K V) (key : K) (value : V) (bucket : Option Nat) :
    Ends anyFault (insertIntoBucket derived T p key value bucket) fun r =>
      Bumped p r.1 ∧ r.2 < r.1.getNumBuckets := by
  refine (insertIntoBucketImpl_bumped p key bucket).bind fun r h => ?_
  have hset := SameSize.set r.1.table r.2 ⟨key, value⟩
  exact ⟨Moved.bumped (Moved.resize h.1 hset), h.2.trans_eq hset.2.symm⟩

/-- The key is not found. -/
def absent (T : TableType K V) (p : Placed K V) (key : K) : Bool :=
  match lookupBucketFor T p.table key with
  | .ok (isFound, _) => !isFound
  | .error _ => false

/-- A dictionary that has the key stays, and one that has not gets a new epoch. -/
def Inserted (T : TableType K V) (key : K) (p p' : Placed K V) : Prop :=
  Still p p' ∨ p.absent T key ∧ Bumped p p'

theorem Inserted.still {key : K} {p q r : Placed K V} (h : Inserted T key p q)
    (h' : Still q r) : Inserted T key p r :=
  h.imp (·.trans h') fun ⟨habsent, hbumped⟩ => ⟨habsent, hbumped.still h'⟩

theorem absent_of_lookup {p : Placed K V} {key : K} {bucket : Option Nat}
    (hlookup : lookupBucketFor T p.table key = .ok (false, bucket)) : p.absent T key := by
  rw [absent, hlookup]
  rfl

theorem insert_inserted (p : Placed K V) (key : K) (value : V) :
    Ends anyFault (insert derived T p key value) fun r =>
      Inserted T key p r.1 ∧ r.2.1 < r.1.getNumBuckets := by
  refine (Ends.same (lookupBucketFor T p.table key)).bind fun ⟨isFound, theBucket⟩ hlookup => ?_
  cases isFound with
  | true =>
      exact (bucketAt_lt p.table theBucket).bind fun place h => ⟨.inl (.refl p), h.2⟩
  | false =>
      exact (insertIntoBucket_bumped p key value theBucket).bind fun r h =>
        ⟨.inr ⟨absent_of_lookup hlookup, h.1⟩, h.2⟩

theorem findAndConstruct_inserted (p : Placed K V) (key : K) :
    Ends anyFault (findAndConstruct derived T p key) fun r => Inserted T key p r.1 := by
  refine (Ends.same (lookupBucketFor T p.table key)).bind fun ⟨isFound, theBucket⟩ hlookup => ?_
  cases isFound with
  | true => exact (Ends.any _).bind fun _ _ => .inl (.refl p)
  | false =>
      exact (insertIntoBucket_bumped p key T.defaultValue theBucket).mono fun r h =>
        .inr ⟨absent_of_lookup hlookup, h.1⟩

theorem find_le (t : Table K V) (val : K) :
    Ends anyFault (find T t val) fun position => position ≤ BasicHashTable.getNumBuckets t := by
  refine (Ends.any _).bind fun ⟨isFound, bucket⟩ _ => ?_
  cases isFound with
  | true => exact (bucketAt_lt t bucket).bind fun place h => h.2.le
  | false => exact Nat.le_refl _

/-- A bucket becomes a tombstone. -/
theorem tombstone_still {p : Placed K V} {t : Table K V} {i : Nat} {b : Bucket K V}
    (ht : SameSize { p.table with buckets := p.table.buckets.set i b } t) (n : Nat) :
    Still p { p with table := { t with numTombstones := n } } :=
  .of_sameSize (((SameSize.set p.table i b).trans ht).trans (.numTombstones t n))

theorem erase_still (p : Placed K V) (val : K) :
    Ends anyFault (erase derived T p val) fun r => Still p r.1 := by
  refine (Ends.any _).bind fun ⟨isFound, theBucket⟩ _ => ?_
  cases isFound with
  | true =>
      refine (Ends.any _).bind fun place _ => ?_
      exact (setNumEntries_sameSize _ _ _).bind fun t ht => tombstone_still ht _
  | false => exact .refl p

theorem assignAt_still (p : Placed K V) (i : Nat) (value : V) :
    Ends anyFault (assignAt derived p i value) (Still p) :=
  (Ends.any _).bind fun place _ =>
    Still.of_sameSize (.set p.table i { place.2 with value := value })

theorem reserve_bumped (p : Placed K V) (numEntries : Nat) :
    Ends anyFault (reserve derived T p numEntries) (Bumped p) := by
  rw [reserve]
  split
  · exact (grow_moved _ _).mono fun _ h => h.bumped
  · exact Moved.bumped (.refl _)

theorem clearLoop_length (bs : List (Bucket K V)) :
    ∀ n, (clearLoop T bs n).1.length = bs.length := by
  induction bs with
  | nil => exact fun _ => rfl
  | cons b bs ih =>
      intro n
      rw [clearLoop]
      split
      · exact congrArg (· + 1) (ih n)
      · exact congrArg (· + 1) (ih _)

theorem clearBuckets_length (t : Table K V) :
    Ends anyFault (clearBuckets T t) fun buckets => buckets.length = t.buckets.length := by
  rw [clearBuckets]
  split
  · exact List.length_map _
  · dsimp only
    split
    · exact clearLoop_length t.buckets t.numEntries
    · trivial

theorem clear_bumped (p : Placed K V) : Ends anyFault (clear derived T p) (Bumped p) := by
  rw [clear]
  split
  · exact Moved.bumped (.refl _)
  · split
    · exact (shrinkAndClear_moved _).mono fun _ h => h.bumped
    · refine (clearBuckets_length _).bind fun buckets hlen => ?_
      refine (setNumEntries_sameSize _ _ _).bind fun t ht => ?_
      have hsame : SameSize (incrementEpoch p.table) t := ⟨ht.1, ht.2.trans hlen⟩
      exact Moved.bumped (Moved.resize (.refl _) (hsame.trans (.numTombstones t 0)))

/-! ## Iterators of one dictionary -/

/-- The iterator's position and end lie in the dictionary's current array. -/
def Holds (p : Placed K V) (it : Iterator) : Prop :=
  it.array = p.array ∧ it.position ≤ p.getNumBuckets ∧ it.stop ≤ p.getNumBuckets

instance (p : Placed K V) (it : Iterator) : Decidable (p.Holds it) :=
  inferInstanceAs (Decidable (_ ∧ _ ∧ _))

theorem Holds.of_eq {p p' : Placed K V} {it : Iterator} (h : p.Holds it)
    (harray : p'.array = p.array) (hsize : p'.getNumBuckets = p.getNumBuckets) : p'.Holds it := by
  rw [Holds, harray, hsize]
  exact h

theorem retreatPastEmptyBuckets_le (buckets : List (Bucket K V)) :
    ∀ n, retreatPastEmptyBuckets T buckets n ≤ n := by
  intro n
  induction n with
  | zero => exact Nat.le_refl _
  | succ n ih =>
      rw [retreatPastEmptyBuckets]
      split
      · exact Nat.le_refl _
      · split
        · exact Nat.le_refl _
        · exact ih.trans (Nat.le_succ n)

section makers

variable (reverse : Bool) (i : Nat) (p : Placed K V)

theorem holds_makeIterator {position stop : Nat} (hpos : position ≤ p.getNumBuckets)
    (hstop : stop ≤ p.getNumBuckets) : p.Holds (p.makeIterator reverse i position stop) := by
  refine ⟨rfl, ?_, hstop⟩
  show (if reverse then _ else _) ≤ _
  split
  · split
    · exact Nat.zero_le _
    next hne => exact Nat.lt_of_le_of_ne hpos hne
  · exact hpos

theorem holds_endIterator : p.Holds (p.endIterator reverse i) :=
  holds_makeIterator reverse i p le_rfl le_rfl

theorem holds_beginIterator : p.Holds (p.beginIterator reverse T i) := by
  rw [beginIterator]
  split
  · exact holds_endIterator reverse i p
  · refine ⟨rfl, ?_, ?_⟩
    · show (if reverse then _ else _) ≤ _
      split
      · exact retreatPastEmptyBuckets_le _ _
      · exact List.findIdx_le_length
    · show (if reverse then _ else _) ≤ _
      split
      · exact Nat.zero_le _
      · exact le_rfl

theorem findIterator_holds (val : K) :
    Ends anyFault (p.findIterator reverse T i val) fun it => it.dictionary = i ∧ p.Holds it :=
  (find_le p.table val).bind fun _ h => ⟨rfl, holds_makeIterator reverse i p h le_rfl⟩

theorem beginIterator_dictionary : (p.beginIterator reverse T i).dictionary = i := by
  rw [beginIterator]
  split <;> rfl

end makers

/-- There is an array exactly if there are buckets, and it was allocated before. -/
def Valid (allocations : Nat) (p : Placed K V) : Prop :=
  (p.array = none ↔ p.getNumBuckets = 0) ∧ ∀ a, p.array = some a → a < allocations

namespace Valid

variable {p p' : Placed K V} {n m : Nat}

theorem mono (h : Valid n p) (hle : n ≤ m) : Valid m p :=
  ⟨h.1, fun a ha => (h.2 a ha).trans_le hle⟩

/-- Placing an array takes the next number. -/
theorem of_replaced (h : Replaced p p') : Valid p'.allocations p' := by
  obtain ⟨harray, hnext⟩ := h
  by_cases hzero : p'.getNumBuckets = 0
  · rw [if_pos hzero] at harray
    refine ⟨iff_of_true harray hzero, fun a ha => ?_⟩
    cases harray.symm.trans ha
  · rw [if_neg hzero] at harray
    refine ⟨iff_of_false (fun hnone => ?_) hzero, fun a ha => ?_⟩
    · cases harray.symm.trans hnone
    · cases harray.symm.trans ha
      rw [hnext]
      exact Nat.lt_succ_self _

theorem after (h : Valid p.allocations p) (hp : Kept p p' ∨ Replaced p p') :
    Valid p'.allocations p' ∧ p.allocations ≤ p'.allocations := by
  obtain hp | hp := hp
  · refine ⟨?_, hp.2.2.ge⟩
    rw [Valid, hp.1, hp.2.1, hp.2.2]
    exact h
  · exact ⟨of_replaced hp, hp.2 ▸ Nat.le_succ _⟩

end Valid

end Placed

namespace DictionaryIterator

/-! ## States of a program -/

namespace System

/-- A handle that `isHandleInSync` accepts lies in its dictionary's current array. -/
def Sound (s : System K V) : Prop :=
  ∀ it ∈ s.iterators, s.inSync it →
    ∃ p, s.dictionaries[it.dictionary]? = some p ∧ p.Holds it

/-- The same, over dictionaries whose arrays have been allocated. -/
structure Tracks (s : System K V) : Prop where
  iterator : ∀ it ∈ s.iterators, ∃ p, s.dictionaries[it.dictionary]? = some p ∧
    (p.table.epoch = it.epochAtCreation → p.Holds it)
  valid : ∀ p ∈ s.dictionaries, p.Valid s.allocations

theorem get_spec (s : System K V) (i : Nat) :
    Ends anyFault (s.get i) fun p =>
      ∃ p₀, s.dictionaries[i]? = some p₀ ∧ p = { p₀ with allocations := s.allocations } := by
  rw [get, objectAt]
  cases h : s.dictionaries[i]? with
  | none => trivial
  | some p₀ => exact ⟨p₀, rfl, rfl⟩

theorem deref_spec (reverse : Bool) (s : System K V) (it : Iterator) :
    Ends anyFault (s.deref reverse it) fun r =>
      ∃ p₀, s.dictionaries[it.dictionary]? = some p₀ ∧
        r.1 = { p₀ with allocations := s.allocations } := by
  refine (s.get_spec it.dictionary).bind fun p hp => ?_
  split
  · split
    · split
      · split
        · trivial
        · exact hp
      · exact hp
    · trivial
  · trivial

/-- An iterator of the `i`-th dictionary was made at this epoch. -/
def madeAt (s : System K V) (i epoch : Nat) : Prop :=
  ∃ it ∈ s.iterators, it.dictionary = i ∧ it.epochAtCreation = epoch

instance (s : System K V) (i epoch : Nat) : Decidable (s.madeAt i epoch) :=
  inferInstanceAs (Decidable (∃ it ∈ s.iterators, _))

namespace Tracks

variable {s : System K V} (h : s.Tracks)

include h

theorem sound : s.Sound := by
  intro it hit hsync
  obtain ⟨p, hp, hholds⟩ := h.iterator it hit
  obtain ⟨p', hp', hepoch⟩ := hsync
  cases hp.symm.trans hp'
  exact ⟨p, hp, hholds hepoch⟩

theorem valid_of_get {i : Nat} {p : Placed K V} (hp : s.dictionaries[i]? = some p) :
    p.Valid s.allocations :=
  h.valid p (List.mem_of_getElem? hp)

/-- A new dictionary. -/
theorem add {p : Placed K V} (hp : p.Valid p.allocations) (hle : s.allocations ≤ p.allocations) :
    (s.add p).Tracks where
  iterator it hit := by
    obtain ⟨q, hq, hholds⟩ := h.iterator it hit
    exact ⟨q, (List.getElem?_append_left (List.getElem?_eq_some_iff.mp hq).1).trans hq, hholds⟩
  valid q hq := by
    obtain hq | hq := List.mem_append.mp hq
    · exact (h.valid q hq).mono hle
    · cases List.mem_singleton.mp hq
      exact hp

/-- A dictionary is replaced by one that keeps its iterators right. -/
theorem put {i : Nat} {p p' : Placed K V} (hp : s.dictionaries[i]? = some p)
    (hvalid : p'.Valid p'.allocations) (hle : s.allocations ≤ p'.allocations)
    (hkeep : ∀ it ∈ s.iterators, it.dictionary = i → p'.table.epoch = it.epochAtCreation →
      p'.Holds it) :
    (s.put i p').Tracks where
  iterator it hit := by
    by_cases hi : it.dictionary = i
    · refine ⟨p', ?_, hkeep it hit hi⟩
      rw [hi]
      exact List.getElem?_set_self (List.getElem?_eq_some_iff.mp hp).1
    · obtain ⟨q, hq, hholds⟩ := h.iterator it hit
      exact ⟨q, (List.getElem?_set_ne (Ne.symm hi)).trans hq, hholds⟩
  valid q hq := by
    obtain hq | hq := List.mem_or_eq_of_mem_set hq
    · exact (h.valid q hq).mono hle
    · cases hq
      exact hvalid

theorem put_still {i : Nat} {p p' : Placed K V} (hp : s.dictionaries[i]? = some p)
    (hstill : Still { p with allocations := s.allocations } p') : (s.put i p').Tracks := by
  have hbefore : p.Valid s.allocations := h.valid_of_get hp
  obtain ⟨hvalid, hle⟩ := Placed.Valid.after
    (p := { p with allocations := s.allocations }) hbefore (.inl hstill.2)
  refine h.put hp hvalid hle fun it hit hi hepoch => ?_
  obtain ⟨q, hq, hholds⟩ := h.iterator it hit
  rw [hi] at hq
  cases hp.symm.trans hq
  exact (hholds (hstill.1.symm.trans hepoch)).of_eq hstill.2.1 hstill.2.2.1

/-- A dictionary gets an epoch no iterator of it was made at. -/
theorem put_new {i : Nat} {p p' : Placed K V} (hp : s.dictionaries[i]? = some p)
    (hvalid : p'.Valid p'.allocations) (hle : s.allocations ≤ p'.allocations)
    (hnew : ¬ s.madeAt i p'.table.epoch) : (s.put i p').Tracks :=
  h.put hp hvalid hle fun it hit hi hepoch => absurd ⟨it, hit, hi, hepoch.symm⟩ hnew

theorem put_bumped {i : Nat} {p p' : Placed K V} (hp : s.dictionaries[i]? = some p)
    (hbumped : Bumped { p with allocations := s.allocations } p')
    (hnew : ¬ s.madeAt i (incrementEpoch p.table).epoch) : (s.put i p').Tracks := by
  have hbefore : p.Valid s.allocations := h.valid_of_get hp
  obtain ⟨hvalid, hle⟩ := Placed.Valid.after
    (p := { p with allocations := s.allocations }) hbefore hbumped.2
  refine h.put_new hp hvalid hle ?_
  rw [hbumped.1]
  exact hnew

theorem obtain {it : Iterator} {p : Placed K V} (hp : s.dictionaries[it.dictionary]? = some p)
    (hit : p.Holds it) : (s.obtain it).Tracks where
  iterator it' hit' := by
    obtain hit' | hit' := List.mem_append.mp hit'
    · exact h.iterator it' hit'
    · cases List.mem_singleton.mp hit'
      exact ⟨p, hp, fun _ => hit⟩
  valid := h.valid

end Tracks

end System

/-! ## When the handles are right -/

section runs

variable (T : TableType K V)

/-- What holds of the `i`-th dictionary, if there is one. -/
def System.about (s : System K V) (i : Nat) (P : Placed K V → Prop) : Prop :=
  match s.dictionaries[i]? with
  | some p => P p
  | none => True

instance (s : System K V) (i : Nat) (P : Placed K V → Prop) [DecidablePred P] :
    Decidable (s.about i P) :=
  match h : s.dictionaries[i]? with
  | some p => decidable_of_iff (P p) (by rw [System.about, h])
  | none => .isTrue (by rw [System.about, h]; trivial)

/-- A copy assignment finds no handle in sync, or no bucket on either side; and the
epoch reached by any other operation is not one an iterator was made at. -/
def good (s : System K V) : Op K V → Prop
  | .insert i key _ | .subscript i key | .store i key _ =>
      s.about i fun p => p.absent T key → ¬ s.madeAt i (incrementEpoch p.table).epoch
  | .clear i | .reserve i _ => s.about i fun p => ¬ s.madeAt i (incrementEpoch p.table).epoch
  | .swap i j =>
      if i = j then
        s.about i fun p => ¬ s.madeAt i (incrementEpoch (incrementEpoch p.table)).epoch
      else
        s.about i (fun p => ¬ s.madeAt i (incrementEpoch p.table).epoch) ∧
          s.about j (fun p => ¬ s.madeAt j (incrementEpoch p.table).epoch)
  | .assign i j =>
      i = j ∨ s.about i fun p => ¬ s.madeAt i p.table.epoch ∨
        s.about j fun other => p.getNumBuckets = 0 ∧ other.getNumBuckets = 0
  | _ => True

variable {T} {reverse : Bool} {s : System K V}

theorem System.about_iff {i : Nat} {P : Placed K V → Prop} {p : Placed K V}
    (hp : s.dictionaries[i]? = some p) : s.about i P ↔ P p := by
  rw [System.about, hp]

theorem System.about_get {i : Nat} {P : Placed K V → Prop} {p : Placed K V} (h : s.about i P)
    (hp : s.dictionaries[i]? = some p) : P p :=
  (about_iff hp).mp h

/-- What an insertion leaves behind. -/
theorem System.Tracks.put_inserted (h : s.Tracks) {i : Nat} {key : K} {p p' : Placed K V}
    (hp : s.dictionaries[i]? = some p)
    (hins : Placed.Inserted T key { p with allocations := s.allocations } p')
    (hnew : p.absent T key → ¬ s.madeAt i (incrementEpoch p.table).epoch) :
    (s.put i p').Tracks := by
  obtain hstill | ⟨habsent, hbumped⟩ := hins
  · exact h.put_still hp hstill
  · exact h.put_bumped hp hbumped (hnew habsent)

/-- Two dictionaries exchange their arrays, with new epochs. -/
theorem System.Tracks.put_swapped (h : s.Tracks) {i j : Nat} {p other : Placed K V}
    (hp : s.dictionaries[i]? = some p) (hother : s.dictionaries[j]? = some other)
    (hgood : good T s (.swap i j)) :
    ∀ pair, Placed.swap (i == j) { p with allocations := s.allocations }
        { other with allocations := s.allocations } = pair →
      ((s.put j pair.2).put i pair.1).Tracks := by
  rintro pair rfl
  have hvalid := h.valid_of_get hp
  have hvalid' := h.valid_of_get hother
  rw [good] at hgood
  by_cases hij : i = j
  · rw [if_pos hij] at hgood
    subst hij
    cases hp.symm.trans hother
    have hnew := System.about_get hgood hp
    rw [beq_self_eq_true]
    have hi : i < s.dictionaries.length := (List.getElem?_eq_some_iff.mp hp).1
    exact (h.put_new hp hvalid le_rfl hnew).put_new (List.getElem?_set_self hi) hvalid le_rfl hnew
  · rw [if_neg hij] at hgood
    rw [beq_false_of_ne hij]
    have hnew : ¬ s.madeAt i (incrementEpoch p.table).epoch := System.about_get hgood.1 hp
    have hnew' : ¬ s.madeAt j (incrementEpoch other.table).epoch :=
      System.about_get hgood.2 hother
    have hp' (q : Placed K V) : (s.dictionaries.set j q)[i]? = some p :=
      (List.getElem?_set_ne (Ne.symm hij)).trans hp
    exact (h.put_new hother hvalid le_rfl hnew').put_new (hp' _) hvalid' le_rfl hnew

/-- A good copy assignment finds no handle in sync, or replaces no array by no array. -/
theorem System.Tracks.put_assigned (h : s.Tracks) {i j : Nat} (hij : i ≠ j)
    {p other p' : Placed K V} (hp : s.dictionaries[i]? = some p)
    (hother : s.dictionaries[j]? = some other) (hgood : good T s (.assign i j))
    (hepoch : p'.table.epoch = p.table.epoch) (hsize : p'.getNumBuckets = other.getNumBuckets)
    (hreplaced : Replaced { p with allocations := s.allocations } p') :
    (s.put i p').Tracks := by
  have hle : s.allocations ≤ p'.allocations := hreplaced.2 ▸ Nat.le_succ _
  have hvalid := Placed.Valid.of_replaced hreplaced
  obtain hnone | ⟨hzero, hzero'⟩ :=
    (System.about_get (hgood.resolve_left hij) hp).imp_right (System.about_get · hother)
  · refine h.put_new hp hvalid hle ?_
    rw [hepoch]
    exact hnone
  · refine h.put hp hvalid hle fun it hit hi hsync => ?_
    obtain ⟨q, hq, hholds⟩ := h.iterator it hit
    rw [hi] at hq
    cases hp.symm.trans hq
    have hsize' : p'.getNumBuckets = 0 := hsize.trans hzero'
    have harray : p.array = none := (h.valid_of_get hp).1.mpr hzero
    have harray' : p'.array = none := hvalid.1.mpr hsize'
    exact (hholds (hepoch.symm.trans hsync)).of_eq (harray'.trans harray.symm)
      (hsize'.trans hzero.symm)

/-- A good step keeps every handle right. -/
theorem step_tracks (h : s.Tracks) (op : Op K V) (hgood : good T s op) :
    Ends anyFault (s.step reverse T op) System.Tracks := by
  have hfresh : (Placed.fresh (K := K) (V := V) s.allocations).Valid s.allocations :=
    ⟨⟨fun _ => rfl, fun _ => rfl⟩, fun _ ha => nomatch ha⟩
  cases op with
  | construct initialReserve =>
      refine (Placed.init_moved initialReserve (.fresh s.allocations)).bind fun p hp => ?_
      obtain ⟨hvalid, hle⟩ := hfresh.after hp.2
      exact h.add hvalid hle
  | copyConstruct i =>
      refine (s.get_spec i).bind fun other _ => ?_
      refine (Placed.init_moved 0 (.fresh s.allocations)).bind fun p hp => ?_
      refine (Placed.copyFrom_replaced p other).bind fun p' hp' => ?_
      have hle : s.allocations ≤ p.allocations := (hfresh.after hp.2).2
      exact h.add (.of_replaced hp'.2.2) (hle.trans (hp'.2.2.2 ▸ Nat.le_succ _))
  | insert i key value =>
      refine (s.get_spec i).bind fun p ⟨p₀, hp, hget⟩ => ?_
      subst hget
      refine (Placed.insert_inserted _ key value).bind fun ⟨p', position, _⟩ ⟨hins, hlt⟩ => ?_
      refine (h.put_inserted hp hins (System.about_get hgood hp)).obtain (p := p') ?_
        (Placed.holds_makeIterator reverse i p' hlt.le le_rfl)
      exact List.getElem?_set_self (List.getElem?_eq_some_iff.mp hp).1
  | subscript i key =>
      refine (s.get_spec i).bind fun p ⟨p₀, hp, hget⟩ => ?_
      subst hget
      exact (Placed.findAndConstruct_inserted _ key).bind fun ⟨p', _⟩ hins =>
        h.put_inserted hp hins (System.about_get hgood hp)
  | store i key value =>
      refine (s.get_spec i).bind fun p ⟨p₀, hp, hget⟩ => ?_
      subst hget
      refine (Placed.findAndConstruct_inserted _ key).bind fun ⟨p', position⟩ hins => ?_
      exact (Placed.assignAt_still p' position value).bind fun p'' hstill =>
        h.put_inserted hp (hins.still hstill) (System.about_get hgood hp)
  | erase i key =>
      refine (s.get_spec i).bind fun p ⟨p₀, hp, hget⟩ => ?_
      subst hget
      exact (Placed.erase_still _ key).bind fun ⟨p', _⟩ hstill => h.put_still hp hstill
  | eraseAt n =>
      show Ends anyFault (s.eraseAt reverse T n) System.Tracks
      rw [System.eraseAt]
      split
      next => trivial
      next it _ =>
        refine (s.deref_spec reverse it).bind fun ⟨p, position⟩ ⟨p₀, hp, hget⟩ => ?_
        cases hget
        refine (Ends.any _).bind fun place _ => ?_
        exact (setNumEntries_sameSize _ _ _).bind fun t ht =>
          h.put_still hp (Placed.tombstone_still ht _)
  | clear i =>
      refine (s.get_spec i).bind fun p ⟨p₀, hp, hget⟩ => ?_
      subst hget
      exact (Placed.clear_bumped _).bind fun p' hbumped =>
        h.put_bumped hp hbumped (System.about_get hgood hp)
  | reserve i numEntries =>
      refine (s.get_spec i).bind fun p ⟨p₀, hp, hget⟩ => ?_
      subst hget
      exact (Placed.reserve_bumped _ numEntries).bind fun p' hbumped =>
        h.put_bumped hp hbumped (System.about_get hgood hp)
  | swap i j =>
      refine (s.get_spec i).bind fun p ⟨p₀, hp, hget⟩ => ?_
      refine (s.get_spec j).bind fun other ⟨other₀, hother, hget'⟩ => ?_
      subst hget hget'
      exact h.put_swapped hp hother hgood _ rfl
  | assign i j =>
      refine (s.get_spec i).bind fun p ⟨p₀, hp, hget⟩ => ?_
      refine (s.get_spec j).bind fun other ⟨other₀, hother, hget'⟩ => ?_
      subst hget hget'
      split
      · exact h
      next hij =>
        exact (Placed.copyFrom_replaced _ _).bind fun p' ⟨hepoch, hsize, hreplaced⟩ =>
          h.put_assigned hij hp hother hgood hepoch hsize hreplaced
  | beginOf i =>
      refine (s.get_spec i).bind fun p ⟨p₀, hp, hget⟩ => ?_
      subst hget
      refine h.obtain (p := p₀) ?_ (Placed.holds_beginIterator reverse i _)
      rw [Placed.beginIterator_dictionary]
      exact hp
  | endOf i =>
      refine (s.get_spec i).bind fun p ⟨p₀, hp, hget⟩ => ?_
      subst hget
      exact h.obtain (p := p₀) hp (Placed.holds_endIterator reverse i _)
  | find i key =>
      refine (s.get_spec i).bind fun p ⟨p₀, hp, hget⟩ => ?_
      subst hget
      refine (Placed.findIterator_holds reverse i _ key).bind fun it ⟨hi, hholds⟩ => ?_
      refine h.obtain (p := p₀) ?_ hholds
      rw [hi]
      exact hp

/-- After a copy assignment that is not good, a handle in sync lies in a released array. -/
theorem assign_breaks (h : s.Tracks) {i j : Nat} (hbad : ¬ good T s (.assign i j)) :
    Ends anyFault (s.step reverse T (.assign i j)) fun s' => ¬ s'.Sound := by
  refine (s.get_spec i).bind fun p ⟨p₀, hp, hget⟩ => ?_
  refine (s.get_spec j).bind fun other ⟨other₀, hother, hget'⟩ => ?_
  subst hget hget'
  rw [good, System.about_iff hp, System.about_iff hother] at hbad
  push Not at hbad
  obtain ⟨hij, ⟨it, hit, hi, hsync⟩, hbuckets⟩ := hbad
  rw [if_neg hij]
  refine (Placed.copyFrom_replaced _ _).bind fun p' ⟨hepoch, hsize, hreplaced⟩ hsound => ?_
  have hlt : i < s.dictionaries.length := (List.getElem?_eq_some_iff.mp hp).1
  have hp' : (s.put i p').dictionaries[it.dictionary]? = some p' := by
    rw [hi]
    exact List.getElem?_set_self hlt
  -- the iterator lay in the array there was before
  obtain ⟨q, hq, hbefore⟩ := h.iterator it hit
  rw [hi] at hq
  cases hp.symm.trans hq
  obtain ⟨q', hq', hafter⟩ := hsound it hit ⟨p', hp', hepoch.trans hsync.symm⟩
  cases hp'.symm.trans hq'
  have hsame : p₀.array = p'.array := (hbefore hsync.symm).1.symm.trans hafter.1
  obtain ⟨hnone, hnumber⟩ := h.valid_of_get hp
  by_cases hzero : other₀.getNumBuckets = 0
  · have hnone' := (Placed.Valid.of_replaced hreplaced).1.mpr (hsize.trans hzero)
    exact hbuckets (hnone.mp (hsame.trans hnone')) hzero
  · have harray : p'.array = some s.allocations :=
      hreplaced.1.trans (if_neg fun h => hzero (hsize.symm.trans h))
    exact Nat.lt_irrefl _ (hnumber _ (hsame.trans harray))

/-- A good run keeps every handle right. -/
theorem run_tracks {history : List (Op K V)}
    (h : (machine reverse T).Run (good T) history s) : s.Tracks :=
  h.invariant ⟨fun _ hit => (nomatch hit), fun _ hp => (nomatch hp)⟩
    fun _ op _ hs _ hgood hstep => (step_tracks hs op hgood).of_ok hstep

/-- As long as the steps of a run are good, a handle in sync lies in the current array,
and the first copy assignment that is not good leaves one that does not. -/
theorem sync_sound {history : List (Op K V)}
    (h : (machine reverse T).Run (good T) history s) :
    s.Sound ∧ ∀ i j s', ¬ good T s (.assign i j) →
      s.step reverse T (.assign i j) = .ok s' → ¬ s'.Sound := by
  have htracks := run_tracks h
  refine ⟨htracks.sound, fun i j s' hbad hstep => ?_⟩
  exact Ends.of_ok (P := fun s' => ¬ s'.Sound) hstep (assign_breaks htracks hbad)

instance (s : System K V) (it : Iterator) : Decidable (s.inSync it) :=
  match h : s.dictionaries[it.dictionary]? with
  | some p => decidable_of_iff (p.table.epoch = it.epochAtCreation)
      ⟨fun he => ⟨p, h, he⟩, fun ⟨_, hp, he⟩ => by cases h.symm.trans hp; exact he⟩
  | none => .isFalse fun ⟨_, hp, _⟩ => by cases h.symm.trans hp

instance (s : System K V) (op : Op K V) : Decidable (good T s op) :=
  match op with
  | .insert i key _ | .subscript i key | .store i key _ =>
      inferInstanceAs (Decidable (s.about i fun p => p.absent T key → ¬ s.madeAt i _))
  | .clear i | .reserve i _ => inferInstanceAs (Decidable (s.about i fun _ => ¬ s.madeAt i _))
  | .swap i j =>
      inferInstanceAs (Decidable (if i = j then s.about i fun _ => ¬ s.madeAt i _
        else s.about i (fun _ => ¬ s.madeAt i _) ∧ s.about j fun _ => ¬ s.madeAt j _))
  | .assign i j =>
      inferInstanceAs (Decidable (i = j ∨ s.about i fun p => ¬ s.madeAt i _ ∨
        s.about j fun other => p.getNumBuckets = 0 ∧ other.getNumBuckets = 0))
  | .construct _ | .copyConstruct _ | .erase _ _ | .eraseAt _ | .beginOf _ | .endOf _
  | .find _ _ => .isTrue trivial

end runs

/-- A dictionary with an element, an iterator of it, and an empty dictionary. -/
def watchedProgram : List (Op UInt32 Nat) :=
  [.construct 0, .insert 0 1 10, .beginOf 0, .construct 0]

theorem sync_sound_watched :
    ∃ s, (machine false (unsignedTable Nat)).Run (good (unsignedTable Nat)) watchedProgram s ∧
      s.Sound := by
  have hexec : ((machine false (unsignedTable Nat)).exec (good (unsignedTable Nat)) .init
      watchedProgram).isSome := by decide +kernel
  obtain ⟨s, hs⟩ := Option.isSome_iff_exists.mp hexec
  exact ⟨s, Machine.run_of_exec hs, (sync_sound (Machine.run_of_exec hs)).1⟩

/-- Copying the empty dictionary over the one with the iterator releases the array the
iterator points into, and the epoch stays. -/
theorem sync_broken :
    ∃ s, (machine false (unsignedTable Nat)).Reachable s ∧ ¬ s.Sound := by
  have hexec : ∃ s ∈ (machine false (unsignedTable Nat)).exec Machine.anyAction .init
      (watchedProgram ++ [.assign 0 1]),
      ∃ it ∈ s.iterators, s.inSync it ∧ ¬ s.about it.dictionary (·.Holds it) := by decide +kernel
  obtain ⟨s, hs, it, hit, hsync, hout⟩ := hexec
  refine ⟨s, ⟨_, Machine.run_of_exec hs⟩, fun hsound => hout ?_⟩
  obtain ⟨p, hp, hholds⟩ := hsound it hit hsync
  exact (System.about_iff hp).mpr hholds

end DictionaryIterator

end Rx
