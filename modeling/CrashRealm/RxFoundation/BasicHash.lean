/-
# `RxFoundation.BasicHash` — `BasicHash.hpp`, the open-addressing base class

`BasicHashTable<DerivedType, …>` keeps its buckets, its two counters and its
iterator epoch in a derived class and reaches them through `static_cast`.  Here
that state is a `Table`, and what the derived class supplies beyond storage
(`grow`, `shrink_and_clear`, the assertion in `setNumEntries`) is a value of
`Derived`; every function below is the member function of the same name.

Three conventions.

* **Memory.**  `operator new` returns buckets holding `T.raw`, about which
  nothing is assumed; destructors leave the bytes they destroy.  A bucket is
  live when its key is neither sentinel, and only live buckets are ever read
  for their value.  Allocation is assumed to succeed.
* **The unbounded loop.**  `while (1)` of `lookupBucketFor` is `probeLoop` with
  a budget of rounds; `lookupBucketFor` gives it as many rounds as there are
  buckets.  That this is always enough is a theorem, not a convention.
* **Misspellings.**  `ValueT` in `erase` is read as `ValueTy`, and `bucket` in
  `count` as a pointer to a constant bucket.
-/
import CrashRealm.RxFoundation.Fault
import CrashRealm.RxFoundation.Math

namespace Rx

/-- `BasicHashInfo<KeyTy>`. -/
structure KeyInfo (K : Type) where
  isEqual : K → K → Bool
  getHashValue : K → UInt64
  getEmptyKey : K
  getTombstoneKey : K

/-- A `KeyInfo` fit for hashing. -/
structure LawfulKeyInfo (K : Type) extends KeyInfo K where
  refl : ∀ a, isEqual a a = true
  symm : ∀ a b, isEqual a b = true → isEqual b a = true
  trans : ∀ a b c, isEqual a b = true → isEqual b c = true → isEqual a c = true
  hash_congr : ∀ a b, isEqual a b = true → getHashValue a = getHashValue b
  sentinels : isEqual getEmptyKey getTombstoneKey = false

/-- `detail::BucketPair`. -/
structure Bucket (K V : Type) where
  key : K
  value : V
  deriving DecidableEq, Repr

/-- The template arguments of a table, with what its functions ask of them. -/
structure TableType (K V : Type) extends LawfulKeyInfo K where
  /-- `ValueTy()` -/
  defaultValue : V
  /-- what fresh memory holds -/
  raw : Bucket K V
  /-- `is_trivially_copyable` of key and value -/
  isTriviallyCopyable : Bool
  /-- `isPodLike` of key and value -/
  isPodLike : Bool

/-- The state of a table: its bucket array, its counters, its epoch. -/
structure Table (K V : Type) where
  buckets : List (Bucket K V)
  numEntries : Nat
  numTombstones : Nat
  epoch : Nat
  deriving DecidableEq, Repr

/-- What a derived class supplies to `BasicHashTable`. -/
structure Derived (K V S : Type) where
  table : S → Table K V
  setTable : S → Table K V → S
  /-- the assertion made by `setNumEntries` -/
  entriesOk : Nat → Bool
  grow : TableType K V → Nat → S → Except Fault S
  shrinkAndClear : TableType K V → S → Except Fault S

namespace BasicHashTable

variable {K V S : Type}

/-- The key is neither sentinel. -/
def isLiveKey (T : TableType K V) (key : K) : Bool :=
  !T.isEqual key T.getEmptyKey && !T.isEqual key T.getTombstoneKey

def getNumBuckets (t : Table K V) : Nat := t.buckets.length

def incrementEpoch (t : Table K V) : Table K V := { t with epoch := u64 (t.epoch + 1) }

def setNumEntries (entriesOk : Nat → Bool) (num : Nat) (t : Table K V) :
    Except Fault (Table K V) :=
  if entriesOk num then .ok { t with numEntries := num }
  else .error (.assertion "Cannot support more than INT_MAX entries")

/-! ### Lookup -/

/-- The `while (1)` of `lookupBucketFor`, for at most `rounds` rounds. -/
def probeLoop (T : TableType K V) (buckets : List (Bucket K V)) (value : K) :
    (rounds bucketIndex probeAmt : Nat) → Option Nat → Except Fault (Bool × Nat)
  | 0, _, _, _ => .error .spinning
  | rounds + 1, bucketIndex, probeAmt, foundTombstone =>
      match buckets[bucketIndex]? with
      | none => .error .outOfBounds
      | some currentBucket =>
          if T.isEqual value currentBucket.key then .ok (true, bucketIndex)
          else if T.isEqual T.getEmptyKey currentBucket.key then
            .ok (false, foundTombstone.getD bucketIndex)
          else
            probeLoop T buckets value rounds
              (u64 (bucketIndex + probeAmt) &&& (buckets.length - 1)) (u64 (probeAmt + 1))
              (if T.isEqual T.getTombstoneKey currentBucket.key && foundTombstone.isNone then
                some bucketIndex else foundTombstone)

/-- `lookupBucketFor`: whether the key is there, and the bucket pointer. -/
def lookupBucketFor (T : TableType K V) (t : Table K V) (value : K) :
    Except Fault (Bool × Option Nat) :=
  if getNumBuckets t = 0 then .ok (false, none)
  else if T.isEqual value T.getEmptyKey || T.isEqual value T.getTombstoneKey then
    .error (.assertion "Empty/Tombston value shouldn't be inserted into map")
  else do
    let (isFound, bucket) ← probeLoop T t.buckets value (getNumBuckets t)
      ((T.getHashValue value).toNat &&& (getNumBuckets t - 1)) 1 none
    .ok (isFound, some bucket)

/-- Dereferencing a bucket pointer. -/
def bucketAt (t : Table K V) : Option Nat → Except Fault (Nat × Bucket K V)
  | none => .error .dangling
  | some i =>
      match t.buckets[i]? with
      | none => .error .outOfBounds
      | some b => .ok (i, b)

def size (t : Table K V) : Nat := t.numEntries

/-- `find`: the position of the iterator, `numBuckets` for `end()`. -/
def find (T : TableType K V) (t : Table K V) (val : K) : Except Fault Nat := do
  let (isFound, bucket) ← lookupBucketFor T t val
  if isFound then
    let (i, _) ← bucketAt t bucket
    .ok i
  else .ok (getNumBuckets t)

def count (T : TableType K V) (t : Table K V) (val : K) : Except Fault Nat := do
  let (isFound, _) ← lookupBucketFor T t val
  .ok (if isFound then 1 else 0)

/-! ### Whole-array functions -/

def getMinBucketToReserveForEntries (numEntries : Nat) : Nat :=
  if numEntries = 0 then 0
  else Math.nextPowerOf2_64 (u64 (u64 (numEntries * 4) / 3 + 1))

def initEmpty (entriesOk : Nat → Bool) (T : TableType K V) (t : Table K V) :
    Except Fault (Table K V) := do
  let t ← setNumEntries entriesOk 0 t
  let t := { t with numTombstones := 0 }
  if getNumBuckets t &&& (getNumBuckets t - 1) = 0 then
    .ok { t with buckets := t.buckets.map fun b => { b with key := T.getEmptyKey } }
  else .error (.assertion "# initial buckets must be a power of two!")

/-- The loop of `moveFromOldBuckets` over the old array. -/
def moveLoop (entriesOk : Nat → Bool) (T : TableType K V) :
    List (Bucket K V) → Table K V → Except Fault (Table K V)
  | [], t => .ok t
  | b :: bs, t =>
      if isLiveKey T b.key then do
        let (foundValue, destBucket) ← lookupBucketFor T t b.key
        if foundValue then .error (.assertion "Key already in new map?")
        else
          let (i, _) ← bucketAt t destBucket
          let t := { t with buckets := t.buckets.set i b }
          let t ← setNumEntries entriesOk (u64 (t.numEntries + 1)) t
          moveLoop entriesOk T bs t
      else moveLoop entriesOk T bs t

def moveFromOldBuckets (entriesOk : Nat → Bool) (T : TableType K V)
    (oldBuckets : List (Bucket K V)) (t : Table K V) : Except Fault (Table K V) := do
  let t ← initEmpty entriesOk T t
  moveLoop entriesOk T oldBuckets t

/-- The bucket-wise copy: the value of a bucket that is not live stays unconstructed. -/
def copyBucket (T : TableType K V) (mine theirs : Bucket K V) : Bucket K V :=
  if isLiveKey T theirs.key then theirs else { mine with key := theirs.key }

def copyFrom (entriesOk : Nat → Bool) (T : TableType K V) (t other : Table K V) :
    Except Fault (Table K V) :=
  if getNumBuckets t = getNumBuckets other then do
    let t ← setNumEntries entriesOk other.numEntries t
    let t := { t with numTombstones := other.numTombstones }
    if T.isPodLike then .ok { t with buckets := other.buckets }
    else
      .ok { t with buckets := List.zipWith (copyBucket T) t.buckets other.buckets }
  else .error (.assertion "getNumBuckets() == other.getNumBuckets()")

/-- The bucket loop of `clear` for types that are not trivially copyable,
counting the live buckets down. -/
def clearLoop (T : TableType K V) : List (Bucket K V) → Nat → List (Bucket K V) × Nat
  | [], numEntries => ([], numEntries)
  | b :: bs, numEntries =>
      if T.isEqual b.key T.getEmptyKey then
        let (bs', n) := clearLoop T bs numEntries
        (b :: bs', n)
      else
        let (bs', n) := clearLoop T bs
          (if T.isEqual b.key T.getTombstoneKey then numEntries else sub64 numEntries 1)
        ({ b with key := T.getEmptyKey } :: bs', n)

/-- What `clear` leaves in the array it keeps. -/
def clearBuckets (T : TableType K V) (t : Table K V) : Except Fault (List (Bucket K V)) :=
  if T.isTriviallyCopyable then .ok (t.buckets.map fun b => { b with key := T.getEmptyKey })
  else
    let (bs, numEntries) := clearLoop T t.buckets t.numEntries
    if numEntries = 0 then .ok bs else .error (.assertion "Node count imbalance!")

/-! ### Functions that go through the derived class -/

variable (D : Derived K V S) (T : TableType K V)

def reserve (s : S) (numEntries : Nat) : Except Fault S :=
  let numBuckets := getMinBucketToReserveForEntries numEntries
  let s := D.setTable s (incrementEpoch (D.table s))
  if numBuckets > getNumBuckets (D.table s) then D.grow T numBuckets s else .ok s

/-- The test of `clear`: more than 64 buckets, less than a quarter full. -/
def isSparse (t : Table K V) : Prop :=
  u64 (t.numEntries * 4) < getNumBuckets t ∧ getNumBuckets t > 64

instance (t : Table K V) : Decidable (isSparse t) := inferInstanceAs (Decidable (_ ∧ _))

def clear (s : S) : Except Fault S := do
  let s := D.setTable s (incrementEpoch (D.table s))
  let t := D.table s
  if t.numEntries = 0 ∧ t.numTombstones = 0 then .ok s
  else if isSparse t then D.shrinkAndClear T s
  else
    let buckets ← clearBuckets T t
    let t ← setNumEntries D.entriesOk 0 { t with buckets := buckets }
    .ok (D.setTable s { t with numTombstones := 0 })

/-- The bucket `insertIntoBucketImpl` settles on after growing or rehashing. -/
def growAndLookup (atLeast : Nat) (s : S) (lookup : K) : Except Fault (S × Option Nat) := do
  let s ← D.grow T atLeast s
  let (_, bucket) ← lookupBucketFor T (D.table s) lookup
  .ok (s, bucket)

/-- The load test of `insertIntoBucketImpl`: three quarters full. -/
def needsMoreBuckets (t : Table K V) : Prop :=
  u64 (getNumBuckets t * 3) ≤ u64 (u64 (t.numEntries + 1) * 4)

/-- Its other test: at most an eighth of the buckets empty. -/
def needsRehash (t : Table K V) : Prop :=
  sub64 (getNumBuckets t) (u64 (u64 (t.numEntries + 1) + t.numTombstones))
    ≤ getNumBuckets t / 8

instance (t : Table K V) : Decidable (needsMoreBuckets t) :=
  inferInstanceAs (Decidable (_ ≤ _))

instance (t : Table K V) : Decidable (needsRehash t) :=
  inferInstanceAs (Decidable (_ ≤ _))

/-- The first half of `insertIntoBucketImpl`: grow, rehash in place, or keep the bucket. -/
def makeRoom (s : S) (lookup : K) (bucket : Option Nat) : Except Fault (S × Option Nat) :=
  let t := D.table s
  if needsMoreBuckets t then growAndLookup D T (u64 (getNumBuckets t * 2)) s lookup
  else if needsRehash t then growAndLookup D T (getNumBuckets t) s lookup
  else .ok (s, bucket)

/-- Dereferencing a bucket pointer asserted not to be null. -/
def assertBucketAt (t : Table K V) (bucket : Option Nat) : Except Fault (Nat × Bucket K V) :=
  if bucket.isSome then bucketAt t bucket else .error (.assertion "bucket")

def insertIntoBucketImpl (s : S) (lookup : K) (bucket : Option Nat) :
    Except Fault (S × Nat) := do
  let s := D.setTable s (incrementEpoch (D.table s))
  let (s, bucket) ← makeRoom D T s lookup bucket
  let t := D.table s
  let (i, b) ← assertBucketAt t bucket
  let t ← setNumEntries D.entriesOk (u64 (t.numEntries + 1)) t
  let t := if T.isEqual b.key T.getEmptyKey then t
    else { t with numTombstones := sub64 t.numTombstones 1 }
  .ok (D.setTable s t, i)

def insertIntoBucket (s : S) (key : K) (value : V) (bucket : Option Nat) :
    Except Fault (S × Nat) := do
  let (s, i) ← insertIntoBucketImpl D T s key bucket
  let t := D.table s
  .ok (D.setTable s { t with buckets := t.buckets.set i ⟨key, value⟩ }, i)

/-- `insert`: the position of the returned iterator and whether it is new. -/
def insert (s : S) (key : K) (value : V) : Except Fault (S × Nat × Bool) := do
  let (isFound, theBucket) ← lookupBucketFor T (D.table s) key
  if isFound then
    let (i, _) ← bucketAt (D.table s) theBucket
    .ok (s, i, false)
  else
    let (s, i) ← insertIntoBucket D T s key value theBucket
    .ok (s, i, true)

def erase (s : S) (val : K) : Except Fault (S × Bool) := do
  let t := D.table s
  let (isFound, theBucket) ← lookupBucketFor T t val
  if isFound then
    let (i, b) ← bucketAt t theBucket
    let t := { t with buckets := t.buckets.set i { b with key := T.getTombstoneKey } }
    let t ← setNumEntries D.entriesOk (sub64 t.numEntries 1) t
    .ok (D.setTable s { t with numTombstones := u64 (t.numTombstones + 1) }, true)
  else .ok (s, false)

/-- `findAndConstruct`: the bucket referred to. -/
def findAndConstruct (s : S) (key : K) : Except Fault (S × Nat) := do
  let (isFound, theBucket) ← lookupBucketFor T (D.table s) key
  if isFound then
    let (i, _) ← bucketAt (D.table s) theBucket
    .ok (s, i)
  else insertIntoBucket D T s key T.defaultValue theBucket

/-- A store through the reference `operator[]` returns. -/
def assignAt (s : S) (i : Nat) (value : V) : Except Fault S := do
  let t := D.table s
  let (_, b) ← bucketAt t (some i)
  .ok (D.setTable s { t with buckets := t.buckets.set i { b with value := value } })

end BasicHashTable

end Rx
