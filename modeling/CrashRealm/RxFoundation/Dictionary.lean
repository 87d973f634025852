/-
# `RxFoundation.Dictionary` — `Dictionary` and `SmallDictionary`

The two classes of `Dictionary.hpp` that derive from `BasicHashTable`.

`Dictionary` always keeps its buckets on the heap; a null `_buckets` is the
empty bucket list.  `SmallDictionary<…, InlineBuckets>` keeps them in a union:
`small` is its `_small` bit and `buckets` whichever member of the union the bit
selects, so an inline array has length `InlineBuckets` and a heap array records
its own length as `LargeRep::_numBuckets`.

Both take a `sameObject` flag where the source compares `this` with the
argument, or where it behaves differently because they coincide.

`numBuckets` in `SmallDictionary::shrink_and_clear` is read as `_numBuckets`,
the missing `&` on `rhsb` in `SmallDictionary::swap` as present, and the `const`
on the parameter of `Dictionary`'s move assignment, which would not compile, as
absent.
-/
import CrashRealm.RxFoundation.BasicHash

namespace Rx

open BasicHashTable

variable {K V : Type}

/-- `1 << n` on `int`. -/
def shiftLeftOne (n : Nat) : Except Fault Int :=
  if n ≤ 30 then .ok (2 ^ n)
  else if n = 31 then .ok (-2 ^ 31)
  else .error .undefinedArithmetic

/-- Conversion of an `int` to `size_t`. -/
def toSize (i : Int) : Nat := (i % 2 ^ 64).toNat

/-! ## `Dictionary` -/

/-- `Dictionary`: the state is the table itself. -/
abbrev Dictionary (K V : Type) := Table K V

namespace Dictionary

/-- `setNumEntries` of `Dictionary` asserts nothing. -/
def entriesOk (_ : Nat) : Bool := true

/-- `_allocatedBuckets`. -/
def allocatedBuckets (T : TableType K V) (num : Nat) (d : Dictionary K V) :
    Dictionary K V × Bool :=
  ({ d with buckets := List.replicate num T.raw }, num != 0)

def init (T : TableType K V) (initNumEntries : Nat) (d : Dictionary K V) :
    Except Fault (Dictionary K V) :=
  let initBuckets := getMinBucketToReserveForEntries initNumEntries
  match allocatedBuckets T initBuckets d with
  | (d, true) => initEmpty entriesOk T d
  | (d, false) => .ok { d with numEntries := 0, numTombstones := 0 }

def grow (T : TableType K V) (atLeast : Nat) (d : Dictionary K V) :
    Except Fault (Dictionary K V) :=
  let oldBuckets := d.buckets
  let (d, _) := allocatedBuckets T (max 64 (Math.nextPowerOf2_64 (sub64 atLeast 1))) d
  if oldBuckets.isEmpty then initEmpty entriesOk T d
  else moveFromOldBuckets entriesOk T oldBuckets d

def shrinkAndClear (T : TableType K V) (d : Dictionary K V) :
    Except Fault (Dictionary K V) := do
  let oldNumEntries := d.numEntries
  let newNumBuckets ←
    if oldNumEntries = 0 then .ok 0
    else do
      let shifted ← shiftLeftOne (Math.log2_32_Ceil (u32 (u32 oldNumEntries + 1)))
      .ok (toSize (min 32 shifted))
  if newNumBuckets = getNumBuckets d then initEmpty entriesOk T d
  else init T newNumBuckets d

def derived : Derived K V (Dictionary K V) where
  table := id
  setTable _ t := t
  entriesOk := entriesOk
  grow := grow
  shrinkAndClear := shrinkAndClear

/-- An object whose members are about to be initialised. -/
def fresh : Dictionary K V := ⟨[], 0, 0, 0⟩

/-- `Dictionary(initialReserve)`. -/
def construct (T : TableType K V) (initialReserve : Nat) : Except Fault (Dictionary K V) :=
  init T initialReserve fresh

def copyFrom (T : TableType K V) (d other : Dictionary K V) :
    Except Fault (Dictionary K V) :=
  match allocatedBuckets T (getNumBuckets other) d with
  | (d, true) => BasicHashTable.copyFrom entriesOk T d other
  | (d, false) => .ok { d with numEntries := 0, numTombstones := 0 }

/-- `swap`: everything but the epochs changes places. -/
def swap (sameObject : Bool) (d other : Dictionary K V) : Dictionary K V × Dictionary K V :=
  if sameObject then
    let d := incrementEpoch (incrementEpoch d)
    (d, d)
  else
    let d := incrementEpoch d
    let other := incrementEpoch other
    ({ other with epoch := d.epoch }, { d with epoch := other.epoch })

/-- `Dictionary(const Dictionary &)`. -/
def copyConstruct (T : TableType K V) (other : Dictionary K V) :
    Except Fault (Dictionary K V) := do
  let d ← init T 0 fresh
  copyFrom T d other

/-- `Dictionary(Dictionary &&)`: the new object and what is left of the old. -/
def moveConstruct (T : TableType K V) (other : Dictionary K V) :
    Except Fault (Dictionary K V × Dictionary K V) := do
  let d ← init T 0 fresh
  .ok (swap false d other)

/-- `operator=(const Dictionary &)`. -/
def assign (T : TableType K V) (sameObject : Bool) (d other : Dictionary K V) :
    Except Fault (Dictionary K V) :=
  if sameObject then .ok d else copyFrom T d other

/-- `operator=(Dictionary &&)`. -/
def moveAssign (T : TableType K V) (sameObject : Bool) (d other : Dictionary K V) :
    Except Fault (Dictionary K V × Dictionary K V) := do
  let d ← init T 0 d
  .ok (swap sameObject d other)

end Dictionary

/-! ## `SmallDictionary` -/

/-- `SmallDictionary<K, V, InlineBuckets>`. -/
structure SmallDictionary (K V : Type) (InlineBuckets : Nat) extends Table K V where
  small : Bool
  deriving DecidableEq, Repr

namespace SmallDictionary

variable {InlineBuckets : Nat}

/-- `setNumEntries` of `SmallDictionary` asserts `Num < INT_MAX`. -/
def entriesOk (num : Nat) : Bool := num < intMax

/-- The inline bucket array. -/
def getInlineBuckets (d : SmallDictionary K V InlineBuckets) :
    Except Fault (List (Bucket K V)) :=
  if d.small then .ok d.buckets else .error (.assertion "_small")

/-- The heap bucket array, whose length is its `_numBuckets`. -/
def getLargeRep (d : SmallDictionary K V InlineBuckets) : Except Fault (List (Bucket K V)) :=
  if d.small then .error (.assertion "!_small") else .ok d.buckets

/-- `allocateBuckets`. -/
def allocateBuckets (InlineBuckets : Nat) (T : TableType K V) (num : Nat) :
    Except Fault (List (Bucket K V)) :=
  if num > InlineBuckets then .ok (List.replicate num T.raw)
  else .error (.assertion "Must allocate more buckets than are inline")

/-- Running a base-class function on the table inside. -/
def onTable (f : Table K V → Except Fault (Table K V))
    (d : SmallDictionary K V InlineBuckets) :
    Except Fault (SmallDictionary K V InlineBuckets) := do
  let t ← f d.toTable
  .ok { d with toTable := t }

/-- Selecting inline storage, its bytes still raw. -/
def useInline (T : TableType K V) (d : SmallDictionary K V InlineBuckets) :
    SmallDictionary K V InlineBuckets :=
  { d with small := true, buckets := List.replicate InlineBuckets T.raw }

/-- Selecting a freshly allocated `LargeRep`. -/
def useLarge (T : TableType K V) (num : Nat) (d : SmallDictionary K V InlineBuckets) :
    Except Fault (SmallDictionary K V InlineBuckets) := do
  let rep ← allocateBuckets InlineBuckets T num
  .ok { d with small := false, buckets := rep }

/-- The choice of storage in `init` and `copyFrom`. -/
def chooseStorage (T : TableType K V) (num : Nat) (d : SmallDictionary K V InlineBuckets) :
    Except Fault (SmallDictionary K V InlineBuckets) :=
  if num > InlineBuckets then useLarge T num d else .ok (useInline T d)

def init (T : TableType K V) (initBuckets : Nat) (d : SmallDictionary K V InlineBuckets) :
    Except Fault (SmallDictionary K V InlineBuckets) := do
  let d ← chooseStorage T initBuckets d
  onTable (initEmpty entriesOk T) d

/-- The loop of `grow` that collects the live inline buckets in `tmpStorage`. -/
def collectInline (T : TableType K V) (InlineBuckets : Nat) :
    List (Bucket K V) → List (Bucket K V) → Except Fault (List (Bucket K V))
  | [], tmp => .ok tmp
  | b :: bs, tmp =>
      if isLiveKey T b.key then
        if tmp.length < InlineBuckets then collectInline T InlineBuckets bs (tmp ++ [b])
        else .error (.assertion "Too many inline buckets!")
      else collectInline T InlineBuckets bs tmp

def grow (T : TableType K V) (atLeast : Nat) (d : SmallDictionary K V InlineBuckets) :
    Except Fault (SmallDictionary K V InlineBuckets) :=
  let atLeast :=
    if atLeast ≥ InlineBuckets then max 64 (Math.nextPowerOf2_64 (sub64 atLeast 1)) else atLeast
  if d.small then
    if atLeast < InlineBuckets then .ok d
    else do
      let inlineBuckets ← getInlineBuckets d
      let tmp ← collectInline T InlineBuckets inlineBuckets []
      let d ← useLarge T atLeast d
      onTable (moveFromOldBuckets entriesOk T tmp) d
  else do
    let oldRep ← getLargeRep d
    let d ← if atLeast ≤ InlineBuckets then .ok (useInline T d) else useLarge T atLeast d
    onTable (moveFromOldBuckets entriesOk T oldRep) d

/-- Whether the present storage has the bucket count asked for. -/
def keepsStorage (newNumBuckets : Nat) (d : SmallDictionary K V InlineBuckets) :
    Except Fault Bool :=
  if d.small then .ok (newNumBuckets ≤ InlineBuckets)
  else do
    let rep ← getLargeRep d
    .ok (newNumBuckets == rep.length)

/-- The end of `shrink_and_clear`: empty the present storage, or start over. -/
def shrinkTo (T : TableType K V) (newNumBuckets : Nat) (d : SmallDictionary K V InlineBuckets) :
    Except Fault (SmallDictionary K V InlineBuckets) := do
  let keeps ← keepsStorage newNumBuckets d
  if keeps then onTable (initEmpty entriesOk T) d else init T newNumBuckets d

def shrinkAndClear (T : TableType K V) (d : SmallDictionary K V InlineBuckets) :
    Except Fault (SmallDictionary K V InlineBuckets) := do
  let oldSize := size d.toTable
  if oldSize = 0 then shrinkTo T 0 d
  else
    let shifted ← shiftLeftOne (Math.log2_32_Ceil (u32 oldSize) + 1)
    let num := toSize shifted
    shrinkTo T (if num > InlineBuckets ∧ num < 64 then 64 else num) d

def derived : Derived K V (SmallDictionary K V InlineBuckets) where
  table d := d.toTable
  setTable d t := { d with toTable := t }
  entriesOk := entriesOk
  grow := grow
  shrinkAndClear := shrinkAndClear

/-- An object whose members are about to be initialised. -/
def fresh : SmallDictionary K V InlineBuckets := ⟨⟨[], 0, 0, 0⟩, true⟩

/-- `SmallDictionary(numInitBuckets)`. -/
def construct (T : TableType K V) (numInitBuckets : Nat) :
    Except Fault (SmallDictionary K V InlineBuckets) :=
  init T numInitBuckets fresh

def copyFrom (T : TableType K V) (d other : SmallDictionary K V InlineBuckets) :
    Except Fault (SmallDictionary K V InlineBuckets) := do
  let d ← chooseStorage T (getNumBuckets other.toTable) d
  onTable (fun t => BasicHashTable.copyFrom entriesOk T t other.toTable) d

/-- The bucket `lhsb` ends up with when two inline buckets are exchanged: a
value moves only when its bucket is live. -/
def swapBucket (T : TableType K V) (lhsb rhsb : Bucket K V) : Bucket K V :=
  if isLiveKey T rhsb.key then rhsb else { lhsb with key := rhsb.key }

/-- `swap`, with its four combinations of inline and heap storage. -/
def swap (T : TableType K V) (sameObject : Bool) (d rhs : SmallDictionary K V InlineBuckets) :
    Except Fault (SmallDictionary K V InlineBuckets × SmallDictionary K V InlineBuckets) :=
  -- the counters change places first
  let d' : SmallDictionary K V InlineBuckets :=
    { d with numEntries := rhs.numEntries, numTombstones := rhs.numTombstones }
  let rhs' : SmallDictionary K V InlineBuckets :=
    { rhs with numEntries := d.numEntries, numTombstones := d.numTombstones }
  if sameObject then .ok (d, d)
  else if d.small ∧ rhs.small then do
    let lhsb ← getInlineBuckets d
    let rhsb ← getInlineBuckets rhs
    .ok ({ d' with buckets := List.zipWith (swapBucket T) lhsb rhsb },
      { rhs' with buckets := List.zipWith (swapBucket T) rhsb lhsb })
  else if ¬ d.small ∧ ¬ rhs.small then do
    let lhsRep ← getLargeRep d
    let rhsRep ← getLargeRep rhs
    .ok ({ d' with buckets := rhsRep }, { rhs' with buckets := lhsRep })
  else do
    let smallSide := if d.small then d else rhs
    let largeSide := if d.small then rhs else d
    let tmpRep ← getLargeRep largeSide
    let newB ← getInlineBuckets (useInline T largeSide)
    let oldB ← getInlineBuckets smallSide
    let inlineBuckets := List.zipWith (copyBucket T) newB oldB
    .ok (if d.small then
        ({ d' with small := false, buckets := tmpRep },
          { rhs' with small := true, buckets := inlineBuckets })
      else
        ({ d' with small := true, buckets := inlineBuckets },
          { rhs' with small := false, buckets := tmpRep }))

/-- `SmallDictionary(const SmallDictionary &)`. -/
def copyConstruct (T : TableType K V) (other : SmallDictionary K V InlineBuckets) :
    Except Fault (SmallDictionary K V InlineBuckets) := do
  let d ← init T 0 fresh
  copyFrom T d other

/-- `SmallDictionary(SmallDictionary &&)`. -/
def moveConstruct (T : TableType K V) (other : SmallDictionary K V InlineBuckets) :
    Except Fault (SmallDictionary K V InlineBuckets × SmallDictionary K V InlineBuckets) := do
  let d ← init T 0 fresh
  swap T false d other

/-- `operator=(const SmallDictionary &)`. -/
def assign (T : TableType K V) (sameObject : Bool)
    (d other : SmallDictionary K V InlineBuckets) :
    Except Fault (SmallDictionary K V InlineBuckets) :=
  if sameObject then .ok d else copyFrom T d other

/-- `operator=(SmallDictionary &&)`. -/
def moveAssign (T : TableType K V) (sameObject : Bool)
    (d other : SmallDictionary K V InlineBuckets) :
    Except Fault (SmallDictionary K V InlineBuckets × SmallDictionary K V InlineBuckets) := do
  let d ← init T 0 d
  swap T sameObject d other

end SmallDictionary

end Rx
