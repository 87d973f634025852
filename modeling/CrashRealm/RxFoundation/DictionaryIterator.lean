/-
# `RxFoundation.DictionaryIterator` — iterators, epochs and bucket arrays

An iterator of a `Dictionary` is a pair of bucket pointers and the epoch its
dictionary had when it was made; `isHandleInSync` compares the two epochs.  A
`Placed` dictionary is a `Dictionary` that also says which allocation its
`_buckets` comes from, so that it can be told whether an iterator still points
into the current array: `_allocatedBuckets` takes the next number, `swap` exchanges
the arrays, and everything else leaves the array where it is.

`machine` runs the operations of a program that owns dictionaries and keeps all
iterators it ever obtained.  `reverse` is `shouldReverseIterate<KeyTy>()`, by which
an iterator over pointer keys stands behind its bucket.
-/
import CrashRealm.Lib.Machine
import CrashRealm.RxFoundation.HashClass

namespace Rx

open BasicHashTable

variable {K V : Type}

/-- A dictionary, the number of the allocation `_buckets` comes from, and the
allocations made so far. -/
structure Placed (K V : Type) where
  table : Dictionary K V
  array : Option Nat
  allocations : Nat
  deriving DecidableEq, Repr

namespace Placed

def getNumBuckets (p : Placed K V) : Nat := BasicHashTable.getNumBuckets p.table

/-- After `_allocatedBuckets`, the new array filled as in `table`. -/
def place (p : Placed K V) (table : Dictionary K V) : Placed K V where
  table := table
  array := if BasicHashTable.getNumBuckets table = 0 then none else some p.allocations
  allocations := p.allocations + 1

/-- An object whose members are about to be initialised. -/
def fresh (allocations : Nat) : Placed K V := ⟨Dictionary.fresh, none, allocations⟩

def init (T : TableType K V) (initNumEntries : Nat) (p : Placed K V) :
    Except Fault (Placed K V) := do
  let table ← Dictionary.init T initNumEntries p.table
  .ok (p.place table)

def copyFrom (T : TableType K V) (p other : Placed K V) : Except Fault (Placed K V) := do
  let table ← Dictionary.copyFrom T p.table other.table
  .ok (p.place table)

def grow (T : TableType K V) (atLeast : Nat) (p : Placed K V) : Except Fault (Placed K V) := do
  let table ← Dictionary.grow T atLeast p.table
  .ok (p.place table)

/-- The bucket count `shrink_and_clear` asks for. -/
def shrunkNumBuckets (p : Placed K V) : Except Fault Nat :=
  if p.table.numEntries = 0 then .ok 0
  else do
    let shifted ← shiftLeftOne (Math.log2_32_Ceil (u32 (u32 p.table.numEntries + 1)))
    .ok (toSize (min 32 shifted))

/-- `shrink_and_clear` keeps an array of the right size. -/
def shrinkAndClear (T : TableType K V) (p : Placed K V) : Except Fault (Placed K V) := do
  let newNumBuckets ← p.shrunkNumBuckets
  if newNumBuckets = p.getNumBuckets then do
    let table ← initEmpty Dictionary.entriesOk T p.table
    .ok { p with table }
  else init T newNumBuckets p

def derived : Derived K V (Placed K V) where
  table := table
  setTable p table := { p with table }
  entriesOk := Dictionary.entriesOk
  grow := grow
  shrinkAndClear := shrinkAndClear

def swap (sameObject : Bool) (p other : Placed K V) : Placed K V × Placed K V :=
  let tables := Dictionary.swap sameObject p.table other.table
  ({ p with table := tables.1, array := other.array },
    { other with table := tables.2, array := p.array })

end Placed

/-! ## Iterators -/

/-- `BasicHashTableIterator`: the dictionary whose epoch it watches, and positions in
a bucket array. -/
structure Iterator where
  dictionary : Nat
  epochAtCreation : Nat
  array : Option Nat
  /-- `_begin` -/
  position : Nat
  /-- `_end` -/
  stop : Nat
  deriving DecidableEq, Repr

namespace Placed

/-- `retreatPastEmptyBuckets`, down to the start of the array. -/
def retreatPastEmptyBuckets (T : TableType K V) (buckets : List (Bucket K V)) : Nat → Nat
  | 0 => 0
  | position + 1 =>
      match buckets[position]? with
      | none => position + 1
      | some b =>
          if isLiveKey T b.key then position + 1 else retreatPastEmptyBuckets T buckets position

/-- `advancePastEmptyBuckets`, from the start of the array. -/
def advancePastEmptyBuckets (T : TableType K V) (buckets : List (Bucket K V)) : Nat :=
  buckets.findIdx fun b => isLiveKey T b.key

variable (reverse : Bool) (T : TableType K V)

/-- `makeIterator` with `noAdvance`, of the `i`-th dictionary. -/
def makeIterator (i : Nat) (p : Placed K V) (position stop : Nat) : Iterator where
  dictionary := i
  epochAtCreation := p.table.epoch
  array := p.array
  position :=
    if reverse then (if position = p.getNumBuckets then 0 else position + 1) else position
  stop := stop

/-- `end()`. -/
def endIterator (i : Nat) (p : Placed K V) : Iterator :=
  makeIterator reverse i p p.getNumBuckets p.getNumBuckets

/-- `begin()`. -/
def beginIterator (i : Nat) (p : Placed K V) : Iterator :=
  if size p.table = 0 then endIterator reverse i p
  else
    { dictionary := i
      epochAtCreation := p.table.epoch
      array := p.array
      position :=
        if reverse then retreatPastEmptyBuckets T p.table.buckets p.getNumBuckets
        else advancePastEmptyBuckets T p.table.buckets
      stop := if reverse then 0 else p.getNumBuckets }

/-- `find(val)`. -/
def findIterator (i : Nat) (p : Placed K V) (val : K) : Except Fault Iterator := do
  let position ← find T p.table val
  .ok (makeIterator reverse i p position p.getNumBuckets)

end Placed

namespace DictionaryIterator

/-- What a program does with its dictionaries and iterators, named by position. -/
inductive Op (K V : Type) where
  | construct (initialReserve : Nat)
  | copyConstruct (i : Nat)
  | insert (i : Nat) (key : K) (value : V)
  /-- `d[key]`, read -/
  | subscript (i : Nat) (key : K)
  /-- `d[key] = value` -/
  | store (i : Nat) (key : K) (value : V)
  | erase (i : Nat) (key : K)
  /-- `erase(iterator)` -/
  | eraseAt (n : Nat)
  | clear (i : Nat)
  | reserve (i : Nat) (numEntries : Nat)
  | swap (i j : Nat)
  /-- copy assignment to the `i`-th from the `j`-th -/
  | assign (i j : Nat)
  | beginOf (i : Nat)
  | endOf (i : Nat)
  | find (i : Nat) (key : K)
  deriving DecidableEq, Repr

/-- The dictionaries, the allocations made so far, the iterators obtained so far. -/
structure System (K V : Type) where
  dictionaries : List (Placed K V)
  allocations : Nat
  iterators : List Iterator
  deriving DecidableEq, Repr

namespace System

def init : System K V := ⟨[], 0, []⟩

/-- The `i`-th dictionary, about to allocate. -/
def get (s : System K V) (i : Nat) : Except Fault (Placed K V) := do
  let p ← objectAt s.dictionaries i
  .ok { p with allocations := s.allocations }

def put (s : System K V) (i : Nat) (p : Placed K V) : System K V :=
  { s with dictionaries := s.dictionaries.set i p, allocations := p.allocations }

def add (s : System K V) (p : Placed K V) : System K V :=
  { s with dictionaries := s.dictionaries ++ [p], allocations := p.allocations }

def obtain (s : System K V) (it : Iterator) : System K V :=
  { s with iterators := s.iterators ++ [it] }

/-- `isHandleInSync`. -/
def inSync (s : System K V) (it : Iterator) : Prop :=
  ∃ p, s.dictionaries[it.dictionary]? = some p ∧ p.table.epoch = it.epochAtCreation

variable (reverse : Bool) (T : TableType K V)

/-- The bucket an iterator refers to, which has to be in sync. -/
def deref (s : System K V) (it : Iterator) : Except Fault (Placed K V × Nat) := do
  let p ← s.get it.dictionary
  if p.table.epoch = it.epochAtCreation then
    if p.array = it.array then
      if reverse then
        if it.position = 0 then .error .outOfBounds else .ok (p, it.position - 1)
      else .ok (p, it.position)
    else .error .dangling
  else .error (.assertion "invalid iterator access!")

/-- `erase(iterator)`. -/
def eraseAt (s : System K V) (n : Nat) : Except Fault (System K V) :=
  match s.iterators[n]? with
  | none => .error .dangling
  | some it => do
      let (p, position) ← s.deref reverse it
      let (i, b) ← bucketAt p.table (some position)
      let t := { p.table with buckets := p.table.buckets.set i { b with key := T.getTombstoneKey } }
      let t ← setNumEntries Dictionary.entriesOk (sub64 t.numEntries 1) t
      .ok (s.put it.dictionary
        { p with table := { t with numTombstones := u64 (t.numTombstones + 1) } })

def step (s : System K V) : Op K V → Except Fault (System K V)
  | .construct initialReserve => do
      let p ← Placed.init T initialReserve (.fresh s.allocations)
      .ok (s.add p)
  | .copyConstruct i => do
      let other ← s.get i
      let p ← Placed.init T 0 (.fresh s.allocations)
      let p ← Placed.copyFrom T p other
      .ok (s.add p)
  | .insert i key value => do
      let p ← s.get i
      let (p, position, _) ← insert Placed.derived T p key value
      .ok ((s.put i p).obtain (p.makeIterator reverse i position p.getNumBuckets))
  | .subscript i key => do
      let p ← s.get i
      let (p, _) ← findAndConstruct Placed.derived T p key
      .ok (s.put i p)
  | .store i key value => do
      let p ← s.get i
      let (p, position) ← findAndConstruct Placed.derived T p key
      let p ← assignAt Placed.derived p position value
      .ok (s.put i p)
  | .erase i key => do
      let p ← s.get i
      let (p, _) ← erase Placed.derived T p key
      .ok (s.put i p)
  | .eraseAt n => s.eraseAt reverse T n
  | .clear i => do
      let p ← s.get i
      let p ← clear Placed.derived T p
      .ok (s.put i p)
  | .reserve i numEntries => do
      let p ← s.get i
      let p ← reserve Placed.derived T p numEntries
      .ok (s.put i p)
  | .swap i j => do
      let p ← s.get i
      let other ← s.get j
      let (p, other) := Placed.swap (i == j) p other
      .ok ((s.put j other).put i p)
  | .assign i j => do
      let p ← s.get i
      let other ← s.get j
      if i = j then .ok s
      else do
        let p ← Placed.copyFrom T p other
        .ok (s.put i p)
  | .beginOf i => do
      let p ← s.get i
      .ok (s.obtain (p.beginIterator reverse T i))
  | .endOf i => do
      let p ← s.get i
      .ok (s.obtain (p.endIterator reverse i))
  | .find i key => do
      let p ← s.get i
      let it ← p.findIterator reverse T i key
      .ok (s.obtain it)

end System

/-- A program over dictionaries of one type. -/
def machine (reverse : Bool) (T : TableType K V) : Machine (System K V) (Op K V) Fault where
  start := .init
  enabled _ _ := True
  step s op := s.step reverse T op

instance (reverse : Bool) (T : TableType K V) (s : System K V) (op : Op K V) :
    Decidable ((machine reverse T).enabled s op) := inferInstanceAs (Decidable True)

end DictionaryIterator

end Rx
