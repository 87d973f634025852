/-
# `RxFoundation.HashClass` — programs over dictionary objects

`Dictionary` and `SmallDictionary` offer one public interface.  A `HashClass` is
a derived class together with its constructors, assignments and `swap`; `call`
is a member function called on one object, and `step` an operation of a program
that owns a growing list of objects of the class.  A call answers with what the
caller can see: the bucket an iterator or a reference points at, not its
address.
-/
import CrashRealm.RxFoundation.Dictionary

namespace Rx

open BasicHashTable

variable {K V S : Type}

/-- A class derived from `BasicHashTable`, with its special member functions.
Those that look at another object are told whether it is the same one. -/
structure HashClass (K V S : Type) extends Derived K V S where
  construct : TableType K V → Nat → Except Fault S
  copyConstruct : TableType K V → S → Except Fault S
  moveConstruct : TableType K V → S → Except Fault (S × S)
  assign : TableType K V → Bool → S → S → Except Fault S
  moveAssign : TableType K V → Bool → S → S → Except Fault (S × S)
  swap : TableType K V → Bool → S → S → Except Fault (S × S)

def Dictionary.hashClass : HashClass K V (Dictionary K V) where
  toDerived := Dictionary.derived
  construct := Dictionary.construct
  copyConstruct := Dictionary.copyConstruct
  moveConstruct := Dictionary.moveConstruct
  assign := Dictionary.assign
  moveAssign := Dictionary.moveAssign
  swap _ sameObject d other := .ok (Dictionary.swap sameObject d other)

def SmallDictionary.hashClass (InlineBuckets : Nat) :
    HashClass K V (SmallDictionary K V InlineBuckets) where
  toDerived := SmallDictionary.derived
  construct := SmallDictionary.construct
  copyConstruct := SmallDictionary.copyConstruct
  moveConstruct := SmallDictionary.moveConstruct
  assign := SmallDictionary.assign
  moveAssign := SmallDictionary.moveAssign
  swap := SmallDictionary.swap

/-! ## Calls on one object -/

/-- A member function with its arguments. -/
inductive Call (K V : Type) where
  | insert (key : K) (value : V)
  | erase (key : K)
  | findAndConstruct (key : K)
  /-- `d[key]`, read -/
  | subscript (key : K)
  /-- `d[key] = value` -/
  | store (key : K) (value : V)
  | find (key : K)
  | count (key : K)
  | size
  | clear
  | reserve (numEntries : Nat)
  deriving DecidableEq, Repr

/-- What the caller sees. -/
inductive Answer (K V : Type) where
  | none
  | flag (b : Bool)
  | number (n : Nat)
  | value (v : V)
  | bucket (b : Bucket K V)
  /-- what an iterator points at, nothing for `end()` -/
  | found (b : Option (Bucket K V))
  /-- what `insert` returns -/
  | inserted (b : Bucket K V) (isNew : Bool)
  deriving DecidableEq, Repr

namespace HashClass

variable (C : HashClass K V S) (T : TableType K V)

/-- A call on one object. -/
def call (s : S) : Call K V → Except Fault (S × Answer K V)
  | .insert key value => do
      let (s, i, isNew) ← insert C.toDerived T s key value
      let (_, b) ← bucketAt (C.table s) (some i)
      .ok (s, .inserted b isNew)
  | .erase key => do
      let (s, wasThere) ← erase C.toDerived T s key
      .ok (s, .flag wasThere)
  | .findAndConstruct key => do
      let (s, i) ← findAndConstruct C.toDerived T s key
      let (_, b) ← bucketAt (C.table s) (some i)
      .ok (s, .bucket b)
  | .subscript key => do
      let (s, i) ← findAndConstruct C.toDerived T s key
      let (_, b) ← bucketAt (C.table s) (some i)
      .ok (s, .value b.value)
  | .store key value => do
      let (s, i) ← findAndConstruct C.toDerived T s key
      let s ← assignAt C.toDerived s i value
      .ok (s, .none)
  | .find key => do
      let i ← find T (C.table s) key
      if i = getNumBuckets (C.table s) then .ok (s, .found Option.none)
      else
        let (_, b) ← bucketAt (C.table s) (some i)
        .ok (s, .found (some b))
  | .count key => do
      let n ← count T (C.table s) key
      .ok (s, .number n)
  | .size => .ok (s, .number (size (C.table s)))
  | .clear => do
      let s ← clear C.toDerived T s
      .ok (s, .none)
  | .reserve numEntries => do
      let s ← reserve C.toDerived T s numEntries
      .ok (s, .none)

end HashClass

/-! ## Programs -/

/-- An operation on the objects a program owns, named by their position. -/
inductive Op (K V : Type) where
  | construct (n : Nat)
  | copyConstruct (i : Nat)
  | moveConstruct (i : Nat)
  | assign (i j : Nat)
  | moveAssign (i j : Nat)
  | swap (i j : Nat)
  | on (i : Nat) (c : Call K V)
  deriving DecidableEq, Repr

/-- The object at a position. -/
def objectAt (env : List S) (i : Nat) : Except Fault S :=
  match env[i]? with
  | some s => .ok s
  | none => .error .dangling

namespace HashClass

variable (C : HashClass K V S) (T : TableType K V)

def step (env : List S) : Op K V → Except Fault (List S × Answer K V)
  | .construct n => do
      let s ← C.construct T n
      .ok (env ++ [s], .none)
  | .copyConstruct i => do
      let other ← objectAt env i
      let s ← C.copyConstruct T other
      .ok (env ++ [s], .none)
  | .moveConstruct i => do
      let other ← objectAt env i
      let (s, rest) ← C.moveConstruct T other
      .ok (env.set i rest ++ [s], .none)
  | .assign i j => do
      let s ← objectAt env i
      let other ← objectAt env j
      let s ← C.assign T (i == j) s other
      .ok (env.set i s, .none)
  | .moveAssign i j => do
      let s ← objectAt env i
      let other ← objectAt env j
      let (s, rest) ← C.moveAssign T (i == j) s other
      .ok ((env.set j rest).set i s, .none)
  | .swap i j => do
      let s ← objectAt env i
      let other ← objectAt env j
      let (s, other) ← C.swap T (i == j) s other
      .ok ((env.set j other).set i s, .none)
  | .on i c => do
      let s ← objectAt env i
      let (s, a) ← C.call T s c
      .ok (env.set i s, a)

/-- A program from a given list of objects: the objects it ends with, and its answers. -/
def run (env : List S) : List (Op K V) → Except Fault (List S × List (Answer K V))
  | [] => .ok (env, [])
  | op :: ops => do
      let (env, a) ← step C T env op
      let (env, as) ← run env ops
      .ok (env, a :: as)

end HashClass

end Rx
