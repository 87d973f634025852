/-
# `RxFoundation.OrderedSet` — an array and a set kept side by side

`OrderedSet<T>` stores every element twice: in `_array` for the order, in `_set`
for membership.  Each mutator updates both through the containers' own
functions.  An iterator is a reference to its ordered set and a `size_t`
position, `EndIndex` standing for `end()`.

`erase(const_iterator &)` holds a reference to the element's slot of `_array`
across the array's own erase and then erases from `_set` whatever that slot
reads by then.  When the last element goes, the slot lies past the end; what a
destroyed `T` there still reads as is the parameter `residue`, `none` where that
cannot be read at all.
-/
import CrashRealm.RxFoundation.CollectionContainer

namespace Rx

open CollectionContainer

/-- `OrderedSet<T>`. -/
structure OrderedSet (T : Type) [LinearOrder T] where
  array : List T
  set : CollectionContainer3 T
  deriving DecidableEq

namespace OrderedSet

variable {T : Type} [LinearOrder T]

/-- `EndIndex` and `NotFound`, as a `size_t`. -/
def endIndex : Nat := 2 ^ 64 - 1

def empty : OrderedSet T := ⟨[], .empty⟩

def size (s : OrderedSet T) : Except Fault Nat :=
  if s.array.length = s.set.size then .ok s.array.length
  else .error (.assertion "size == _set.size()")

def isEmpty (s : OrderedSet T) : Except Fault Bool := do
  let size ← s.size
  .ok (size == 0)

def contains (s : OrderedSet T) (element : T) : Bool := s.set.contains element

/-- `operator==`. -/
def equal (sameObject : Bool) (s value : OrderedSet T) : Except Fault Bool :=
  if sameObject then .ok true
  else do
    let size ← s.size
    let valueSize ← value.size
    if size = valueSize then .ok (decide (s.array = value.array) && decide (s.set = value.set))
    else .ok false

/-! ## Iterators -/

/-- `operator bool` of an iterator. -/
def isDereferenceable (s : OrderedSet T) (index : Nat) : Except Fault Bool :=
  if index = endIndex then .ok false
  else do
    let size ← s.size
    .ok (size != 0 && decide (size > index))

/-- `_getPosition`. -/
def getPosition (s : OrderedSet T) (index : Nat) : Except Fault Nat := do
  let valid ← s.isDereferenceable index
  .ok (if valid then index else endIndex)

/-- `operator*`. -/
def deref (s : OrderedSet T) (index : Nat) : Except Fault T := do
  let valid ← s.isDereferenceable index
  if valid then
    match s.array[index]? with
    | some element => .ok element
    | none => .error .outOfBounds
  else .error (.assertion "(bool)(*this)")

/-- The second half of both `find`s: the array position of what the set found. -/
def positionOf (s : OrderedSet T) (it : Nat) : Except Fault Nat :=
  match s.set.storage[it]? with
  | none => .ok endIndex
  | some element =>
      let arrayIt := CollectionContainer.find s.array element
      if arrayIt != s.array.length then .ok arrayIt
      else .error (.assertion "arrayIt != _array.end()")

/-- `find(element)`. -/
def find (s : OrderedSet T) (element : T) : Except Fault Nat :=
  s.positionOf (s.set.find element)

/-- `find(predicate)`. -/
def findIf (s : OrderedSet T) (predicate : T → Bool) : Except Fault Nat :=
  s.positionOf (s.set.findIf predicate)

/-! ## Mutators -/

/-- The loop of the initializer-list constructor. -/
def constructLoop : List T → OrderedSet T → OrderedSet T
  | [], s => s
  | element :: il, s =>
      if s.set.contains element then constructLoop il s
      else constructLoop il ⟨addObject s.array element, s.set.addObject element⟩

/-- `OrderedSet(std::initializer_list)`. -/
def construct (il : List T) : Except Fault (OrderedSet T) := do
  let s := constructLoop il empty
  let _ ← s.size
  .ok s

def addObject (s : OrderedSet T) (value : T) : Except Fault (OrderedSet T) := do
  let _ ← s.size
  let s : OrderedSet T := ⟨CollectionContainer.addObject s.array value, s.set.addObject value⟩
  let _ ← s.size
  .ok s

/-- `addObjects(start, end)`, the two iterators being positions `start` and `stop` of
`startSet` and `stopSet`. -/
def addObjects (s startSet stopSet : OrderedSet T) (startIsStop startIsThis : Bool)
    (start stop : Nat) : Except Fault (OrderedSet T) := do
  let together ← equal startIsStop startSet stopSet
  if !together then .ok s
  else
    let own ← equal startIsThis startSet s
    if own then .ok s
    else
      let startPosition ← startSet.getPosition start
      let endPosition ← stopSet.getPosition stop
      if startPosition = endPosition then .ok s
      else
        let cnt ← s.size
        if startPosition ≥ cnt then .ok s
        else if endPosition ≠ endIndex ∧ endPosition < startPosition then .ok s
        else
          let last := if endPosition = endIndex then startSet.array.length
            else startPosition + endPosition
          let segment ← slice startSet.array startPosition last
          let s : OrderedSet T := ⟨CollectionContainer.addObjects s.array segment,
            segment.foldl CollectionContainer3.addObject s.set⟩
          let _ ← s.size
          .ok s

/-- `erase(value)`. -/
def eraseValue (s : OrderedSet T) (value : T) : Except Fault (OrderedSet T) := do
  let _ ← s.size
  let (array, _) ← CollectionContainer.eraseElement s.array value
  let (set, _) ← s.set.eraseElement value
  let s : OrderedSet T := ⟨array, set⟩
  let _ ← s.size
  .ok s

/-- What the slot at `index` reads once the element there, `removed`, has been erased. -/
def slotAfter (residue : T → Option T) (array : List T) (index : Nat) (removed : T) :
    Except Fault T :=
  match array[index]? with
  | some element => .ok element
  | none =>
      match residue removed with
      | some element => .ok element
      | none => .error .dangling

/-- `erase(it)`. -/
def eraseIterator (residue : T → Option T) (s : OrderedSet T) (index : Nat) :
    Except Fault (OrderedSet T) := do
  let valid ← s.isDereferenceable index
  if !valid then .ok s
  else
    let removed ← s.deref index
    let position ← s.getPosition index
    let array ← eraseAt s.array position
    let value ← slotAfter residue array index removed
    let (set, _) ← s.set.eraseElement value
    .ok ⟨array, set⟩

def popBack (s : OrderedSet T) : Except Fault (OrderedSet T) := do
  let ref ← back s.array
  let array ← CollectionContainer.popBack s.array
  let (set, _) ← s.set.eraseElement ref
  let s : OrderedSet T := ⟨array, set⟩
  let _ ← s.size
  .ok s

/-! ## Programs -/

/-- An iterator: which ordered set, which position. -/
structure Iterator where
  orderedSet : Nat
  index : Nat
  deriving DecidableEq, Repr

/-- A mutator applied to ordered sets named by their position. -/
inductive Op (T : Type) where
  | construct (il : List T)
  | copyConstruct (i : Nat)
  | assign (i j : Nat)
  | addObject (i : Nat) (value : T)
  | addObjects (i : Nat) (start stop : Iterator)
  | eraseValue (i : Nat) (value : T)
  | eraseIterator (i index : Nat)
  | popBack (i : Nat)
  deriving DecidableEq, Repr

def setAt (env : List (OrderedSet T)) (i : Nat) : Except Fault (OrderedSet T) :=
  match env[i]? with
  | some s => .ok s
  | none => .error .dangling

/-- Replacing one ordered set by what a mutator makes of it. -/
def update (env : List (OrderedSet T)) (i : Nat)
    (f : OrderedSet T → Except Fault (OrderedSet T)) : Except Fault (List (OrderedSet T)) := do
  let s ← setAt env i
  let s ← f s
  .ok (env.set i s)

def step (residue : T → Option T) (env : List (OrderedSet T)) :
    Op T → Except Fault (List (OrderedSet T))
  | .construct il => do
      let s ← construct il
      .ok (env ++ [s])
  | .copyConstruct i => do
      let s ← setAt env i
      .ok (env ++ [s])
  | .assign i j => do
      let value ← setAt env j
      update env i fun _ => .ok value
  | .addObject i value => update env i fun s => s.addObject value
  | .addObjects i start stop => do
      let startSet ← setAt env start.orderedSet
      let stopSet ← setAt env stop.orderedSet
      update env i fun s => s.addObjects startSet stopSet
        (start.orderedSet == stop.orderedSet) (start.orderedSet == i) start.index stop.index
  | .eraseValue i value => update env i fun s => s.eraseValue value
  | .eraseIterator i index => update env i fun s => s.eraseIterator residue index
  | .popBack i => update env i popBack

end OrderedSet

end Rx
