/-
# `RxFoundation.KeyValueObserver` — the registry of observers and its notification rounds

One observed object, single-threaded: `_observerLock` is recursive and its guards
have no effect here.  `_observersInfo` maps a key to the `OrderedSet` of its
pairs; a pair is named by its address, 64 bits and not null, which `MakeShareable`
picks among those never used, in no particular order.  `~SharedRef` leaves the pointer it holds as
it is, which is what `OrderedSet::erase(it)` may still read.

`addObserver`, `removeObserver` and `willChangeValueForKey` call nobody back
before they are done with the registry, and are functions on the state.
`_didChangeValueForKey` runs through a snapshot and calls
`receiveObserverNotify`, from which any of the four may be called again, so its
activations are kept as frames on an explicit stack: `advance` does the next
thing the innermost one does, and where that is a callback, or nothing is
running, the client chooses (`Action`).

`getValueForKey` answers what `value` holds, which only the client changes;
`keyPathsForValuesAffectingValueForKey` is a parameter.  The log is not part of
the program: it records, newest first, who was named by which call and who was
notified.
-/
import CrashRealm.Lib.Machine
import CrashRealm.RxFoundation.OrderedSet
import Mathlib.Data.List.AList
import Mathlib.Order.Nat

namespace Rx

namespace KeyValueObserverInterface

/-- `Rx::Any`: null, or a value compared with its own `==`. -/
abbrev Any (V : Type) := Option V

/-- `Change::Kind`. -/
abbrev Kind := BitVec 32

namespace Kind

def invalid : Kind := 0
def new : Kind := 0x1
def old : Kind := 0x2
/-- `Initialize`. -/
def initialise : Kind := 0x4
def all : Kind := BitVec.allOnes 32

/-- `(Change::Kind)notifyKind` of an `Integer`. -/
def ofInteger (notifyKind : BitVec 64) : Kind := notifyKind.setWidth 32

end Kind

inductive KVOCallState where
  | default
  | willChange
  | changing
  | didChange
  deriving DecidableEq, Repr

structure Change (V : Type) where
  kind : Kind
  oldValue : Any V
  newValue : Any V
  deriving DecidableEq, Repr

def Change.reset {V : Type} : Change V := ⟨Kind.invalid, none, none⟩

structure KVOPair (O V : Type) where
  observer : O
  context : Any V
  notifyKind : Kind
  change : Change V
  callState : KVOCallState
  enabled : Bool
  initialized : Bool
  deriving DecidableEq, Repr

namespace KVOPair

variable {O V : Type}

/-- The constructor. -/
def make (observer : O) (notifyKind : Kind) (context : Any V) : KVOPair O V :=
  ⟨observer, context, notifyKind, Change.reset, .default, false, false⟩

def setEnabled (pair : KVOPair O V) (value : Bool) : KVOPair O V := { pair with enabled := value }

def setKVOCallState (pair : KVOPair O V) (value : KVOCallState) : KVOPair O V :=
  match value with
  | .default => { pair with change := Change.reset, callState := value }
  | _ => { pair with callState := value }

/-- `operator==`. -/
def equal [DecidableEq O] (pair value : KVOPair O V) : Bool :=
  pair.observer == value.observer && (pair.notifyKind &&& value.notifyKind) != 0

/-- The new value, for a pair that asked for it or is in its first round. -/
def fillNewValue (pair : KVOPair O V) (value : Any V) : KVOPair O V :=
  if (pair.notifyKind &&& Kind.new) != 0 || !pair.initialized then
    { pair with change := { pair.change with newValue := value } }
  else pair

/-- The first half of the loop body of `_didChangeValueForKey`: the pair, and
whether its observer is called. -/
def didChange [BEq V] (pair : KVOPair O V) (value : Any V) (kind : Kind) (doCall : Bool) :
    KVOPair O V × Bool :=
  let pair := (pair.setKVOCallState .didChange).fillNewValue value
  if (pair.notifyKind &&& Kind.initialise) != 0 && !pair.initialized then
    ({ pair with change := { pair.change with kind := Kind.initialise }, initialized := true },
      doCall && pair.enabled)
  else
    ({ pair with change := { pair.change with kind } },
      pair.change.newValue != pair.change.oldValue && doCall && pair.enabled)

/-- The second half. -/
def didChangeDone (pair : KVOPair O V) : KVOPair O V :=
  let pair := pair.setKVOCallState .default
  { pair with change := { pair.change with oldValue := pair.change.newValue } }

end KVOPair

/-- One activation of `_didChangeValueForKey`: the pair whose turn has begun, the
rest of the snapshot, and the dependent keys left. -/
structure Round (K : Type) where
  key : K
  kind : Kind
  doCall : Bool
  current : Option Nat
  observers : List Nat
  keyPaths : List K

/-- The pairs a round still has to do with. -/
def Round.pending {K : Type} (r : Round K) : List Nat := r.current.toList ++ r.observers

inductive Frame (K : Type) where
  | round (r : Round K)
  /-- inside `receiveObserverNotify` -/
  | callback

theorem Frame.round_mem_cons {K : Type} {r r' : Round K} {stack : List (Frame K)} :
    .round r' ∈ .round r :: stack ↔ r = r' ∨ .round r' ∈ stack := by
  simp [eq_comm]

/-- What holds of a round and of those below it. -/
theorem Frame.forall_round_cons {K : Type} {P : Round K → Prop} {r : Round K}
    {stack : List (Frame K)} (hr : P r) (hstack : ∀ r', .round r' ∈ stack → P r') :
    ∀ r', .round r' ∈ .round r :: stack → P r' := by
  intro r' hr'
  rcases Frame.round_mem_cons.mp hr' with rfl | hr'
  · exact hr
  · exact hstack r' hr'

inductive Event (K O V : Type) where
  | added (observer : O) (key : K) (notifyKind : BitVec 64) (context : Any V)
  | removed (observer : O) (key : K)
  | notified (observer : O) (key : K) (context : Any V) (change : Change V)
  deriving DecidableEq

/-- The observed object. -/
structure Subject (K O V : Type) where
  observersInfo : AList fun _ : K => OrderedSet Nat
  pairs : Nat → Option (KVOPair O V)
  value : K → Any V
  stack : List (Frame K)
  log : List (Event K O V)

namespace Subject

variable {K O V : Type} [DecidableEq K] [DecidableEq O] [BEq V]

def init : Subject K O V := ⟨∅, fun _ => none, fun _ => none, [], []⟩

def setPair (s : Subject K O V) (address : Nat) (pair : KVOPair O V) : Subject K O V :=
  { s with pairs := Function.update s.pairs address (some pair) }

def pairAt (s : Subject K O V) (address : Nat) : Except Fault (KVOPair O V) :=
  match s.pairs address with
  | some pair => .ok pair
  | none => .error .dangling

/-! ## The registry -/

/-- The predicate `removeObserver` searches with. -/
def matchesTarget (s : Subject K O V) (observer : O) (address : Nat) : Bool :=
  match s.pairs address with
  | some pair => pair.equal (KVOPair.make observer Kind.all none)
  | none => false

/-- `removeObserver`, once the entry is found. -/
def removeFrom (s : Subject K O V) (order : OrderedSet Nat) (observer : O) (key : K) :
    Except Fault (Subject K O V) := do
  let targetPosition ← order.findIf (s.matchesTarget observer)
  if targetPosition = OrderedSet.endIndex then .ok s
  else
    let address ← order.deref targetPosition
    let pair ← s.pairAt address
    let s := s.setPair address (pair.setEnabled false)
    let order ← order.eraseIterator some targetPosition
    let empty ← order.isEmpty
    if empty then .ok { s with observersInfo := s.observersInfo.erase key }
    else .ok { s with observersInfo := s.observersInfo.insert key order }

def removeObserver (s : Subject K O V) (observer : O) (key : K) : Except Fault (Subject K O V) :=
  match s.observersInfo.lookup key with
  | none => .ok s
  | some order => s.removeFrom order observer key

/-- The entry `addObserver` takes an iterator to. -/
def findOrInsert (s : Subject K O V) (key : K) : Subject K O V :=
  match s.observersInfo.lookup key with
  | some _ => s
  | none => { s with observersInfo := s.observersInfo.insert key .empty }

/-- `addObserver` up to its first notification round.  The iterator it holds does
not survive the erasure of its entry. -/
def register (s : Subject K O V) (observer : O) (key : K) (notifyKind : BitVec 64)
    (context : Any V) (address : Nat) : Except Fault (Subject K O V) := do
  let s ← (s.findOrInsert key).removeObserver observer key
  match s.observersInfo.lookup key with
  | none => .error .dangling
  | some order =>
      let pair := KVOPair.make observer (Kind.ofInteger notifyKind) context
      let order ← order.addObject address
      .ok { s.setPair address (pair.setEnabled true) with
        observersInfo := s.observersInfo.insert key order }

/-- `_getObservers(key, nullptr, notifyKind)`. -/
def getObservers (s : Subject K O V) (key : K) (notifyKind : Kind) : Except Fault (List Nat) :=
  match s.observersInfo.lookup key with
  | none => .ok []
  | some order => do
      let _ ← order.size
      .ok (order.array.filter fun address =>
        match s.pairs address with
        | some pair => pair.enabled && (pair.notifyKind ||| notifyKind) != Kind.invalid
        | none => false)

/-- The inner loop of `~KeyValueObserverInterface`. -/
def destroyOrder (s : Subject K O V) : List Nat → Except Fault Unit
  | [] => .ok ()
  | address :: observers => do
      let pair ← s.pairAt address
      if pair.callState = .default then s.destroyOrder observers
      else .error (.assertion "observer->getKVOCallState() == KVOCallState::Default")

/-- `~KeyValueObserverInterface`. -/
def destroy (s : Subject K O V) : Except Fault Unit :=
  s.observersInfo.entries.forM fun entry => do
    let _ ← entry.2.size
    s.destroyOrder entry.2.array

/-! ## Rounds -/

/-- The loop of `_willChangeValueForKey`. -/
def willChangeLoop (key : K) : List Nat → Subject K O V → Except Fault (Subject K O V)
  | [], s => .ok s
  | address :: observers, s => do
      let pair ← s.pairAt address
      let pair := pair.setKVOCallState .willChange
      let pair :=
        if (pair.notifyKind &&& Kind.old) != 0 then
          { pair with change := { pair.change with oldValue := s.value key } }
        else pair
      willChangeLoop key observers (s.setPair address pair)

/-- `_willChangeValueForKey`. -/
def willChange (s : Subject K O V) (key : K) (kind : Kind) : Except Fault (Subject K O V) :=
  if s.observersInfo.entries.isEmpty then .ok s
  else do
    let observers ← s.getObservers key kind
    willChangeLoop key observers s

variable (keyPaths : K → List K)

/-- `_didChangeValueForKey` up to its loops. -/
def enterDidChange (s : Subject K O V) (key : K) (kind : Kind) (doCall : Bool) :
    Except Fault (Subject K O V) :=
  if s.observersInfo.entries.isEmpty then .ok s
  else do
    let observers ← s.getObservers key kind
    .ok { s with stack := .round ⟨key, kind, doCall, none, observers, keyPaths key⟩ :: s.stack }

/-- `detail::_LogKVO`. -/
def logKVO (change : Change V) : Except Fault Unit :=
  if change.kind ≠ Kind.invalid then .ok ()
  else .error (.assertion "change->getKind() != KeyValueObserverInterface::Change::Kind::Invalid")

/-- The round begins the turn of the next pair in its snapshot. -/
def beginTurn (s : Subject K O V) (r : Round K) (address : Nat) (observers : List Nat)
    (rest : List (Frame K)) : Except Fault (Subject K O V) := do
  let pair ← s.pairAt address
  let (pair, call) := pair.didChange (s.value r.key) r.kind r.doCall
  logKVO pair.change
  let s := s.setPair address pair
  let frame := Frame.round { r with current := some address, observers }
  if call then
    .ok { s with
      stack := .callback :: frame :: rest
      log := .notified pair.observer r.key pair.context pair.change :: s.log }
  else .ok { s with stack := frame :: rest }

/-- The round ends the turn of a pair. -/
def endTurn (s : Subject K O V) (r : Round K) (address : Nat) (rest : List (Frame K)) :
    Except Fault (Subject K O V) := do
  let pair ← s.pairAt address
  .ok { s.setPair address pair.didChangeDone with stack := .round { r with current := none } :: rest }

/-- The `will` half of one dependent key. -/
def keyPathWill (s : Subject K O V) (kind : Kind) (keyPath : K) : Except Fault (Subject K O V) :=
  if kind = Kind.initialise then s.willChange keyPath kind else .ok s

/-- What the innermost activation of `_didChangeValueForKey` does next. -/
def advanceRound (s : Subject K O V) (r : Round K) (rest : List (Frame K)) :
    Except Fault (Subject K O V) :=
  match r.current, r.observers, r.keyPaths with
  | some address, _, _ => s.endTurn r address rest
  | none, address :: observers, _ => s.beginTurn r address observers rest
  | none, [], keyPath :: more => do
      let s := { s with stack := .round { r with keyPaths := more } :: rest }
      let s ← s.keyPathWill r.kind keyPath
      s.enterDidChange keyPaths keyPath r.kind true
  | none, [], [] => .ok { s with stack := rest }

def advance (s : Subject K O V) : Except Fault (Subject K O V) :=
  match s.stack with
  | .round r :: rest => s.advanceRound keyPaths r rest
  | _ => .ok s

def addObserver (s : Subject K O V) (observer : O) (key : K) (notifyKind : BitVec 64)
    (context : Any V) (address : Nat) : Except Fault (Subject K O V) := do
  let s ← s.register observer key notifyKind context address
  let s := { s with log := .added observer key notifyKind context :: s.log }
  let s ← s.willChange key Kind.initialise
  s.enterDidChange keyPaths key Kind.initialise ((notifyKind &&& 0x4) == 0x4)

end Subject

/-! ## Runs -/

inductive Action (K O V : Type) where
  | addObserver (observer : O) (key : K) (notifyKind : BitVec 64) (context : Any V) (address : Nat)
  | removeObserver (observer : O) (key : K)
  | willChangeValueForKey (key : K)
  | didChangeValueForKey (key : K)
  | setValue (key : K) (value : Any V)
  /-- `receiveObserverNotify` returns -/
  | returns
  | advance

variable {K O V : Type} [DecidableEq K] [DecidableEq O] [BEq V]

/-- Nothing is running, or a callback is. -/
def Subject.clientRuns (s : Subject K O V) : Bool :=
  match s.stack with
  | [] | .callback :: _ => true
  | .round _ :: _ => false

def enabled (s : Subject K O V) : Action K O V → Prop
  | .addObserver _ _ _ _ address =>
      s.clientRuns = true ∧ s.pairs address = none ∧ 0 < address ∧ address < 2 ^ 64
  | .removeObserver _ _ | .willChangeValueForKey _ | .didChangeValueForKey _ | .setValue _ _ =>
      s.clientRuns = true
  | .returns => s.clientRuns = true ∧ s.stack ≠ []
  | .advance => s.clientRuns = false

instance (s : Subject K O V) : DecidablePred (enabled s)
  | .addObserver _ _ _ _ address =>
      have : Decidable (s.pairs address = none) := decidable_of_iff _ Option.isNone_iff_eq_none
      inferInstanceAs (Decidable (s.clientRuns = true ∧ s.pairs address = none ∧ 0 < address ∧
        address < 2 ^ 64))
  | .removeObserver _ _ | .willChangeValueForKey _ | .didChangeValueForKey _ | .setValue _ _ =>
      inferInstanceAs (Decidable (s.clientRuns = true))
  | .returns =>
      have : Decidable (s.stack = []) := decidable_of_iff _ List.isEmpty_iff
      inferInstanceAs (Decidable (s.clientRuns = true ∧ ¬ s.stack = []))
  | .advance => inferInstanceAs (Decidable (s.clientRuns = false))

def step (keyPaths : K → List K) (s : Subject K O V) :
    Action K O V → Except Fault (Subject K O V)
  | .addObserver observer key notifyKind context address =>
      s.addObserver keyPaths observer key notifyKind context address
  | .removeObserver observer key => do
      let s ← s.removeObserver observer key
      .ok { s with log := .removed observer key :: s.log }
  | .willChangeValueForKey key => s.willChange key Kind.new
  | .didChangeValueForKey key => s.enterDidChange keyPaths key Kind.new true
  | .setValue key value => .ok { s with value := Function.update s.value key value }
  | .returns => .ok { s with stack := s.stack.tail }
  | .advance => s.advance keyPaths

/-- All single-threaded runs of an observed object and its observers. -/
def machine (keyPaths : K → List K) : Machine (Subject K O V) (Action K O V) Fault where
  start := .init
  enabled := enabled
  step := step keyPaths

instance (keyPaths : K → List K) (s : Subject K O V) (a : Action K O V) :
    Decidable ((machine keyPaths).enabled s a) := inferInstanceAs (Decidable (enabled s a))

end KeyValueObserverInterface

end Rx
