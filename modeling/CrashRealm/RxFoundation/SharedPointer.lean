/-
# `RxFoundation.SharedPointer` — pointers that share an object, and pointers that watch it

All the `SharedPtr`s, `SharedRef`s and `WeakPtr`s of a process, in
`ESPMode::ThreadSafe`, which `FORCE_THREADSAFE_SHAREDPTRS` makes the default.  Each
has an `Object` and a `ReferenceController`, and many threads copy, move, assign and
destroy them.

A call is not atomic: it stands at one of its accesses to a controller, and any other
call may go on in between.  `Cell` is a place in memory with what such a call has
still to do there.  A move assignment stores its pointers first, so what it has to
release is in a frame of its own, and its two places may be used again at once.  So
may any other place while `DestroyObject` runs the destructor of an object: what the
destructor does are further calls among the others.

A client may read one pointer from many threads, and otherwise keeps to itself a
pointer it works on, as with any object (`enabled`).  A new controller or pointer is
put where there is none.
-/
import CrashRealm.Lib.Census
import CrashRealm.Lib.Holders
import CrashRealm.Lib.Machine
import CrashRealm.RxFoundation.Fault

namespace Rx

namespace SharedPointer

/-! ## The atomic operations on a count -/

/-- `Atomics::InterlockedIncrement` -/
def interlockedIncrement (value : Int) : Int := (value + 1).bmod (2 ^ 32)

/-- `Atomics::InterlockedDecrement` -/
def interlockedDecrement (value : Int) : Int := (value - 1).bmod (2 ^ 32)

/-- The largest `Int32`. -/
def maxCount : Int := 2 ^ 31 - 1

/-! ## The controllers -/

/-- `ReferenceControllerBase`; its object is there until `DestroyObject`. -/
structure ReferenceController where
  sharedReferenceCount : Int := 1
  weakReferenceCount : Int := 1
  object : Bool := true
  deriving DecidableEq, Repr

/-- What happens to the object and the controller at an address. -/
inductive Event (C : Type) where
  | constructed (c : C)
  /-- `ReferenceController->DestroyObject()` -/
  | destroyed (c : C)
  /-- `delete ReferenceController` -/
  | deleted (c : C)
  deriving DecidableEq, Repr

/-- What a `ReleaseSharedReference` or `ReleaseWeakReference` goes on with. -/
inductive Release (C : Type) where
  /-- `RxCheck(SharedReferenceCount > 0)` -/
  | checkShared (c : C)
  | decrementShared (c : C)
  | destroyObject (c : C)
  /-- `RxCheck(WeakReferenceCount > 0)` -/
  | checkWeak (c : C)
  | decrementWeak (c : C)
  | delete (c : C)
  deriving DecidableEq, Repr

abbrev Heap (C : Type) := C → Option ReferenceController

section Controllers

variable {C : Type}

def Heap.deref (h : Heap C) (c : C) : Except Fault ReferenceController :=
  match h c with
  | none => .error .dangling
  | some controller => .ok controller

def Release.events : Release C → List (Event C)
  | .destroyObject c => [.destroyed c]
  | .delete c => [.deleted c]
  | _ => []

variable [DecidableEq C]

def Heap.set (h : Heap C) (c : C) (controller : Option ReferenceController) : Heap C :=
  Function.update h c controller

/-- `AddSharedReference` -/
def addSharedReference (h : Heap C) (c : C) : Except Fault (Heap C) := do
  let controller ← h.deref c
  let count := interlockedIncrement controller.sharedReferenceCount
  .ok (h.set c (some { controller with sharedReferenceCount := count }))

/-- `AddWeakReference` -/
def addWeakReference (h : Heap C) (c : C) : Except Fault (Heap C) := do
  let controller ← h.deref c
  let count := interlockedIncrement controller.weakReferenceCount
  .ok (h.set c (some { controller with weakReferenceCount := count }))

/-- One access of a release, and what is left to do. -/
def Release.step (h : Heap C) : Release C → Except Fault (Heap C × Option (Release C))
  | .checkShared c => do
      let controller ← h.deref c
      if 0 < controller.sharedReferenceCount then .ok (h, some (.decrementShared c))
      else .error (.assertion "ReferenceController->SharedReferenceCount > 0")
  | .decrementShared c => do
      let controller ← h.deref c
      let count := interlockedDecrement controller.sharedReferenceCount
      .ok (h.set c (some { controller with sharedReferenceCount := count }),
        if count = 0 then some (.destroyObject c) else none)
  | .destroyObject c => do
      let controller ← h.deref c
      if controller.object then
        .ok (h.set c (some { controller with object := false }), some (.checkWeak c))
      else .error .badFree
  | .checkWeak c => do
      let controller ← h.deref c
      if 0 < controller.weakReferenceCount then .ok (h, some (.decrementWeak c))
      else .error (.assertion "ReferenceController->WeakReferenceCount> 0")
  | .decrementWeak c => do
      let controller ← h.deref c
      let count := interlockedDecrement controller.weakReferenceCount
      .ok (h.set c (some { controller with weakReferenceCount := count }),
        if count = 0 then some (.delete c) else none)
  | .delete c =>
      match h c with
      | none => .error .badFree
      | some _ => .ok (h.set c none, none)

end Controllers

/-! ## The pointers -/

/-- What is at a place no call is working on: no pointer, a `SharedPtr` or `SharedRef`, or
a `WeakPtr`.  The object is named by its controller. -/
inductive Held (C : Type) where
  | nothing
  | shared (object controller : Option C)
  | weak (object controller : Option C)
  deriving DecidableEq, Repr

namespace Held

variable {C : Type}

/-- `Object` -/
def object : Held C → Option C
  | .nothing => none
  | .shared object _ => object
  | .weak object _ => object

/-- `ReferenceController` -/
def controller : Held C → Option C
  | .nothing => none
  | .shared _ controller => controller
  | .weak _ controller => controller

def isShared : Held C → Bool
  | .shared _ _ => true
  | _ => false

def isWeak : Held C → Bool
  | .weak _ _ => true
  | _ => false

end Held

/-- A place, with the call that works on it.  `source` is the pointer the call reads. -/
inductive Cell (R C : Type) where
  | settled (held : Held C)
  /-- a copy or an assignment, before `AddSharedReference(new)` -/
  | addShared (source : R) (new : C) (old object : Option C)
  /-- a copy or an assignment, before `AddWeakReference(new)` -/
  | addWeak (source : R) (new : C) (old object : Option C)
  /-- `ConditionallyAddSharedReference`, before it looks at the count -/
  | peek (source : R) (c : C)
  /-- `ConditionallyAddSharedReference`, before `InterlockedCompareExchange` -/
  | compareExchange (source : R) (c : C) (originalCount : Int)
  /-- releasing what was held here, before `next` is -/
  | release (todo : Release C) (next : Held C)
  deriving DecidableEq, Repr

namespace Cell

variable {R C : Type}

/-- What is held, while no call works on the place. -/
def held : Cell R C → Held C
  | .settled held => held
  | _ => .nothing

/-- The pointer a call is reading. -/
def source : Cell R C → Option R
  | .addShared source _ _ _ => some source
  | .addWeak source _ _ _ => some source
  | .peek source _ => some source
  | .compareExchange source _ _ => some source
  | _ => none

/-- The count that the next access raises. -/
def raised (h : Heap C) : Cell R C → Option Int
  | .addShared _ new _ _ => (h new).map (·.sharedReferenceCount)
  | .addWeak _ new _ _ => (h new).map (·.weakReferenceCount)
  | .compareExchange _ _ originalCount => some originalCount
  | _ => none

def isBusy : Cell R C → Bool
  | .settled _ => false
  | _ => true

/-- `AddSharedReference(new)` is done: release the old controller, or be done. -/
def afterAddShared (new : C) (old object : Option C) : Cell R C :=
  match old with
  | some o => .release (.checkShared o) (.shared object (some new))
  | none => .settled (.shared object (some new))

/-- `AddWeakReference(new)` is done. -/
def afterAddWeak (new : C) (old object : Option C) : Cell R C :=
  match old with
  | some o => .release (.checkWeak o) (.weak object (some new))
  | none => .settled (.weak object (some new))

/-- The release goes on, or is over. -/
def afterRelease (todo : Option (Release C)) (next : Held C) : Cell R C :=
  match todo with
  | some todo => .release todo next
  | none => .settled next

/-- The start of `SharedReferencer::operator=` and then `Object = InSharedPtr.Object`. -/
def assignShared [DecidableEq C] (source : R) (old new object : Option C) : Cell R C :=
  if new = old then .settled (.shared object old)
  else
    match new, old with
    | some n, _ => .addShared source n old object
    | none, some o => .release (.checkShared o) (.shared object none)
    | none, none => .settled (.shared object none)

/-- The start of `AssignReferenceController`. -/
def assignWeak [DecidableEq C] (source : R) (old new object : Option C) : Cell R C :=
  if new = old then .settled (.weak object old)
  else
    match new, old with
    | some n, _ => .addWeak source n old object
    | none, some o => .release (.checkWeak o) (.weak object none)
    | none, none => .settled (.weak object none)

end Cell

/-! ## The system -/

/-- The controllers, the places for pointers, the frames of move assignments, and what has
happened. -/
structure System (R K C : Type) where
  controllers : Heap C
  cells : R → Cell R C
  frames : K → Option (Release C)
  log : List (Event C)

inductive Action (R K C : Type) where
  /-- `SharedPtr(new T)`, `MakeShareable`; `object` is false for a null pointer -/
  | newShared (r : R) (c : C) (object : Bool)
  /-- `SharedPtr()` -/
  | nullShared (r : R)
  /-- `SharedPtr(InSharedPtr)`; `cast` is false where a `dynamic_cast` gives null -/
  | copyShared (r source : R) (cast : Bool)
  | moveShared (r source : R)
  /-- `InWeakPtr.pin()` -/
  | pin (r source : R)
  | destroyShared (r : R)
  | assignShared (r source : R)
  | moveAssignShared (k : K) (r source : R)
  /-- `SharedRef::operator=(SharedRef &&)` -/
  | swapShared (r source : R)
  /-- `WeakPtr()` -/
  | nullWeak (r : R)
  /-- `WeakPtr(InWeakPtr)`, `WeakPtr(InSharedPtr)` -/
  | copyWeak (r source : R)
  | moveWeak (r source : R)
  | destroyWeak (r : R)
  /-- `pinned` is false where `InWeakPtr.pin().get()` was null -/
  | assignWeak (r source : R) (pinned : Bool)
  | moveAssignWeak (k : K) (r source : R)
  /-- the next access of the call at `r` -/
  | proceed (r : R)
  /-- the next access of a move assignment -/
  | unwind (k : K)
  deriving DecidableEq, Repr

namespace System

variable {R K C : Type}

def withControllers (s : System R K C) (controllers : Heap C) : System R K C :=
  { s with controllers }

def record (s : System R K C) (events : List (Event C)) : System R K C :=
  { s with log := s.log ++ events }

/-- What is held at a place no call is working on. -/
def held (s : System R K C) (r : R) : Held C := (s.cells r).held

/-! ## The client -/

/-- No pointer is at the place, nor is one being made there. -/
def Free (s : System R K C) (r : R) : Prop := s.cells r = .settled .nothing

/-- Some call is reading the pointer. -/
def Lent (s : System R K C) (r : R) : Prop := ∃ q, (s.cells q).source = some r

/-- A pointer that may be read. -/
def Shared (s : System R K C) (r : R) : Prop := (s.held r).isShared = true

def Weak (s : System R K C) (r : R) : Prop := (s.held r).isWeak = true

/-- A pointer that may be changed. -/
def OwnShared (s : System R K C) (r : R) : Prop := s.Shared r ∧ ¬ s.Lent r

def OwnWeak (s : System R K C) (r : R) : Prop := s.Weak r ∧ ¬ s.Lent r

def enabled (s : System R K C) : Action R K C → Prop
  | .newShared r c _ => s.Free r ∧ s.controllers c = none
  | .nullShared r => s.Free r
  | .copyShared r source _ => s.Free r ∧ s.Shared source
  | .moveShared r source => s.Free r ∧ s.OwnShared source
  | .pin r source => s.Free r ∧ s.Weak source
  | .destroyShared r => s.OwnShared r
  | .assignShared r source => s.OwnShared r ∧ s.Shared source
  | .moveAssignShared k r source => s.frames k = none ∧ s.OwnShared r ∧ s.OwnShared source
  | .swapShared r source => s.OwnShared r ∧ s.OwnShared source
  | .nullWeak r => s.Free r
  | .copyWeak r source => s.Free r ∧ (s.Shared source ∨ s.Weak source)
  | .moveWeak r source => s.Free r ∧ s.OwnWeak source
  | .destroyWeak r => s.OwnWeak r
  | .assignWeak r source pinned =>
      s.OwnWeak r ∧ (s.Weak source ∨ (s.Shared source ∧ pinned = true))
  | .moveAssignWeak k r source => s.frames k = none ∧ s.OwnWeak r ∧ s.OwnWeak source
  | .proceed r => (s.cells r).isBusy = true
  | .unwind k => (s.frames k).isSome = true

/-- No count is at the largest `Int32` when it goes up. -/
def Roomy (s : System R K C) (a : Action R K C) : Prop :=
  ∀ r, a = .proceed r → ∀ n ∈ (s.cells r).raised s.controllers, n < maxCount

/-! ## The functions -/

variable [DecidableEq R] [DecidableEq K] [DecidableEq C]

def setCell (s : System R K C) (r : R) (cell : Cell R C) : System R K C :=
  { s with cells := Function.update s.cells r cell }

def settle (s : System R K C) (r : R) (held : Held C) : System R K C := s.setCell r (.settled held)

def setFrame (s : System R K C) (k : K) (frame : Option (Release C)) : System R K C :=
  { s with frames := Function.update s.frames k frame }

def newShared (s : System R K C) (r : R) (c : C) (object : Bool) : System R K C :=
  ((s.withControllers (s.controllers.set c (some {}))).settle r
    (.shared (if object then some c else none) (some c))).record [.constructed c]

def copyShared (s : System R K C) (r source : R) (cast : Bool) : System R K C :=
  let object := if cast then (s.held source).object else none
  match (s.held source).controller with
  | some c => s.setCell r (.addShared source c none object)
  | none => s.settle r (.shared object none)

def moveShared (s : System R K C) (r source : R) : System R K C :=
  (s.settle r (s.held source)).settle source (.shared none none)

def pin (s : System R K C) (r source : R) : System R K C :=
  match (s.held source).controller with
  | some c => s.setCell r (.peek source c)
  | none => s.settle r (.shared none none)

def destroyShared (s : System R K C) (r : R) : System R K C :=
  match (s.held r).controller with
  | some c => s.setCell r (.release (.checkShared c) .nothing)
  | none => s.settle r .nothing

def assignShared (s : System R K C) (r source : R) : System R K C :=
  s.setCell r (Cell.assignShared source (s.held r).controller (s.held source).controller
    (s.held source).object)

/-- A source with the controller that is held already only loses its `Object`. -/
def moveAssignShared (s : System R K C) (k : K) (r source : R) : System R K C :=
  if r = source then s
  else
    let new := s.held source
    let old := (s.held r).controller
    if new.controller = old then
      (s.settle r (.shared new.object old)).settle source (.shared none new.controller)
    else
      ((s.settle r new).settle source (.shared none none)).setFrame k (old.map .checkShared)

def swapShared (s : System R K C) (r source : R) : System R K C :=
  (s.settle r (s.held source)).settle source (s.held r)

def copyWeak (s : System R K C) (r source : R) : System R K C :=
  match (s.held source).controller with
  | some c => s.setCell r (.addWeak source c none (s.held source).object)
  | none => s.settle r (.weak (s.held source).object none)

def moveWeak (s : System R K C) (r source : R) : System R K C :=
  (s.settle r (s.held source)).settle source (.weak none none)

def destroyWeak (s : System R K C) (r : R) : System R K C :=
  match (s.held r).controller with
  | some c => s.setCell r (.release (.checkWeak c) .nothing)
  | none => s.settle r .nothing

def assignWeak (s : System R K C) (r source : R) (pinned : Bool) : System R K C :=
  s.setCell r (Cell.assignWeak source (s.held r).controller (s.held source).controller
    (if pinned then (s.held source).object else none))

def moveAssignWeak (s : System R K C) (k : K) (r source : R) : System R K C :=
  if r = source then s
  else
    ((s.settle r (s.held source)).settle source (.weak none none)).setFrame k
      ((s.held r).controller.map .checkWeak)

/-- The next access of the call at `r`. -/
def proceed (s : System R K C) (r : R) : Except Fault (System R K C) :=
  match s.cells r with
  | .settled _ => .ok s
  | .addShared _ new old object => do
      let h ← addSharedReference s.controllers new
      .ok ((s.withControllers h).setCell r (Cell.afterAddShared new old object))
  | .addWeak _ new old object => do
      let h ← addWeakReference s.controllers new
      .ok ((s.withControllers h).setCell r (Cell.afterAddWeak new old object))
  | .peek source c => do
      let controller ← s.controllers.deref c
      if controller.sharedReferenceCount = 0 then .ok (s.settle r (.shared none none))
      else .ok (s.setCell r (.compareExchange source c controller.sharedReferenceCount))
  | .compareExchange source c originalCount => do
      if originalCount = maxCount then .error .undefinedArithmetic
      else
        let controller ← s.controllers.deref c
        if controller.sharedReferenceCount = originalCount then
          let h := s.controllers.set c
            (some { controller with sharedReferenceCount := originalCount + 1 })
          .ok ((s.withControllers h).settle r (.shared (s.held source).object (some c)))
        else .ok (s.setCell r (.peek source c))
  | .release todo next => do
      let (h, todo') ← todo.step s.controllers
      .ok (((s.withControllers h).setCell r (Cell.afterRelease todo' next)).record todo.events)

/-- The next access of a move assignment. -/
def unwind (s : System R K C) (k : K) : Except Fault (System R K C) :=
  match s.frames k with
  | none => .ok s
  | some todo => do
      let (h, todo') ← todo.step s.controllers
      .ok (((s.withControllers h).setFrame k todo').record todo.events)

def step (s : System R K C) : Action R K C → Except Fault (System R K C)
  | .newShared r c object => .ok (s.newShared r c object)
  | .nullShared r => .ok (s.settle r (.shared none none))
  | .copyShared r source cast => .ok (s.copyShared r source cast)
  | .moveShared r source => .ok (s.moveShared r source)
  | .pin r source => .ok (s.pin r source)
  | .destroyShared r => .ok (s.destroyShared r)
  | .assignShared r source => .ok (s.assignShared r source)
  | .moveAssignShared k r source => .ok (s.moveAssignShared k r source)
  | .swapShared r source => .ok (s.swapShared r source)
  | .nullWeak r => .ok (s.settle r (.weak none none))
  | .copyWeak r source => .ok (s.copyWeak r source)
  | .moveWeak r source => .ok (s.moveWeak r source)
  | .destroyWeak r => .ok (s.destroyWeak r)
  | .assignWeak r source pinned => .ok (s.assignWeak r source pinned)
  | .moveAssignWeak k r source => .ok (s.moveAssignWeak k r source)
  | .proceed r => s.proceed r
  | .unwind k => s.unwind k

section Decidable

variable [Fintype R]

instance (s : System R K C) (r : R) : Decidable (s.Free r) :=
  inferInstanceAs (Decidable (s.cells r = _))

instance (s : System R K C) (r : R) : Decidable (s.Lent r) :=
  inferInstanceAs (Decidable (∃ q, (s.cells q).source = some r))

instance (s : System R K C) (r : R) : Decidable (s.Shared r) :=
  inferInstanceAs (Decidable ((s.held r).isShared = true))

instance (s : System R K C) (r : R) : Decidable (s.Weak r) :=
  inferInstanceAs (Decidable ((s.held r).isWeak = true))

instance (s : System R K C) (r : R) : Decidable (s.OwnShared r) :=
  inferInstanceAs (Decidable (_ ∧ _))

instance (s : System R K C) (r : R) : Decidable (s.OwnWeak r) :=
  inferInstanceAs (Decidable (_ ∧ _))

instance (s : System R K C) : DecidablePred s.enabled
  | .newShared _ _ _ => inferInstanceAs (Decidable (_ ∧ _))
  | .nullShared r => inferInstanceAs (Decidable (s.Free r))
  | .copyShared _ _ _ => inferInstanceAs (Decidable (_ ∧ _))
  | .moveShared _ _ => inferInstanceAs (Decidable (_ ∧ _))
  | .pin _ _ => inferInstanceAs (Decidable (_ ∧ _))
  | .destroyShared r => inferInstanceAs (Decidable (s.OwnShared r))
  | .assignShared _ _ => inferInstanceAs (Decidable (_ ∧ _))
  | .moveAssignShared _ _ _ => inferInstanceAs (Decidable (_ ∧ _ ∧ _))
  | .swapShared _ _ => inferInstanceAs (Decidable (_ ∧ _))
  | .nullWeak r => inferInstanceAs (Decidable (s.Free r))
  | .copyWeak _ _ => inferInstanceAs (Decidable (_ ∧ (_ ∨ _)))
  | .moveWeak _ _ => inferInstanceAs (Decidable (_ ∧ _))
  | .destroyWeak r => inferInstanceAs (Decidable (s.OwnWeak r))
  | .assignWeak _ _ _ => inferInstanceAs (Decidable (_ ∧ (_ ∨ (_ ∧ _))))
  | .moveAssignWeak _ _ _ => inferInstanceAs (Decidable (_ ∧ _ ∧ _))
  | .proceed _ => inferInstanceAs (Decidable (_ = true))
  | .unwind _ => inferInstanceAs (Decidable (_ = true))

instance (s : System R K C) (a : Action R K C) : Decidable (s.Roomy a) :=
  inferInstanceAs (Decidable (∀ r, a = .proceed r → ∀ n ∈ _, n < maxCount))

end Decidable

end System

/-- Any client, from no controllers and no pointers. -/
def machine (R K C : Type) [DecidableEq R] [DecidableEq K] [DecidableEq C] :
    Machine (System R K C) (Action R K C) Fault where
  start := ⟨fun _ => none, fun _ => .settled .nothing, fun _ => none, []⟩
  enabled := System.enabled
  step := System.step

instance {R K C : Type} [Fintype R] [DecidableEq R] [DecidableEq K] [DecidableEq C]
    (s : System R K C) (a : Action R K C) : Decidable ((machine R K C).enabled s a) :=
  inferInstanceAs (Decidable (s.enabled a))

end SharedPointer

end Rx
