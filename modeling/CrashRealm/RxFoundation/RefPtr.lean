/-
# `RxFoundation.RefPtr` — a count in the object, and pointers that keep it

A `RefPtr` refers to an object or to none, and each of its functions is here as it
calls `retain` and `release`.  A release that leaves no count deletes the object.
It is the last thing the function does, so what the destructor then does to the
`RefPtr`s inside the object are further operations after this one.

A client uses a `RefPtr` between its construction and its destruction, gives it
pointers to objects that exist, and releases or has adopted what it retained
itself: `direct` is what it has still to release.  Objects are made with a count of
zero, at a place where there is none.

Counts are numbers: no client has `2 ^ 64` references outstanding.
-/
import CrashRealm.Lib.Holders
import CrashRealm.Lib.Machine
import CrashRealm.RxFoundation.Fault

namespace Rx

namespace RefPtr

variable {Obj Ref : Type} [DecidableEq Obj] [DecidableEq Ref]

/-- The objects that exist, with their `ref_cnt`; the `RefPtr`s and what they refer to. -/
structure System (Obj Ref : Type) where
  objects : Obj → Option Nat
  live : Finset Ref
  reference : Ref → Option Obj
  direct : Obj → Nat

inductive Action (Obj Ref : Type) where
  /-- `new ObjectType` -/
  | create (o : Obj)
  | construct (r : Ref)
  | constructPointer (r : Ref) (p : Option Obj) (retain : Bool)
  | copy (r copied : Ref)
  | move (r value : Ref)
  | destroy (r : Ref)
  | assignPointer (r : Ref) (p : Option Obj)
  | assign (r inPtr : Ref)
  | safeRelease (r : Ref)
  | swap (r inPtr : Ref)
  /-- `o->retain()`, by the client -/
  | retain (o : Obj)
  /-- `o->release()`, by the client -/
  | release (o : Obj)
  deriving DecidableEq, Repr

namespace System

def setCount (s : System Obj Ref) (o : Obj) (count : Option Nat) : System Obj Ref :=
  { s with objects := Function.update s.objects o count }

def setReference (s : System Obj Ref) (r : Ref) (p : Option Obj) : System Obj Ref :=
  { s with reference := Function.update s.reference r p }

/-- A `RefPtr` begins to be. -/
def begin (s : System Obj Ref) (r : Ref) (p : Option Obj) : System Obj Ref :=
  { s with live := insert r s.live, reference := Function.update s.reference r p }

/-- `if (Reference) Reference->retain()` -/
def retain (s : System Obj Ref) (p : Option Obj) : Except Fault (System Obj Ref) :=
  match p with
  | none => .ok s
  | some o =>
      match s.objects o with
      | none => .error .dangling
      | some count => .ok (s.setCount o (some (count + 1)))

/-- `if (Reference) Reference->release()`; at zero it deletes the object. -/
def release (s : System Obj Ref) (p : Option Obj) : Except Fault (System Obj Ref) :=
  match p with
  | none => .ok s
  | some o =>
      match s.objects o with
      | none => .error .dangling
      | some 0 => .error (.assertion "ref_cnt > 0 && \"Reference count is already zero.\"")
      | some (count + 1) => .ok (s.setCount o (if count = 0 then none else some count))

def construct (s : System Obj Ref) (r : Ref) : System Obj Ref := s.begin r none

def constructPointer (s : System Obj Ref) (r : Ref) (p : Option Obj) (retain : Bool) :
    Except Fault (System Obj Ref) :=
  if retain then (s.begin r p).retain p else .ok (s.begin r p)

def copy (s : System Obj Ref) (r copied : Ref) : Except Fault (System Obj Ref) :=
  (s.begin r (s.reference copied)).retain (s.reference copied)

def move (s : System Obj Ref) (r value : Ref) : System Obj Ref :=
  (s.begin r (s.reference value)).setReference value none

def destroy (s : System Obj Ref) (r : Ref) : Except Fault (System Obj Ref) :=
  { s with live := s.live.erase r }.release (s.reference r)

/-- `operator=(ReferenceType)`: retain before release. -/
def assignPointer (s : System Obj Ref) (r : Ref) (p : Option Obj) :
    Except Fault (System Obj Ref) := do
  let oldReference := s.reference r
  let s ← (s.setReference r p).retain p
  s.release oldReference

def assign (s : System Obj Ref) (r inPtr : Ref) : Except Fault (System Obj Ref) :=
  s.assignPointer r (s.reference inPtr)

def safeRelease (s : System Obj Ref) (r : Ref) : Except Fault (System Obj Ref) :=
  s.assignPointer r none

def swap (s : System Obj Ref) (r inPtr : Ref) : System Obj Ref :=
  let oldReference := s.reference r
  (s.setReference r (s.reference inPtr)).setReference inPtr oldReference

/-- The client has that many more, or fewer, retains of its own to release. -/
def setDirect (s : System Obj Ref) (o : Obj) (n : Nat) : System Obj Ref :=
  { s with direct := Function.update s.direct o n }

/-- A pointer that may be used. -/
def Valid (s : System Obj Ref) (p : Option Obj) : Prop := ∀ o ∈ p, (s.objects o).isSome

/-- A pointer with a retain of the client's that another takes over. -/
def Owned (s : System Obj Ref) (p : Option Obj) : Prop := ∀ o ∈ p, 0 < s.direct o

/-- What a client may do. -/
def enabled (s : System Obj Ref) : Action Obj Ref → Prop
  | .create o => s.objects o = none
  | .construct r => r ∉ s.live
  | .constructPointer r p retain => r ∉ s.live ∧ s.Valid p ∧ (retain = false → s.Owned p)
  | .copy r copied => r ∉ s.live ∧ copied ∈ s.live
  | .move r value => r ∉ s.live ∧ value ∈ s.live
  | .destroy r => r ∈ s.live
  | .assignPointer r p => r ∈ s.live ∧ s.Valid p
  | .assign r inPtr => r ∈ s.live ∧ inPtr ∈ s.live
  | .safeRelease r => r ∈ s.live
  | .swap r inPtr => r ∈ s.live ∧ inPtr ∈ s.live
  | .retain o => s.Valid (some o)
  | .release o => s.Owned (some o)

instance (s : System Obj Ref) (p : Option Obj) : Decidable (s.Valid p) :=
  inferInstanceAs (Decidable (∀ o ∈ p, _))

instance (s : System Obj Ref) (p : Option Obj) : Decidable (s.Owned p) :=
  inferInstanceAs (Decidable (∀ o ∈ p, _))

instance (s : System Obj Ref) : DecidablePred s.enabled
  | .create o => inferInstanceAs (Decidable (s.objects o = none))
  | .construct r => inferInstanceAs (Decidable (r ∉ s.live))
  | .constructPointer r p retain =>
      inferInstanceAs (Decidable (r ∉ s.live ∧ s.Valid p ∧ (retain = false → s.Owned p)))
  | .copy r copied => inferInstanceAs (Decidable (r ∉ s.live ∧ copied ∈ s.live))
  | .move r value => inferInstanceAs (Decidable (r ∉ s.live ∧ value ∈ s.live))
  | .destroy r => inferInstanceAs (Decidable (r ∈ s.live))
  | .assignPointer r p => inferInstanceAs (Decidable (r ∈ s.live ∧ s.Valid p))
  | .assign r inPtr => inferInstanceAs (Decidable (r ∈ s.live ∧ inPtr ∈ s.live))
  | .safeRelease r => inferInstanceAs (Decidable (r ∈ s.live))
  | .swap r inPtr => inferInstanceAs (Decidable (r ∈ s.live ∧ inPtr ∈ s.live))
  | .retain o => inferInstanceAs (Decidable (s.Valid (some o)))
  | .release o => inferInstanceAs (Decidable (s.Owned (some o)))

/-- An adopted reference is no longer the client's. -/
def adopt (s : System Obj Ref) (p : Option Obj) : System Obj Ref :=
  match p with
  | none => s
  | some o => s.setDirect o (s.direct o - 1)

def step (s : System Obj Ref) : Action Obj Ref → Except Fault (System Obj Ref)
  | .create o => .ok (s.setCount o (some 0))
  | .construct r => .ok (s.construct r)
  | .constructPointer r p retain =>
      (if retain then s else s.adopt p).constructPointer r p retain
  | .copy r copied => s.copy r copied
  | .move r value => .ok (s.move r value)
  | .destroy r => s.destroy r
  | .assignPointer r p => s.assignPointer r p
  | .assign r inPtr => s.assign r inPtr
  | .safeRelease r => s.safeRelease r
  | .swap r inPtr => .ok (s.swap r inPtr)
  | .retain o => (s.setDirect o (s.direct o + 1)).retain (some o)
  | .release o => (s.adopt (some o)).release (some o)

/-- The references to an object: of the `RefPtr`s, and the client's own. -/
def number (s : System Obj Ref) (o : Obj) : Nat :=
  Holders.number s.live s.reference o + s.direct o

end System

/-- Any client, from no objects and no `RefPtr`s. -/
def machine (Obj Ref : Type) [DecidableEq Obj] [DecidableEq Ref] :
    Machine (System Obj Ref) (Action Obj Ref) Fault where
  start := ⟨fun _ => none, ∅, fun _ => none, fun _ => 0⟩
  enabled := System.enabled
  step := System.step

instance (s : System Obj Ref) (a : Action Obj Ref) : Decidable ((machine Obj Ref).enabled s a) :=
  inferInstanceAs (Decidable (s.enabled a))

end RefPtr

end Rx
