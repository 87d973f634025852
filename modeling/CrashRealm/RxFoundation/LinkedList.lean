/-
# `RxFoundation.LinkedList` — nodes that know the slot they are in

`_prevLink` points to the pointer that refers to the node: a head variable or the
`_nextLink` of another node.  Both are `Slot`s, and `Link` and `Unlink` write them
without knowing which they are.

`System` is the memory beside the lists that are meant, one for each head.  A client
links a node that `IsLinked` denies, to a head or behind a node that is linked, and
unlinks any node.
-/
import CrashRealm.Lib.Machine
import CrashRealm.RxFoundation.Fault
import Mathlib.Logic.Function.Basic

namespace Rx

namespace LinkedList

variable {H N : Type} [DecidableEq H] [DecidableEq N]

/-- A variable of type `LinkedList *`. -/
inductive Slot (H N : Type) where
  | head (h : H)
  | next (n : N)
  deriving DecidableEq, Repr

/-- What the slots hold, `_nextLink` of each node among them, and `_prevLink`. -/
structure Memory (H N : Type) where
  slot : Slot H N → Option N
  prevLink : N → Option (Slot H N)

namespace Memory

def setSlot (m : Memory H N) (x : Slot H N) (p : Option N) : Memory H N :=
  { m with slot := Function.update m.slot x p }

def setPrevLink (m : Memory H N) (n : N) (p : Option (Slot H N)) : Memory H N :=
  { m with prevLink := Function.update m.prevLink n p }

/-- `if (p) p->_prevLink = value` -/
def writePrevLink (m : Memory H N) (p : Option N) (value : Option (Slot H N)) : Memory H N :=
  match p with
  | none => m
  | some node => m.setPrevLink node value

/-- `if (p) *p = value` -/
def writeSlot (m : Memory H N) (p : Option (Slot H N)) (value : Option N) : Memory H N :=
  match p with
  | none => m
  | some x => m.setSlot x value

def unlink (m : Memory H N) (n : N) : Memory H N :=
  let m := m.writePrevLink (m.slot (.next n)) (m.prevLink n)
  let m := m.writeSlot (m.prevLink n) (m.slot (.next n))
  (m.setSlot (.next n) none).setPrevLink n none

def link (m : Memory H N) (n : N) (before : Slot H N) : Memory H N :=
  let m := m.writePrevLink (m.slot before) (some (.next n))
  let m := m.setSlot (.next n) (m.slot before)
  let m := m.setPrevLink n (some before)
  m.setSlot before (some n)

def isLinked (m : Memory H N) (n : N) : Bool := (m.prevLink n).isSome

end Memory

/-! ## The lists that are meant -/

/-- `n` comes after `m`. -/
def insertAfter (m n : N) : List N → List N
  | [] => []
  | a :: as => if a = m then a :: n :: as else a :: insertAfter m n as

/-- `n` comes where this slot is. -/
def linkInto (lists : H → List N) (n : N) : Slot H N → H → List N
  | .head p, h => if h = p then n :: lists h else lists h
  | .next m, h => insertAfter m n (lists h)

def unlinkFrom (lists : H → List N) (n : N) (h : H) : List N := (lists h).erase n

structure System (H N : Type) where
  memory : Memory H N
  lists : H → List N

inductive Action (H N : Type) where
  | link (n : N) (before : Slot H N)
  | unlink (n : N)
  deriving DecidableEq, Repr

namespace System

/-- A head, or behind a node that is linked. -/
def Usable (s : System H N) : Slot H N → Prop
  | .head _ => True
  | .next m => s.memory.isLinked m = true

def enabled (s : System H N) : Action H N → Prop
  | .link n before => s.memory.isLinked n = false ∧ s.Usable before
  | .unlink _ => True

instance (s : System H N) : DecidablePred s.Usable
  | .head _ => inferInstanceAs (Decidable True)
  | .next m => inferInstanceAs (Decidable (s.memory.isLinked m = true))

instance (s : System H N) : DecidablePred s.enabled
  | .link n before => inferInstanceAs (Decidable (s.memory.isLinked n = false ∧ s.Usable before))
  | .unlink _ => inferInstanceAs (Decidable True)

def step (s : System H N) : Action H N → System H N
  | .link n before => ⟨s.memory.link n before, linkInto s.lists n before⟩
  | .unlink n => ⟨s.memory.unlink n, unlinkFrom s.lists n⟩

end System

/-- Any client, from heads that are null and nodes that are new. -/
def machine (H N : Type) [DecidableEq H] [DecidableEq N] :
    Machine (System H N) (Action H N) Fault where
  start := ⟨⟨fun _ => none, fun _ => none⟩, fun _ => []⟩
  enabled := System.enabled
  step s a := .ok (s.step a)

instance (s : System H N) (a : Action H N) : Decidable ((machine H N).enabled s a) :=
  inferInstanceAs (Decidable (s.enabled a))

end LinkedList

end Rx
