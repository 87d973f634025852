/-
# `RxFoundation.DoubleLinkedList` — a list of nodes with both ends

A node exists from its construction to its deletion, in the list or out of it, and
its links are read and written through a pointer that may dangle.  `_size` is an
`int32_t`, and to count past its greatest value is undefined.

`System` is the list beside the sequence that is meant.  A client makes nodes, adds
nodes that exist and are not in the list, names nodes of the list to be erased or to
insert before, and deletes nodes that are not in the list.
-/
import CrashRealm.Lib.Machine
import CrashRealm.RxFoundation.Fault
import Mathlib.Algebra.Group.Int.Defs
import Mathlib.Logic.Function.Basic

namespace Rx

/-- `DoubleLinkedList::Node`. -/
structure Node (E N : Type) where
  value : E
  next : Option N
  prev : Option N
  deriving DecidableEq, Repr

/-- The nodes that exist, and the list's own fields. -/
structure DoubleLinkedList (E N : Type) where
  nodes : N → Option (Node E N)
  headNode : Option N
  tailNode : Option N
  size : Int

namespace DoubleLinkedList

variable {E N : Type} [DecidableEq N]

/-- `*p` -/
def load (s : DoubleLinkedList E N) (p : Option N) : Except Fault (Node E N) :=
  match p.bind s.nodes with
  | none => .error .dangling
  | some node => .ok node

def setNode (s : DoubleLinkedList E N) (n : N) (node : Option (Node E N)) :
    DoubleLinkedList E N :=
  { s with nodes := Function.update s.nodes n node }

/-- `p->_next = value` -/
def setNext (s : DoubleLinkedList E N) (p value : Option N) :
    Except Fault (DoubleLinkedList E N) :=
  match p, p.bind s.nodes with
  | some n, some node => .ok (s.setNode n (some { node with next := value }))
  | _, _ => .error .dangling

/-- `p->_prev = value` -/
def setPrev (s : DoubleLinkedList E N) (p value : Option N) :
    Except Fault (DoubleLinkedList E N) :=
  match p, p.bind s.nodes with
  | some n, some node => .ok (s.setNode n (some { node with prev := value }))
  | _, _ => .error .dangling

/-- `delete p` -/
def deleteNode (s : DoubleLinkedList E N) (p : Option N) : Except Fault (DoubleLinkedList E N) :=
  match p, p.bind s.nodes with
  | none, _ => .ok s
  | some n, some _ => .ok (s.setNode n none)
  | some _, none => .error .badFree

/-- `setListSize(_size + 1)` -/
def incSize (s : DoubleLinkedList E N) : Except Fault (DoubleLinkedList E N) :=
  if s.size + 1 < 2 ^ 31 then .ok { s with size := s.size + 1 } else .error .undefinedArithmetic

/-- `setListSize(_size - 1)` -/
def decSize (s : DoubleLinkedList E N) : Except Fault (DoubleLinkedList E N) :=
  if -2 ^ 31 ≤ s.size - 1 then .ok { s with size := s.size - 1 } else .error .undefinedArithmetic

/-- The pointers `push_front` writes. -/
def linkFront (s : DoubleLinkedList E N) (newNode : Option N) :
    Except Fault (DoubleLinkedList E N) :=
  if s.headNode ≠ none then do
    let s ← s.setNext newNode s.headNode
    let s ← s.setPrev s.headNode newNode
    .ok { s with headNode := newNode }
  else .ok { s with headNode := newNode, tailNode := newNode }

/-- `push_front(Node *)` -/
def pushFront (s : DoubleLinkedList E N) (newNode : Option N) :
    Except Fault (DoubleLinkedList E N × Bool) :=
  if newNode = none then .ok (s, false)
  else do
    let s ← s.linkFront newNode
    let s ← s.incSize
    .ok (s, true)

/-- The pointers `addObject` writes. -/
def linkBack (s : DoubleLinkedList E N) (newNode : Option N) :
    Except Fault (DoubleLinkedList E N) :=
  if s.tailNode ≠ none then do
    let s ← s.setNext s.tailNode newNode
    let s ← s.setPrev newNode s.tailNode
    .ok { s with tailNode := newNode }
  else .ok { s with headNode := newNode, tailNode := newNode }

/-- `addObject(Node *)` -/
def addObject (s : DoubleLinkedList E N) (newNode : Option N) :
    Except Fault (DoubleLinkedList E N × Bool) :=
  if newNode = none then .ok (s, false)
  else do
    let s ← s.linkBack newNode
    let s ← s.incSize
    .ok (s, true)

/-- The pointers `insert` writes before a node other than the head. -/
def linkBefore (s : DoubleLinkedList E N) (newNode nodeToInsertBefore : Option N) :
    Except Fault (DoubleLinkedList E N) := do
  let before ← s.load nodeToInsertBefore
  let s ← s.setPrev newNode before.prev
  let s ← s.setNext newNode nodeToInsertBefore
  let before ← s.load nodeToInsertBefore
  let s ← s.setNext before.prev newNode
  s.setPrev nodeToInsertBefore newNode

/-- `insert(Node *, Node *)` -/
def insert (s : DoubleLinkedList E N) (newNode nodeToInsertBefore : Option N) :
    Except Fault (DoubleLinkedList E N × Bool) :=
  if newNode = none then .ok (s, false)
  else if nodeToInsertBefore = none ∨ nodeToInsertBefore = s.headNode then s.pushFront newNode
  else do
    let s ← s.linkBefore newNode nodeToInsertBefore
    let s ← s.incSize
    .ok (s, true)

/-- The loop of `clear`, for at most `rounds` rounds. -/
def clearLoop : (rounds : Nat) → DoubleLinkedList E N → Except Fault (DoubleLinkedList E N)
  | 0, _ => .error .spinning
  | rounds + 1, s =>
      if s.headNode ≠ none then do
        let head ← s.load s.headNode
        let s ← s.deleteNode s.headNode
        clearLoop rounds { s with headNode := head.next }
      else .ok s

/-- `clear`, with one round for each node that is counted and one to see the end. -/
def clear (s : DoubleLinkedList E N) : Except Fault (DoubleLinkedList E N) := do
  let s ← clearLoop (s.size.toNat + 1) s
  .ok { s with headNode := none, tailNode := none, size := 0 }

/-- `nodeToRemove->_next = nodeToRemove->_prev = nullptr` -/
def detach (s : DoubleLinkedList E N) (nodeToRemove : Option N) :
    Except Fault (DoubleLinkedList E N) := do
  let s ← s.setPrev nodeToRemove none
  s.setNext nodeToRemove none

/-- The pointers `erase` writes around the node, if it is not the only one. -/
def bypass (s : DoubleLinkedList E N) (nodeToRemove : Option N) :
    Except Fault (DoubleLinkedList E N) :=
  if nodeToRemove = s.headNode then do
    let head ← s.load s.headNode
    setPrev { s with headNode := head.next } head.next none
  else if nodeToRemove = s.tailNode then do
    let tail ← s.load s.tailNode
    setNext { s with tailNode := tail.prev } tail.prev none
  else do
    let node ← s.load nodeToRemove
    let s ← s.setPrev node.next node.prev
    let node ← s.load nodeToRemove
    s.setNext node.prev node.next

/-- `if (shouldDeleteNode) delete nodeToRemove;` or else its links are set to null. -/
def dispose (s : DoubleLinkedList E N) (nodeToRemove : Option N) (shouldDeleteNode : Bool) :
    Except Fault (DoubleLinkedList E N) :=
  if shouldDeleteNode then s.deleteNode nodeToRemove else s.detach nodeToRemove

/-- `erase(Node *, bool)` -/
def erase (s : DoubleLinkedList E N) (nodeToRemove : Option N) (shouldDeleteNode : Bool) :
    Except Fault (DoubleLinkedList E N) :=
  if nodeToRemove = none then .ok s
  else if s.size = 1 then
    if nodeToRemove ≠ s.headNode then .error (.assertion "nodeToRemove == _headNode")
    else if shouldDeleteNode then s.clear
    else do
      let s ← s.detach nodeToRemove
      .ok { s with headNode := none, tailNode := none, size := 0 }
  else do
    let s ← s.bypass nodeToRemove
    let s ← s.dispose nodeToRemove shouldDeleteNode
    s.decSize

/-- The loop of `findNode`, for at most `rounds` rounds. -/
def findLoop [BEq E] (s : DoubleLinkedList E N) (element : E) :
    (rounds : Nat) → Option N → Except Fault (Option N)
  | 0, _ => .error .spinning
  | rounds + 1, p =>
      if p ≠ none then do
        let node ← s.load p
        if node.value == element then .ok p else findLoop s element rounds node.next
      else .ok p

/-- `findNode`, with one round for each node that is counted and one to see the end. -/
def findNode [BEq E] (s : DoubleLinkedList E N) (element : E) : Except Fault (Option N) :=
  findLoop s element (s.size.toNat + 1) s.headNode

/-- `erase(const ElementType &)` -/
def eraseElement [BEq E] (s : DoubleLinkedList E N) (element : E) :
    Except Fault (DoubleLinkedList E N) := do
  let existingNode ← s.findNode element
  s.erase existingNode true

/-! ## The sequence that is meant -/

/-- `n` comes before `m`. -/
def insertBefore (m n : N) : List N → List N
  | [] => []
  | a :: as => if a = m then n :: a :: as else a :: insertBefore m n as

/-- The node holds this element. -/
def holds [BEq E] (s : DoubleLinkedList E N) (element : E) (n : N) : Bool :=
  match s.nodes n with
  | none => false
  | some node => node.value == element

inductive Action (E N : Type) where
  /-- `new Node(value)`, by the client -/
  | new (n : N) (value : E)
  /-- `delete n`, by the client -/
  | delete (n : N)
  | pushFront (newNode : Option N)
  | addObject (newNode : Option N)
  | insert (newNode nodeToInsertBefore : Option N)
  | erase (nodeToRemove : Option N) (shouldDeleteNode : Bool)
  | eraseElement (element : E)
  | clear
  deriving DecidableEq, Repr

structure System (E N : Type) where
  list : DoubleLinkedList E N
  sequence : List N

namespace System

variable [BEq E]

/-- A node that can be added, or null. -/
def Addable (s : System E N) (p : Option N) : Prop :=
  ∀ n ∈ p, (s.list.nodes n).isSome ∧ n ∉ s.sequence

/-- A node of the list, or null. -/
def Listed (s : System E N) (p : Option N) : Prop := ∀ n ∈ p, n ∈ s.sequence

instance (s : System E N) (p : Option N) : Decidable (s.Addable p) :=
  inferInstanceAs (Decidable (∀ n ∈ p, _))

instance (s : System E N) (p : Option N) : Decidable (s.Listed p) :=
  inferInstanceAs (Decidable (∀ n ∈ p, _))

def enabled (s : System E N) : Action E N → Prop
  | .new n _ => s.list.nodes n = none
  | .delete n => s.Addable (some n)
  | .pushFront newNode => s.Addable newNode
  | .addObject newNode => s.Addable newNode
  | .insert newNode nodeToInsertBefore => s.Addable newNode ∧ s.Listed nodeToInsertBefore
  | .erase nodeToRemove _ => s.Listed nodeToRemove
  | .eraseElement _ => True
  | .clear => True

instance (s : System E N) : DecidablePred s.enabled
  | .new n _ => decidable_of_iff ((s.list.nodes n).isNone = true) Option.isNone_iff_eq_none
  | .delete n => inferInstanceAs (Decidable (s.Addable (some n)))
  | .pushFront newNode => inferInstanceAs (Decidable (s.Addable newNode))
  | .addObject newNode => inferInstanceAs (Decidable (s.Addable newNode))
  | .insert newNode nodeToInsertBefore =>
      inferInstanceAs (Decidable (s.Addable newNode ∧ s.Listed nodeToInsertBefore))
  | .erase nodeToRemove _ => inferInstanceAs (Decidable (s.Listed nodeToRemove))
  | .eraseElement _ => inferInstanceAs (Decidable True)
  | .clear => inferInstanceAs (Decidable True)

/-- What the operations do to the sequence. -/
def meant (s : System E N) : Action E N → List N
  | .new _ _ | .delete _ => s.sequence
  | .pushFront newNode => newNode.toList ++ s.sequence
  | .addObject newNode => s.sequence ++ newNode.toList
  | .insert none _ => s.sequence
  | .insert (some n) none => n :: s.sequence
  | .insert (some n) (some m) => insertBefore m n s.sequence
  | .erase none _ => s.sequence
  | .erase (some n) _ => s.sequence.erase n
  | .eraseElement element => s.sequence.eraseP (s.list.holds element)
  | .clear => []

/-- What the code does. -/
def call (s : System E N) : Action E N → Except Fault (DoubleLinkedList E N)
  | .new n value => .ok (s.list.setNode n (some ⟨value, none, none⟩))
  | .delete n => s.list.deleteNode (some n)
  | .pushFront newNode => do .ok (← s.list.pushFront newNode).1
  | .addObject newNode => do .ok (← s.list.addObject newNode).1
  | .insert newNode nodeToInsertBefore => do .ok (← s.list.insert newNode nodeToInsertBefore).1
  | .erase nodeToRemove shouldDeleteNode => s.list.erase nodeToRemove shouldDeleteNode
  | .eraseElement element => s.list.eraseElement element
  | .clear => s.list.clear

def step (s : System E N) (a : Action E N) : Except Fault (System E N) := do
  let list ← s.call a
  .ok ⟨list, s.meant a⟩

end System

/-- Any client, from an empty list and no nodes. -/
def machine (E N : Type) [DecidableEq N] [BEq E] : Machine (System E N) (Action E N) Fault where
  start := ⟨⟨fun _ => none, none, none, 0⟩, []⟩
  enabled := System.enabled
  step := System.step

instance [BEq E] (s : System E N) (a : Action E N) : Decidable ((machine E N).enabled s a) :=
  inferInstanceAs (Decidable (s.enabled a))

end DoubleLinkedList

end Rx
