/-
# `Example.RxViewController` — the jobs of the timer

`viewDidLoad` fills the database and sets a timer.  Each tick starts a job for every
conversation: two blocks on two of the eight worker schedulers, chosen at random.
The first submits a third, which looks the conversation up and asserts that it is
there.  The second reads its `flip`, a variable of its own, and deletes the
conversation by a block of its own or writes it anew.

A database is what was committed last, for whoever looks.  A transaction is one
step, and so is each call of the scheduler; between them every thread may go on.  A
run-loop scheduler performs a block in place when it is called on its own thread and
queues it otherwise; which of the blocks queued it performs next is left open.
-/
import CrashRealm.Lib.Machine
import CrashRealm.RxFoundation.Fault
import Mathlib.Logic.Equiv.Defs
import Mathlib.Logic.Function.Basic

namespace Rx

namespace RxViewController

def kRxTestArrayCapacity : Nat := 100

def kRxTestSchedulerCapacity : Nat := 4

variable {UUID : Type} [DecidableEq UUID]

/-! ## The database -/

structure RxConversation (UUID : Type) where
  ID : UUID
  messageIDs : List UUID
  deriving DecidableEq, Repr

structure RxMessage (UUID : Type) where
  ID : UUID
  conversationID : UUID
  deriving DecidableEq, Repr

/-- What is committed, by primary key. -/
structure Realm (UUID : Type) where
  conversations : UUID → Option (RxConversation UUID)
  messages : UUID → Option (RxMessage UUID)

namespace Realm

def deleteAllObjects (_realm : Realm UUID) : Realm UUID := ⟨fun _ => none, fun _ => none⟩

def addOrUpdateMessage (realm : Realm UUID) (message : RxMessage UUID) : Realm UUID :=
  { realm with messages := Function.update realm.messages message.ID (some message) }

def addOrUpdateConversation (realm : Realm UUID) (conversation : RxConversation UUID) : Realm UUID :=
  { realm with
    conversations := Function.update realm.conversations conversation.ID (some conversation) }

/-- `[RxConversation objectForPrimaryKey:cid]` -/
def objectForPrimaryKey (realm : Realm UUID) (cid : UUID) : Option (RxConversation UUID) :=
  realm.conversations cid

def deleteConversation (realm : Realm UUID) (cid : UUID) : Realm UUID :=
  { realm with conversations := Function.update realm.conversations cid none }

end Realm

/-! ## Filling it -/

/-- The two arrays of `__configureDataSources`. -/
structure DataSources (UUID : Type) where
  convsationIDs : Fin kRxTestArrayCapacity → UUID
  messageIDs : Fin kRxTestArrayCapacity → Fin kRxTestArrayCapacity → UUID

/-- An element of an array of a fixed size. -/
def element {α : Type} {n : Nat} (array : Fin n → α) (idx : Nat) : Except Fault α :=
  if h : idx < n then .ok (array ⟨idx, h⟩) else .error .outOfBounds

/-- `__resetDB` -/
def resetDB (realm : Realm UUID) : Realm UUID := realm.deleteAllObjects

/-- `__initJob:inRealm:` -/
def initJob (sources : DataSources UUID) (realm : Realm UUID) (idx : Nat) :
    Except Fault (Realm UUID) := do
  let convsationID ← element sources.convsationIDs idx
  let messageIDs ← element sources.messageIDs idx
  let messages := (List.ofFn messageIDs).map fun messageID => ⟨messageID, convsationID⟩
  .ok ((messages.foldl .addOrUpdateMessage realm).addOrUpdateConversation
    ⟨convsationID, List.ofFn messageIDs⟩)

/-- `__initDB` -/
def initDB (sources : DataSources UUID) (realm : Realm UUID) : Except Fault (Realm UUID) :=
  (List.range kRxTestArrayCapacity).foldlM (initJob sources) realm

/-- `__initConversationJob:`, with the order `shuffledArray` comes to. -/
def initConversationJob (sources : DataSources UUID) (realm : Realm UUID) (idx : Nat)
    (shuffle : Equiv.Perm (Fin kRxTestArrayCapacity)) : Except Fault (Realm UUID) := do
  let convsationID ← element sources.convsationIDs idx
  let messageIDs ← element sources.messageIDs idx
  .ok (realm.addOrUpdateConversation ⟨convsationID, List.ofFn (messageIDs ∘ shuffle)⟩)

/-- The transaction of `__resetJob:`'s block. -/
def deleteJob (sources : DataSources UUID) (realm : Realm UUID) (idx : Nat) :
    Except Fault (Realm UUID) := do
  let convsationID ← element sources.convsationIDs idx
  match realm.objectForPrimaryKey convsationID with
  | none => .ok realm
  | some _ => .ok (realm.deleteConversation convsationID)

/-- `__doJobWithCID:tokens:`, up to its assertion. -/
def doJobWithCID (realm : Realm UUID) (cid : UUID) : Except Fault (RxConversation UUID) :=
  match realm.objectForPrimaryKey cid with
  | none => .error (.assertion "conversation")
  | some conversation => .ok conversation

/-! ## Blocks and threads -/

/-- A worker scheduler, with its thread. -/
inductive Worker where
  | schedulers (i : Fin kRxTestSchedulerCapacity)
  | randomSchedulers (i : Fin kRxTestSchedulerCapacity)
  deriving DecidableEq, Repr

/-- A block that was submitted. -/
inductive Block where
  /-- the first block of `__startJob:` -/
  | notify (idx : Nat)
  /-- the second block of `__startJob:`, with the variable it captures -/
  | flip (idx cell : Nat)
  /-- the block of `__notifyJob:` -/
  | job (idx : Nat)
  /-- the block of `__resetJob:` -/
  | reset (idx : Nat)
  deriving DecidableEq, Repr

/-- How far the second block of `__startJob:` is. -/
inductive Point where
  /-- before it reads `flip` -/
  | entry
  /-- it has read it -/
  | branch (flip : Bool)
  /-- before it changes it -/
  | toggling
  deriving DecidableEq, Repr

/-- A block that is being run. -/
inductive Frame where
  | notify (idx : Nat)
  | flip (idx cell : Nat) (point : Point)
  | job (idx : Nat)
  | reset (idx : Nat)
  deriving DecidableEq, Repr

def Block.enter : Block → Frame
  | notify idx => .notify idx
  | flip idx cell => .flip idx cell .entry
  | job idx => .job idx
  | reset idx => .reset idx

/-- The blocks queued at a worker, and those it is in, innermost first. -/
structure Thread where
  blocks : List Block
  stack : List Frame
  deriving DecidableEq, Repr

/-- Where the main thread is. -/
inductive Main where
  | waiting
  /-- in the timer's loop, before its test -/
  | loop (idx : Nat)
  /-- between the two calls of `__startJob:` -/
  | started (idx cell : Nat)
  deriving DecidableEq, Repr

/-- The database, all variables `flip`, and the threads. -/
structure System (UUID : Type) where
  realm : Realm UUID
  flips : List Bool
  main : Main
  threads : Worker → Thread

inductive Action where
  /-- the timer fires -/
  | fire
  /-- the main thread goes on; `arc4random` gives `j` -/
  | next (j : Fin kRxTestSchedulerCapacity)
  /-- worker `w` performs the block queued at place `i` -/
  | perform (w : Worker) (i : Nat)
  /-- worker `w` goes on in its innermost block -/
  | run (w : Worker) (j : Fin kRxTestSchedulerCapacity)
      (shuffle : Equiv.Perm (Fin kRxTestArrayCapacity))

namespace System

def setThread (s : System UUID) (w : Worker) (thread : Thread) : System UUID :=
  { s with threads := Function.update s.threads w thread }

def setStack (s : System UUID) (w : Worker) (stack : List Frame) : System UUID :=
  s.setThread w { s.threads w with stack }

/-- `schedule:` of worker `w`, called on the thread of `caller` or the main thread. -/
def schedule (s : System UUID) (caller : Option Worker) (w : Worker) (block : Block) : System UUID :=
  let thread := s.threads w
  if caller = some w then s.setThread w { thread with stack := block.enter :: thread.stack }
  else s.setThread w { thread with blocks := thread.blocks ++ [block] }

/-- `__startJob:`, up to its second call. -/
def startJob (s : System UUID) (idx : Nat) (j : Fin kRxTestSchedulerCapacity) :
    Except Fault (System UUID) :=
  if idx < kRxTestArrayCapacity then
    let s := { s with flips := s.flips ++ [false], main := .started idx s.flips.length }
    .ok (s.schedule none (.schedulers j) (.notify idx))
  else .error (.assertion "idx < __kRxTestArrayCapacity")

/-- The main thread in the timer's block. -/
def next (s : System UUID) (j : Fin kRxTestSchedulerCapacity) : Except Fault (System UUID) :=
  match s.main with
  | .waiting => .ok s
  | .loop idx =>
      if idx < kRxTestArrayCapacity then s.startJob idx j else .ok { s with main := .waiting }
  | .started idx cell =>
      .ok ({ s with main := .loop (idx + 1) }.schedule none (.randomSchedulers j) (.flip idx cell))

/-- `__notifyJob:`, called on the thread of `w`. -/
def notifyJob (s : System UUID) (w : Worker) (idx : Nat) (j : Fin kRxTestSchedulerCapacity) :
    Except Fault (System UUID) :=
  if idx < kRxTestArrayCapacity then .ok (s.schedule (some w) (.schedulers j) (.job idx))
  else .error (.assertion "idx < __kRxTestArrayCapacity")

/-- `__resetJob:`, called on the thread of `w`. -/
def resetJob (s : System UUID) (w : Worker) (idx : Nat) (j : Fin kRxTestSchedulerCapacity) :
    Except Fault (System UUID) :=
  if idx < kRxTestArrayCapacity then .ok (s.schedule (some w) (.randomSchedulers j) (.reset idx))
  else .error (.assertion "idx < __kRxTestArrayCapacity")

/-- Worker `w` performs a queued block. -/
def perform (s : System UUID) (w : Worker) (i : Nat) : System UUID :=
  let thread := s.threads w
  match thread.blocks[i]? with
  | none => s
  | some block => s.setThread w ⟨thread.blocks.eraseIdx i, [block.enter]⟩

/-- Worker `w` goes on in its innermost block. -/
def run (sources : DataSources UUID) (s : System UUID) (w : Worker)
    (j : Fin kRxTestSchedulerCapacity) (shuffle : Equiv.Perm (Fin kRxTestArrayCapacity)) :
    Except Fault (System UUID) :=
  match (s.threads w).stack with
  | [] => .ok s
  | .notify idx :: stack => (s.setStack w stack).notifyJob w idx j
  | .job idx :: stack => do
      let cid ← element sources.convsationIDs idx
      let _conversation ← doJobWithCID s.realm cid
      .ok (s.setStack w stack)
  | .reset idx :: stack => do
      let realm ← deleteJob sources s.realm idx
      .ok ({ s with realm }.setStack w stack)
  | .flip idx cell .entry :: stack =>
      match s.flips[cell]? with
      | none => .error .dangling
      | some flip => .ok (s.setStack w (.flip idx cell (.branch flip) :: stack))
  | .flip idx cell (.branch true) :: stack =>
      (s.setStack w (.flip idx cell .toggling :: stack)).resetJob w idx j
  | .flip idx cell (.branch false) :: stack => do
      let realm ← initConversationJob sources s.realm idx shuffle
      .ok ({ s with realm }.setStack w (.flip idx cell .toggling :: stack))
  | .flip _ cell .toggling :: stack =>
      .ok ({ s with flips := s.flips.modify cell (!·) }.setStack w stack)

/-- A worker performs a queued block when it is in none. -/
def enabled (s : System UUID) : Action → Prop
  | .fire => s.main = .waiting
  | .next _ => s.main ≠ .waiting
  | .perform w i => (s.threads w).stack = [] ∧ i < (s.threads w).blocks.length
  | .run w _ _ => (s.threads w).stack ≠ []

instance (s : System UUID) : DecidablePred s.enabled
  | .fire => inferInstanceAs (Decidable (s.main = _))
  | .next _ => inferInstanceAs (Decidable (s.main ≠ _))
  | .perform w i => inferInstanceAs (Decidable ((s.threads w).stack = [] ∧ i < _))
  | .run w _ _ => inferInstanceAs (Decidable ((s.threads w).stack ≠ []))

def step (sources : DataSources UUID) (s : System UUID) : Action → Except Fault (System UUID)
  | .fire => .ok { s with main := .loop 0 }
  | .next j => s.next j
  | .perform w i => .ok (s.perform w i)
  | .run w j shuffle => s.run sources w j shuffle

end System

/-- `viewDidLoad`, from a database with anything in it. -/
def viewDidLoad (sources : DataSources UUID) (realm : Realm UUID) : Except Fault (System UUID) := do
  let realm ← initDB sources (resetDB realm)
  .ok { realm, flips := [], main := .waiting, threads := fun _ => ⟨[], []⟩ }

/-- The app, once `viewDidLoad` has returned. -/
def machine (sources : DataSources UUID) (start : System UUID) :
    Machine (System UUID) Action Fault where
  start := start
  enabled := System.enabled
  step := System.step sources

instance (sources : DataSources UUID) (start s : System UUID) (a : Action) :
    Decidable ((machine sources start).enabled s a) :=
  inferInstanceAs (Decidable (s.enabled a))

end RxViewController

end Rx
