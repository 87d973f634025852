/-
# `RxCoreComponents.DelayedPerforming` — requests to perform a selector later

A request is a timer.  The run loop keeps a timer until it is invalid, and a table of the
thread finds it again: from the target, weakly, to a table of its own, and there from the
selector, weakly, to the timer.  The keys of the first are compared with `isEqual:`, which
is a parameter here, and those of the second are strings.

A weak reference to a timer that is no longer valid may be nil or not; all that is ever
done with the timer is to invalidate it, which does nothing then, so such references are
kept here.  A timer fires in two steps: its message is sent, and when that returns it is
made invalid.  In between the target may do anything, let other timers fire too.  To a
target that has begun to deallocate a weak reference is nil.

`System` is a thread beside the requests that are meant to be pending.
-/
import CrashRealm.Lib.KeyedTable
import CrashRealm.Lib.Machine
import CrashRealm.RxFoundation.Fault
import Mathlib.Logic.Function.Basic

namespace Rx

namespace DelayedPerforming

inductive Life where
  | alive
  /-- in its `dealloc` -/
  | deallocating
  | gone
  deriving DecidableEq, Repr

/-- A timer with its `RxActionWeakProxy`. -/
structure Timer (T S A M : Type) where
  target : T
  action : S
  object : Option A
  /-- the modes it was added to the run loop for -/
  modes : List M
  isValid : Bool
  isFiring : Bool
  deriving DecidableEq, Repr

/-- What one thread has. -/
structure Thread (T S A M : Type) where
  /-- `weakToStrongTargetMapTable`, in the thread dictionary -/
  targetTable : Option (List (T × List (S × Nat)))
  timers : Nat → Option (Timer T S A M)
  /-- how many timers there have been -/
  created : Nat
  life : T → Life
  /-- the messages sent by timers -/
  performed : List (T × S × Option A)

variable {T S A M : Type} [DecidableEq T] [DecidableEq S] (equal : T → T → Bool)

/-- Keys that are strings. -/
def sameString (a b : S) : Bool := decide (a = b)

namespace Thread

/-- `[timer invalidate]` -/
def invalidate (s : Thread T S A M) (i : Nat) : Thread T S A M :=
  { s with
    timers := Function.update s.timers i
      ((s.timers i).map fun timer => { timer with isValid := false }) }

/-- `rx_cancelPreviousPerformRequestsWithTarget:selector:object:` -/
def cancelPreviousPerformRequestsWithSelector (s : Thread T S A M) (aTarget : T) (aSelector : S)
    (_anArgument : Option A) : Thread T S A M :=
  match s.targetTable with
  | none => s
  | some targetTable =>
      match KeyedTable.find equal aTarget targetTable with
      | none => s
      | some selectorTable =>
          if selectorTable.isEmpty then s
          else match KeyedTable.find sameString aSelector selectorTable with
          | none => s
          | some timer =>
              { s.invalidate timer with
                targetTable := some (KeyedTable.store equal aTarget
                  (KeyedTable.erase sameString aSelector selectorTable) targetTable) }

/-- `rx_cancelPreviousPerformRequestsWithTarget:` -/
def cancelPreviousPerformRequests (s : Thread T S A M) (aTarget : T) : Thread T S A M :=
  match s.targetTable with
  | none => s
  | some targetTable =>
      match KeyedTable.find equal aTarget targetTable with
      | none => s
      | some selectorTable =>
          { (selectorTable.map Prod.snd).foldl invalidate s with
            targetTable := some (KeyedTable.erase equal aTarget targetTable) }

/-- The timer there is for the selector is made invalid. -/
def invalidatePrevious (s : Thread T S A M) (aSelector : S) (selectorTable : List (S × Nat)) :
    Thread T S A M :=
  match KeyedTable.find sameString aSelector selectorTable with
  | none => s
  | some timer => s.invalidate timer

/-- `rx_performSelector:withObject:afterDelay:inModes:`; the run loop decides when the delay
is over. -/
def performSelector (s : Thread T S A M) (target : T) (aSelector : S) (anArgument : Option A)
    (modes : List M) : Thread T S A M :=
  if s.life target ≠ .alive then s
  else
    let targetTable := s.targetTable.getD []
    let selectorTable := (KeyedTable.find equal target targetTable).getD []
    let timer := ⟨target, aSelector, anArgument, modes, true, false⟩
    { s.invalidatePrevious aSelector selectorTable with
      timers := Function.update (s.invalidatePrevious aSelector selectorTable).timers s.created
        (some timer)
      created := s.created + 1
      targetTable := some (KeyedTable.store equal target
        (KeyedTable.store sameString aSelector s.created selectorTable) targetTable) }

/-- The run loop lets a timer fire, and the proxy sends the message if there is a target. -/
def fire (s : Thread T S A M) (i : Nat) : Thread T S A M :=
  match s.timers i with
  | none => s
  | some timer =>
      { s with
        timers := Function.update s.timers i (some { timer with isFiring := true })
        performed := s.performed ++ if s.life timer.target = .alive
          then [(timer.target, timer.action, timer.object)] else [] }

/-- The message has returned; a timer that does not repeat is made invalid. -/
def finish (s : Thread T S A M) (i : Nat) : Thread T S A M :=
  { s with
    timers := Function.update s.timers i
      ((s.timers i).map fun timer => { timer with isValid := false, isFiring := false }) }

/-- `dealloc` begins: weak references to the target are nil from here on. -/
def dealloc (s : Thread T S A M) (target : T) : Thread T S A M :=
  { s with
    life := Function.update s.life target .deallocating
    targetTable := s.targetTable.map fun targetTable =>
      targetTable.filter fun entry => entry.1 ≠ target }

def free (s : Thread T S A M) (target : T) : Thread T S A M :=
  { s with life := Function.update s.life target .gone }

/-- A timer of the run loop that may still fire, or is firing. -/
def Scheduled (s : Thread T S A M) (target : T) (action : S) (i : Nat) : Prop :=
  ∃ timer, s.timers i = some timer ∧ timer.target = target ∧ timer.action = action ∧
    timer.isValid = true ∧ timer.modes ≠ []

/-- What is found for a target is its own. -/
def Own (s : Thread T S A M) (target : T) : Prop :=
  KeyedTable.Own equal target (s.targetTable.getD [])

end Thread

inductive Action (T S A M : Type) where
  | performSelector (target : T) (aSelector : S) (anArgument : Option A) (modes : List M)
  | cancelWithSelector (aTarget : T) (aSelector : S) (anArgument : Option A)
  | cancel (aTarget : T)
  | fire (i : Nat)
  | finish (i : Nat)
  | dealloc (target : T)
  | free (target : T)
  deriving DecidableEq, Repr

/-- The target an operation is on. -/
def Action.target : Action T S A M → Option T
  | .performSelector target _ _ _ | .cancelWithSelector target _ _ | .cancel target => some target
  | .dealloc target | .free target => some target
  | .fire _ | .finish _ => none

structure System (T S A M : Type) where
  thread : Thread T S A M
  /-- the timer of the last request for a selector that is neither cancelled nor done -/
  pending : T → S → Option Nat
  /-- the timers of requests that were cancelled, or replaced -/
  withdrawn : Nat → Prop

namespace System

/-- The target has begun no `dealloc`, or is in it; a timer of the run loop fires that is
valid and does not fire yet. -/
def enabled (s : System T S A M) : Action T S A M → Prop
  | .performSelector target _ _ _ => s.thread.life target ≠ .gone
  | .cancelWithSelector aTarget _ _ => s.thread.life aTarget ≠ .gone
  | .cancel aTarget => s.thread.life aTarget ≠ .gone
  | .fire i => ∃ timer ∈ s.thread.timers i,
      timer.isValid = true ∧ timer.modes ≠ [] ∧ timer.isFiring = false
  | .finish i => ∃ timer ∈ s.thread.timers i, timer.isFiring = true
  | .dealloc target => s.thread.life target = .alive
  | .free target => s.thread.life target = .deallocating

instance (s : System T S A M) : DecidablePred s.enabled
  | .performSelector target _ _ _ => inferInstanceAs (Decidable (s.thread.life target ≠ .gone))
  | .cancelWithSelector aTarget _ _ => inferInstanceAs (Decidable (s.thread.life aTarget ≠ .gone))
  | .cancel aTarget => inferInstanceAs (Decidable (s.thread.life aTarget ≠ .gone))
  | .fire i => inferInstanceAs (Decidable (∃ timer ∈ s.thread.timers i,
      timer.isValid = true ∧ timer.modes ≠ [] ∧ timer.isFiring = false))
  | .finish i => inferInstanceAs (Decidable (∃ timer ∈ s.thread.timers i, timer.isFiring = true))
  | .dealloc target => inferInstanceAs (Decidable (s.thread.life target = .alive))
  | .free target => inferInstanceAs (Decidable (s.thread.life target = .deallocating))

/-- Which requests are withdrawn by an action: those of the target, for these selectors. -/
def withdraws (s : System T S A M) : Action T S A M → T → S → Prop
  | .performSelector target aSelector _ _, t, sel =>
      s.thread.life target = .alive ∧ t = target ∧ sel = aSelector
  | .cancelWithSelector aTarget aSelector _, t, sel => t = aTarget ∧ sel = aSelector
  | .cancel aTarget, t, _ => t = aTarget
  | .fire _, _, _ | .finish _, _, _ | .dealloc _, _, _ | .free _, _, _ => False

/-- What is pending after it. -/
def nextPending (s : System T S A M) : Action T S A M → T → S → Option Nat
  | .performSelector target aSelector _ modes => fun t sel =>
      if s.thread.life target = .alive ∧ t = target ∧ sel = aSelector then
        if modes = [] then none else some s.thread.created
      else s.pending t sel
  | .cancelWithSelector aTarget aSelector _ => fun t sel =>
      if t = aTarget ∧ sel = aSelector then none else s.pending t sel
  | .cancel aTarget => fun t sel => if t = aTarget then none else s.pending t sel
  | .finish i => fun t sel => if s.pending t sel = some i then none else s.pending t sel
  | .fire _ | .dealloc _ | .free _ => s.pending

/-- What the code does. -/
def call (s : System T S A M) : Action T S A M → Thread T S A M
  | .performSelector target aSelector anArgument modes =>
      s.thread.performSelector equal target aSelector anArgument modes
  | .cancelWithSelector aTarget aSelector anArgument =>
      s.thread.cancelPreviousPerformRequestsWithSelector equal aTarget aSelector anArgument
  | .cancel aTarget => s.thread.cancelPreviousPerformRequests equal aTarget
  | .fire i => s.thread.fire i
  | .finish i => s.thread.finish i
  | .dealloc target => s.thread.dealloc target
  | .free target => s.thread.free target

def step (s : System T S A M) (a : Action T S A M) : System T S A M :=
  ⟨s.call equal a, s.nextPending a, fun i =>
    s.withdrawn i ∨ ∃ t sel, s.withdraws a t sel ∧ s.pending t sel = some i⟩

/-- What a request or a cancellation finds for its target is the target's own. -/
def Apart (s : System T S A M) : Action T S A M → Prop
  | .performSelector target _ _ _ => s.thread.life target = .alive → s.thread.Own equal target
  | .cancelWithSelector aTarget _ _ => s.thread.Own equal aTarget
  | .cancel aTarget => s.thread.Own equal aTarget
  | .fire _ | .finish _ | .dealloc _ | .free _ => True

instance (s : System T S A M) (target : T) : Decidable (s.thread.Own equal target) :=
  inferInstanceAs (Decidable (KeyedTable.Own ..))

instance (s : System T S A M) : DecidablePred (s.Apart equal)
  | .performSelector target _ _ _ =>
      inferInstanceAs (Decidable (s.thread.life target = .alive → s.thread.Own equal target))
  | .cancelWithSelector aTarget _ _ => inferInstanceAs (Decidable (s.thread.Own equal aTarget))
  | .cancel aTarget => inferInstanceAs (Decidable (s.thread.Own equal aTarget))
  | .fire _ | .finish _ | .dealloc _ | .free _ => inferInstanceAs (Decidable True)

end System

/-- Any sequence on one thread, from one with no requests. -/
def machine (T S A M : Type) [DecidableEq T] [DecidableEq S] (equal : T → T → Bool) :
    Machine (System T S A M) (Action T S A M) Fault where
  start := ⟨⟨none, fun _ => none, 0, fun _ => .alive, []⟩, fun _ _ => none, fun _ => False⟩
  enabled := System.enabled
  step s a := .ok (s.step equal a)

instance (s : System T S A M) (a : Action T S A M) :
    Decidable ((machine T S A M equal).enabled s a) :=
  inferInstanceAs (Decidable (s.enabled a))

end DelayedPerforming

end Rx
