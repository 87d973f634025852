/-
# `RxScheduler.RunLoopScheduler` — start-up behind a semaphore

`initWithName:runloop:` creates `_semaphore` with the value 0, and somebody signals
it when the scheduler knows its run loop and thread.  Every later call waits on it
and signals it again before it looks at anything, so one token goes from caller to
caller.  Who signals first depends on the way the scheduler is initialised:

* with no run loop, a block on a global queue creates a thread; the thread's entry
  sets the fields and puts a signalling block on its own run loop.  The block on
  the global queue takes the token once itself, to assert that the fields are set;
* with the current run loop, the initialiser sets the fields and signals;
* with another thread's run loop, the initialiser sets what it can and puts a block
  that sets the rest and signals on that run loop.

A section under `_lock` is one step.  `r` is the thread of the run loop; other code
runs on it between two turns of the run loop only in callbacks: perform blocks in
the order they were queued, and timers and sources.
-/
import CrashRealm.Lib.Machine
import CrashRealm.RxFoundation.Fault
import Mathlib.Logic.Function.Basic

namespace Rx

namespace RxRunLoopScheduler

/-- Whose run loop the scheduler is initialised with. -/
inductive Way where
  | own
  | current
  | other
  deriving DecidableEq, Repr

/-- How far the start-up is. -/
inductive Stage where
  /-- in `initWithName:runloop:` -/
  | starting
  /-- the block that creates the thread is on its queue -/
  | dispatched
  /-- the thread is created and not yet in its entry function -/
  | created
  /-- the signalling block is on the run loop -/
  | queued
  /-- it is being performed and has not signalled -/
  | performing
  | signalled
  deriving DecidableEq, Repr

/-- The methods other threads call. -/
inductive Method where
  | schedule
  | after
  | afterRepeating
  deriving DecidableEq, Repr

/-- Where a thread is. -/
inductive Place where
  | outside
  /-- the initialiser's block, in `dispatch_semaphore_wait` -/
  | startWaiting
  /-- past the wait, before the assertions -/
  | startPassed
  /-- past the assertions, before the signal -/
  | startChecked
  /-- a method, in `dispatch_semaphore_wait` -/
  | waiting (method : Method)
  /-- past the wait, before the signal -/
  | passed (method : Method)
  /-- past the signal, before the section under `_lock` -/
  | turned (method : Method)
  deriving DecidableEq, Repr

namespace Place

/-- In `dispatch_semaphore_wait`. -/
def waits : Place → Bool
  | startWaiting | waiting _ => true
  | _ => false

/-- Between the wait and the signal. -/
def between : Place → Bool
  | startPassed | startChecked | passed _ => true
  | _ => false

/-- About to signal. -/
def signals : Place → Bool
  | startChecked | passed _ => true
  | _ => false

/-- Past the wait. -/
def past : Place → Bool
  | startPassed | startChecked | passed _ | turned _ => true
  | _ => false

/-- Past the signal. -/
def pastSignal : Place → Bool
  | turned _ => true
  | _ => false

end Place

/-- A block queued with `CFRunLoopPerformBlock`: the signalling one or a caller's. -/
inductive Block where
  | start
  | caller
  deriving DecidableEq, Repr

variable {T : Type} [DecidableEq T]

/-- What the scheduler knows of its run loop.  A run loop and a `pthread_t` are named
by their thread. -/
structure Ivars (T : Type) where
  runloop : Option T
  cfRunLoop : Option T
  pthread : Option T
  thread : Option T
  deriving DecidableEq, Repr

structure RunLoop where
  /-- the perform blocks queued -/
  blocks : List Block
  /-- there are timers or sources that call out -/
  sources : Bool
  /-- the thread is in a callback -/
  busy : Bool
  deriving DecidableEq, Repr

/-- The scheduler, its run loop and all threads. -/
structure System (T : Type) where
  stage : Stage
  semaphore : Nat
  ivars : Ivars T
  loop : RunLoop
  place : T → Place

inductive Action (T : Type) where
  /-- what `initWithName:runloop:` does once it has the semaphore -/
  | initWithName
  /-- the block on the global queue, on thread `t`; `pthread_create` may fail -/
  | createThread (t : T) (created : Bool)
  /-- `__RxRunLoopSchedulerRunLoopEntry`, up to the run loop -/
  | entry
  /-- the run loop takes its next perform block -/
  | perform
  /-- the signalling block signals -/
  | signalStart
  /-- a timer or a source of the run loop calls out -/
  | fire
  /-- code in a callback adds a timer or a source of its own -/
  | addSource
  /-- the callback returns -/
  | ret
  /-- thread `t` calls a method and waits -/
  | call (t : T) (method : Method)
  /-- a wait of thread `t` returns -/
  | wake (t : T)
  /-- the two assertions of the initialiser's block -/
  | check (t : T)
  | signal (t : T)
  /-- the rest of a method, after its signal -/
  | finish (t : T)
  deriving DecidableEq, Repr

/-- Nothing is known. -/
def Ivars.nil : Ivars T := ⟨none, none, none, none⟩

/-- Everything is known. -/
def Ivars.of (r : T) : Ivars T := ⟨some r, some r, some r, some r⟩

def RunLoop.performBlock (loop : RunLoop) (block : Block) : RunLoop :=
  { loop with blocks := loop.blocks ++ [block] }

namespace System

/-- Before `initWithName:runloop:` decides; with the current run loop its thread is busy. -/
def init (way : Way) : System T where
  stage := .starting
  semaphore := 0
  ivars := .nil
  loop := { blocks := [], sources := way != .own, busy := way == .current }
  place := fun _ => .outside

def setPlace (s : System T) (t : T) (place : Place) : System T :=
  { s with place := Function.update s.place t place }

/-- The run loop's thread can take a block or a timer. -/
def idle (s : System T) (r : T) : Prop :=
  s.loop.busy = false ∧ s.place r = .outside ∧ s.stage ≠ .performing

/-- The scheduler is called once it is initialised, on the run loop's thread from a
callback. -/
def enabled (r : T) (s : System T) : Action T → Prop
  | .initWithName => s.stage = .starting
  | .createThread t _ => s.stage = .dispatched ∧ s.place t = .outside ∧ t ≠ r
  | .entry => s.stage = .created
  | .perform => s.idle r ∧ s.loop.blocks ≠ []
  | .signalStart => s.stage = .performing
  | .fire => s.idle r ∧ s.loop.sources = true
  | .addSource => s.loop.busy = true ∧ s.stage ≠ .starting
  | .ret => s.loop.busy = true ∧ s.place r = .outside ∧ s.stage ≠ .starting
  | .call t _ => s.stage ≠ .starting ∧ s.place t = .outside ∧ (t = r → s.loop.busy = true)
  | .wake t => (s.place t).waits = true ∧ 0 < s.semaphore
  | .check t => s.place t = .startPassed
  | .signal t => (s.place t).signals = true
  | .finish t => (s.place t).pastSignal = true

instance (s : System T) (r : T) : Decidable (s.idle r) :=
  inferInstanceAs (Decidable (_ ∧ _))

instance (s : System T) (r : T) : DecidablePred (s.enabled r)
  | .initWithName | .entry | .signalStart => inferInstanceAs (Decidable (s.stage = _))
  | .createThread _ _ | .ret => inferInstanceAs (Decidable (_ ∧ _ ∧ _))
  | .perform => inferInstanceAs (Decidable (s.idle r ∧ _))
  | .fire => inferInstanceAs (Decidable (s.idle r ∧ _ = _))
  | .addSource => inferInstanceAs (Decidable (_ ∧ _))
  | .call t _ => inferInstanceAs (Decidable (_ ∧ _ ∧ (t = r → _)))
  | .wake t => inferInstanceAs (Decidable ((s.place t).waits = true ∧ _))
  | .check t => inferInstanceAs (Decidable (s.place t = _))
  | .signal t => inferInstanceAs (Decidable ((s.place t).signals = true))
  | .finish t => inferInstanceAs (Decidable ((s.place t).pastSignal = true))

/-- `dispatch_async` of the block that makes a thread, or the section that takes
the given run loop. -/
def initWithName (way : Way) (r : T) (s : System T) : System T :=
  match way with
  | .own => { s with stage := .dispatched }
  | .current => { s with ivars := .of r, semaphore := s.semaphore + 1, stage := .signalled }
  | .other =>
      { s with
        ivars := { s.ivars with runloop := some r, cfRunLoop := some r }
        loop := s.loop.performBlock .start, stage := .queued }

/-- The section of the entry function under `_lock`.  Its own source calls nothing. -/
def entry (r : T) (s : System T) : System T :=
  { s with ivars := .of r, loop := s.loop.performBlock .start, stage := .queued }

/-- The signalling block, before it signals: with another thread's run loop it sets
the thread. -/
def performStart (way : Way) (r : T) (s : System T) : System T :=
  match way with
  | .other =>
      { s with ivars := { s.ivars with pthread := some r, thread := some r }, stage := .performing }
  | _ => { s with stage := .performing }

/-- The run loop takes its next block. -/
def perform (way : Way) (r : T) (s : System T) : System T :=
  match s.loop.blocks with
  | [] => s
  | .start :: blocks => { s with loop := { s.loop with blocks } }.performStart way r
  | .caller :: blocks => { s with loop := { s.loop with blocks, busy := true } }

/-- The assertions between the wait and the signal of the initialiser's block. -/
def check (s : System T) (t : T) : Except Fault (System T) :=
  if s.ivars.cfRunLoop = none then .error (.assertion "cfRunLoop is nil!")
  else if s.ivars.runloop = none then .error (.assertion "runloop is nil!")
  else .ok (s.setPlace t .startChecked)

/-- The place behind a wait. -/
def wake (s : System T) (t : T) : System T :=
  match s.place t with
  | .startWaiting => { s with semaphore := s.semaphore - 1 }.setPlace t .startPassed
  | .waiting method => { s with semaphore := s.semaphore - 1 }.setPlace t (.passed method)
  | _ => s

def signal (s : System T) (t : T) : System T :=
  match s.place t with
  | .startChecked => { s with semaphore := s.semaphore + 1 }.setPlace t .outside
  | .passed method => { s with semaphore := s.semaphore + 1 }.setPlace t (.turned method)
  | _ => s

/-- What a method does once it has the run loop: `schedule:` performs its block in
place on the run loop's thread and queues it elsewhere, the others add a timer. -/
def useLoop (s : System T) (t : T) : Method → RunLoop
  | .schedule =>
      if s.ivars.cfRunLoop = none ∨ s.ivars.pthread = some t then s.loop
      else s.loop.performBlock .caller
  | .after | .afterRepeating =>
      if s.ivars.runloop = none then s.loop else { s.loop with sources := true }

def finish (s : System T) (t : T) : System T :=
  match s.place t with
  | .turned method => { s with loop := s.useLoop t method }.setPlace t .outside
  | _ => s

def step (way : Way) (r : T) (s : System T) : Action T → Except Fault (System T)
  | .initWithName => .ok (s.initWithName way r)
  | .createThread t created =>
      if created then .ok ({ s with stage := .created }.setPlace t .startWaiting) else .error .halt
  | .entry => .ok (s.entry r)
  | .perform => .ok (s.perform way r)
  | .signalStart => .ok { s with semaphore := s.semaphore + 1, stage := .signalled }
  | .fire => .ok { s with loop := { s.loop with busy := true } }
  | .addSource => .ok { s with loop := { s.loop with sources := true } }
  | .ret => .ok { s with loop := { s.loop with busy := false } }
  | .call t method => .ok (s.setPlace t (.waiting method))
  | .wake t => .ok (s.wake t)
  | .check t => s.check t
  | .signal t => .ok (s.signal t)
  | .finish t => .ok (s.finish t)

end System

/-- One scheduler, initialised in one of the three ways, and any number of threads. -/
def machine (way : Way) (r : T) : Machine (System T) (Action T) Fault where
  start := .init way
  enabled := System.enabled r
  step := System.step way r

instance (way : Way) (r : T) (s : System T) (a : Action T) :
    Decidable ((machine way r).enabled s a) :=
  inferInstanceAs (Decidable (s.enabled r a))

end RxRunLoopScheduler

end Rx
