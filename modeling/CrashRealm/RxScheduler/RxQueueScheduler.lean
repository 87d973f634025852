/-
# `RxScheduler.RxQueueScheduler` — blocks on serial queues

A queue scheduler owns a serial queue: `RxTargetQueueScheduler` creates one, and
`RxMainQueueScheduler` has the main queue.  `schedule:` runs its block in place where
the thread is working for that queue (the main-queue scheduler: on the main thread)
and otherwise leaves it to the queue; `after:` leaves it to the queue when it is due,
and the repeating `after:` makes a timer source of it.  What each method does with its
block is `queueSubmit` and `mainQueueSubmit`.

**The queues.**  A serial queue has one item out at a time and hands them out in the
order they came, to a thread that has nothing else to do, or to the main thread in its
run loop.  A timer source puts its event on the queue, not twice at once.

**The threads.**  A thread is in a stack of blocks (`Frame`), served from a queue or
run in place.  What a queue hands out first asks whether its token was cancelled,
then runs the block: two steps, between which others go on.
-/
import CrashRealm.Lib.Machine
import CrashRealm.RxFoundation.Fault
import CrashRealm.RxScheduler.CurrentScheduler
import Mathlib.Data.Fintype.Basic
import Mathlib.Logic.Function.Basic

namespace Rx

namespace RxQueueScheduler

open RxScheduler (Method Submission queueSubmit mainQueueSubmit)

/-- `+mainScheduler` and the main thread. -/
structure Config (S T : Type) where
  mainThread : T
  mainScheduler : S

/-- How far a block has come. -/
inductive Stage where
  /-- before `[token isCancelled]` -/
  | taken
  /-- after it, before `performAsCurrentScheduler:` -/
  | cleared
  /-- in the block -/
  | running
  deriving DecidableEq, Repr

structure Frame (S : Type) where
  scheduler : S
  job : Nat
  /-- handed out by the queue -/
  served : Bool
  stage : Stage
  deriving DecidableEq, Repr

/-- What happened to the block of a token. -/
inductive Event (S : Type) where
  /-- it was given to a method of the scheduler -/
  | submitted (scheduler : S) (job : Nat)
  /-- it came to the end of the queue -/
  | queued (scheduler : S) (job : Nat)
  | started (scheduler : S) (job : Nat) (inPlace : Bool)
  /-- its token was cancelled -/
  | skipped (scheduler : S) (job : Nat)
  deriving DecidableEq, Repr

/-- The queues, the tokens and the threads. -/
structure System (S T : Type) where
  queue : S → List Nat
  /-- given to `dispatch_after` and not due yet -/
  delayed : S → List Nat
  /-- the timer sources -/
  timers : S → List Nat
  cancelled : Nat → Bool
  /-- the blocks a thread is in, innermost first -/
  frames : T → List (Frame S)
  next : Nat
  log : List (Event S)

inductive Action (S T : Type) where
  /-- thread `t` calls a method of a scheduler -/
  | submit (t : T) (scheduler : S) (method : Method)
  /-- the time of a delayed block has come -/
  | due (scheduler : S) (job : Nat)
  /-- a timer source has an event -/
  | fire (scheduler : S) (job : Nat)
  /-- `[token cancel]` -/
  | cancel (job : Nat)
  /-- the queue hands its first item to thread `t` -/
  | serve (t : T) (scheduler : S)
  /-- thread `t` asks `[token isCancelled]`, or the source whether it is cancelled -/
  | check (t : T)
  /-- thread `t` runs the block -/
  | perform (t : T)
  /-- the innermost block of thread `t` returns -/
  | finish (t : T)
  deriving DecidableEq, Repr

section

variable {S T : Type}

/-- The scheduler whose queue the thread is working for, `dispatch_get_specific`. -/
def currentQueue : List (Frame S) → Option S
  | [] => none
  | frame :: frames => if frame.served then some frame.scheduler else currentQueue frames

/-- The thread is in code that may call methods: in no block, or in its innermost. -/
def AtLarge : List (Frame S) → Prop
  | [] => True
  | frame :: _ => frame.stage = .running

instance : DecidablePred (AtLarge (S := S))
  | [] => inferInstanceAs (Decidable True)
  | frame :: _ => inferInstanceAs (Decidable (frame.stage = .running))

/-- The innermost block is at this stage. -/
def TopAt (stage : Stage) : List (Frame S) → Prop
  | [] => False
  | frame :: _ => frame.stage = stage

instance (stage : Stage) : DecidablePred (TopAt (S := S) stage)
  | [] => inferInstanceAs (Decidable False)
  | frame :: _ => inferInstanceAs (Decidable (frame.stage = stage))

variable [DecidableEq S] [DecidableEq T]

namespace Config

/-- What `schedule:` and the two `after:` do with a block on thread `t`. -/
def submission (cfg : Config S T) (t : T) (frames : List (Frame S)) (scheduler : S)
    (method : Method) : Submission :=
  if scheduler = cfg.mainScheduler then mainQueueSubmit (decide (t = cfg.mainThread)) method
  else queueSubmit (decide (currentQueue frames = some scheduler)) method

/-- Where the queue of a scheduler may hand out an item, given the blocks the thread is in. -/
def CanServe (cfg : Config S T) (t : T) (frames : List (Frame S)) (scheduler : S) : Prop :=
  if scheduler = cfg.mainScheduler then
    t = cfg.mainThread ∧ AtLarge frames ∧ currentQueue frames = none
  else t ≠ cfg.mainThread ∧ frames = []

instance (cfg : Config S T) (t : T) (frames : List (Frame S)) (scheduler : S) :
    Decidable (cfg.CanServe t frames scheduler) := by
  unfold CanServe
  infer_instance

end Config

namespace System

def init : System S T where
  queue := fun _ => []
  delayed := fun _ => []
  timers := fun _ => []
  cancelled := fun _ => false
  frames := fun _ => []
  next := 0
  log := []

def setFrames (s : System S T) (t : T) (frames : List (Frame S)) : System S T :=
  { s with frames := Function.update s.frames t frames }

def record (s : System S T) (e : Event S) : System S T := { s with log := s.log ++ [e] }

section

omit [DecidableEq S]

variable (s : System S T) (t : T) (frames : List (Frame S))

@[simp] theorem setFrames_delayed : (s.setFrames t frames).delayed = s.delayed := rfl

@[simp] theorem setFrames_timers : (s.setFrames t frames).timers = s.timers := rfl

@[simp] theorem setFrames_next : (s.setFrames t frames).next = s.next := rfl

@[simp] theorem setFrames_log : (s.setFrames t frames).log = s.log := rfl

omit [DecidableEq T]

variable (e : Event S)

@[simp] theorem record_delayed : (s.record e).delayed = s.delayed := rfl

@[simp] theorem record_timers : (s.record e).timers = s.timers := rfl

@[simp] theorem record_next : (s.record e).next = s.next := rfl

end

/-- `dispatch_async`, or what comes to the same in the end. -/
def enqueue (s : System S T) (scheduler : S) (job : Nat) : System S T :=
  { s with queue := Function.update s.queue scheduler (s.queue scheduler ++ [job]) }.record
    (.queued scheduler job)

/-- A new token, for a block that is given to the scheduler. -/
def newToken (s : System S T) (scheduler : S) : System S T :=
  { s with next := s.next + 1 }.record (.submitted scheduler s.next)

def submit (s : System S T) (t : T) (scheduler : S) (method : Method) :
    Submission → System S T
  | .inPlace =>
      ((s.newToken scheduler).setFrames t
        ({ scheduler, job := s.next, served := false, stage := .running } :: s.frames t)).record
          (.started scheduler s.next true)
  | .deferred _ true =>
      { s.newToken scheduler with
        timers := Function.update s.timers scheduler (s.timers scheduler ++ [s.next]) }
  | .deferred _ false =>
      match method with
      | .schedule => (s.newToken scheduler).enqueue scheduler s.next
      | _ =>
          { s.newToken scheduler with
            delayed := Function.update s.delayed scheduler (s.delayed scheduler ++ [s.next]) }

def serve (s : System S T) (t : T) (scheduler : S) : System S T :=
  match s.queue scheduler with
  | [] => s
  | job :: rest =>
      { s with queue := Function.update s.queue scheduler rest }.setFrames t
        ({ scheduler, job, served := true, stage := .taken } :: s.frames t)

def check (s : System S T) (t : T) : System S T :=
  match s.frames t with
  | [] => s
  | frame :: frames =>
      if s.cancelled frame.job then
        (s.setFrames t frames).record (.skipped frame.scheduler frame.job)
      else s.setFrames t ({ frame with stage := .cleared } :: frames)

def perform (s : System S T) (t : T) : System S T :=
  match s.frames t with
  | [] => s
  | frame :: frames =>
      (s.setFrames t ({ frame with stage := .running } :: frames)).record
        (.started frame.scheduler frame.job false)

def step (cfg : Config S T) (s : System S T) : Action S T → System S T
  | .submit t scheduler method =>
      s.submit t scheduler method (cfg.submission t (s.frames t) scheduler method)
  | .due scheduler job =>
      { s with
        delayed := Function.update s.delayed scheduler
          ((s.delayed scheduler).erase job) }.enqueue scheduler job
  | .fire scheduler job => s.enqueue scheduler job
  | .cancel job => { s with cancelled := Function.update s.cancelled job true }
  | .serve t scheduler => s.serve t scheduler
  | .check t => s.check t
  | .perform t => s.perform t
  | .finish t => s.setFrames t (s.frames t).tail

/-- A method is called by a thread that is in its own code or that of its innermost
block; the token of a block that is run in place is not returned before it has run. -/
def enabled (cfg : Config S T) (s : System S T) : Action S T → Prop
  | .submit t _ _ => AtLarge (s.frames t)
  | .due scheduler job => job ∈ s.delayed scheduler
  | .fire scheduler job => job ∈ s.timers scheduler ∧ job ∉ s.queue scheduler ∧
      ∀ t, ∀ frame ∈ s.frames t, frame.job ≠ job
  | .cancel job => job < s.next ∧ ∀ t, ∀ frame ∈ s.frames t, frame.job = job → frame.served = true
  | .serve t scheduler => s.queue scheduler ≠ [] ∧
      (∀ u, currentQueue (s.frames u) ≠ some scheduler) ∧
      cfg.CanServe t (s.frames t) scheduler
  | .check t => TopAt .taken (s.frames t)
  | .perform t => TopAt .cleared (s.frames t)
  | .finish t => TopAt .running (s.frames t)

instance [Fintype T] (cfg : Config S T) (s : System S T) : DecidablePred (s.enabled cfg)
  | .submit t _ _ => inferInstanceAs (Decidable (AtLarge (s.frames t)))
  | .due scheduler job => inferInstanceAs (Decidable (job ∈ s.delayed scheduler))
  | .fire scheduler job =>
      inferInstanceAs (Decidable (job ∈ s.timers scheduler ∧ job ∉ s.queue scheduler ∧
        ∀ t, ∀ frame ∈ s.frames t, frame.job ≠ job))
  | .cancel job =>
      inferInstanceAs (Decidable (job < s.next ∧
        ∀ t, ∀ frame ∈ s.frames t, frame.job = job → frame.served = true))
  | .serve t scheduler =>
      inferInstanceAs (Decidable (s.queue scheduler ≠ [] ∧
        (∀ u, currentQueue (s.frames u) ≠ some scheduler) ∧
        cfg.CanServe t (s.frames t) scheduler))
  | .check t => inferInstanceAs (Decidable (TopAt .taken (s.frames t)))
  | .perform t => inferInstanceAs (Decidable (TopAt .cleared (s.frames t)))
  | .finish t => inferInstanceAs (Decidable (TopAt .running (s.frames t)))

end System

/-- Any number of schedulers and threads. -/
def machine (cfg : Config S T) : Machine (System S T) (Action S T) Fault where
  start := .init
  enabled := System.enabled cfg
  step s a := .ok (s.step cfg a)

instance [Fintype T] (cfg : Config S T) (s : System S T) (a : Action S T) :
    Decidable ((machine cfg).enabled s a) :=
  inferInstanceAs (Decidable (s.enabled cfg a))

end

end RxQueueScheduler

end Rx
