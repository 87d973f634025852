/-
# `RxFoundation.ReadWriteLock` — three counters, a mutex and a condition

Every method of `ReadWriteLock` is one section under `_mutex`, and a wait on
`_condition` splits it: the section before the wait ends with the thread asleep,
and a woken thread goes round its `while` once more.  Sections are functions on
the three counters; `machine` interleaves the sections of any number of threads.

What is kept of a thread is how often it holds the lock either way and which
waiting method it is in, if any.  A thread asleep may also wake for no reason
(`wakeup`), and a broadcast wakes all of them.  The counters are unbounded: no
run in practice has `2^63` holds.
-/
import CrashRealm.Lib.Machine
import CrashRealm.Lib.Census
import CrashRealm.RxFoundation.Fault

namespace Rx

/-- `_reader`, `_writer` and `_pending`. -/
structure ReadWriteLock where
  reader : Int
  writer : Int
  pending : Int
  deriving DecidableEq, Repr

namespace ReadWriteLock

/-! ## Sections -/

/-- How a section of a waiting method ends. -/
inductive Section where
  /-- in `_condition.wait` -/
  | waits (lock : ReadWriteLock)
  | returns (lock : ReadWriteLock)
  deriving DecidableEq, Repr

def init : ReadWriteLock := ⟨0, 0, 0⟩

/-- The condition of the `while` in `lockRead`. -/
def readMustWait (lock : ReadWriteLock) : Bool := lock.writer > 0 || lock.pending > 0

/-- The condition of the `while` in `lockWrite`. -/
def writeMustWait (lock : ReadWriteLock) : Bool := lock.writer > 0 || lock.reader > 0

/-- `lockRead`, from its `while` on. -/
def lockRead (lock : ReadWriteLock) : Section :=
  if lock.readMustWait then .waits lock
  else .returns { lock with reader := lock.reader + 1 }

/-- The counters and whether `notifyAll` is called. -/
def unlockRead (lock : ReadWriteLock) : Except Fault (ReadWriteLock × Bool) :=
  if lock.reader > 0 then
    let lock := { lock with reader := lock.reader - 1 }
    .ok (lock, lock.reader == 0)
  else .error (.assertion "unlockRead when there is no reader!")

def tryLockRead (lock : ReadWriteLock) : ReadWriteLock × Bool :=
  if lock.readMustWait then (lock, false)
  else ({ lock with reader := lock.reader + 1 }, true)

/-- The `while` of `lockWrite` and what follows it. -/
def lockWriteLoop (lock : ReadWriteLock) : Section :=
  if lock.writeMustWait then .waits lock
  else .returns { lock with pending := lock.pending - 1, writer := lock.writer + 1 }

def lockWrite (lock : ReadWriteLock) : Section :=
  lockWriteLoop { lock with pending := lock.pending + 1 }

/-- The counters; `notifyAll` is always called. -/
def unlockWrite (lock : ReadWriteLock) : Except Fault ReadWriteLock :=
  if lock.writer > 0 then .ok { lock with writer := lock.writer - 1 }
  else .error (.assertion "unlock write when there is no writer!")

def tryLockWrite (lock : ReadWriteLock) : ReadWriteLock × Bool :=
  if lock.writeMustWait then (lock, false)
  else ({ lock with writer := lock.writer + 1 }, true)

def isReading (lock : ReadWriteLock) : Bool := lock.reader > 0

def isWriting (lock : ReadWriteLock) : Bool := lock.writer > 0

/-! ## Threads -/

/-- The waiting method a thread is in. -/
inductive Place where
  | outside
  | inLockRead (asleep : Bool)
  | inLockWrite (asleep : Bool)
  deriving DecidableEq, Repr

structure Thread where
  reads : Nat
  writes : Nat
  place : Place
  deriving DecidableEq, Repr

namespace Thread

/-- After a broadcast. -/
def wake (th : Thread) : Thread :=
  match th.place with
  | .outside => th
  | .inLockRead _ => { th with place := .inLockRead false }
  | .inLockWrite _ => { th with place := .inLockWrite false }

/-- One inside `lockWrite`, none elsewhere. -/
def pendings (th : Thread) : Nat :=
  match th.place with
  | .inLockWrite _ => 1
  | _ => 0

def asleep (th : Thread) : Bool :=
  th.place = .inLockRead true || th.place = .inLockWrite true

@[simp] theorem wake_reads (th : Thread) : th.wake.reads = th.reads := by
  rw [wake]; split <;> rfl

@[simp] theorem wake_writes (th : Thread) : th.wake.writes = th.writes := by
  rw [wake]; split <;> rfl

@[simp] theorem wake_pendings (th : Thread) : th.wake.pendings = th.pendings := by
  rw [wake]; split <;> simp [pendings, *]

@[simp] theorem wake_asleep (th : Thread) : th.wake.asleep = false := by
  rw [wake]; split <;> simp [asleep, *]

end Thread

variable {T : Type} [DecidableEq T]

/-- One lock and its threads. -/
structure System (T : Type) where
  lock : ReadWriteLock
  thread : T → Thread

/-- What a thread, or the scheduler on its behalf, does next. -/
inductive Action (T : Type) where
  | lockRead (t : T)
  | unlockRead (t : T)
  | tryLockRead (t : T)
  | lockWrite (t : T)
  | unlockWrite (t : T)
  | tryLockWrite (t : T)
  /-- a woken thread gets the mutex back and goes round its `while` -/
  | resume (t : T)
  /-- a wakeup without a broadcast -/
  | wakeup (t : T)
  deriving DecidableEq, Repr

namespace System

def init : System T := ⟨.init, fun _ => ⟨0, 0, .outside⟩⟩

def setThread (s : System T) (t : T) (th : Thread) : System T :=
  { s with thread := Function.update s.thread t th }

@[simp] theorem setThread_thread_self (s : System T) (t : T) (th : Thread) :
    (s.setThread t th).thread t = th := Function.update_self ..

theorem setThread_thread_of_ne (s : System T) {t u : T} (h : u ≠ t) (th : Thread) :
    (s.setThread t th).thread u = s.thread u := Function.update_of_ne h ..

/-- `_condition.notifyAll()`. -/
def notifyAll (s : System T) : System T := { s with thread := fun t => (s.thread t).wake }

/-- Thread `t` after a section of `lockRead`. -/
def afterLockRead (s : System T) (t : T) : Section → System T
  | .waits lock => { s with lock }.setThread t { s.thread t with place := .inLockRead true }
  | .returns lock => { s with lock }.setThread t
      { s.thread t with place := .outside, reads := (s.thread t).reads + 1 }

/-- Thread `t` after a section of `lockWrite`. -/
def afterLockWrite (s : System T) (t : T) : Section → System T
  | .waits lock => { s with lock }.setThread t { s.thread t with place := .inLockWrite true }
  | .returns lock => { s with lock }.setThread t
      { s.thread t with place := .outside, writes := (s.thread t).writes + 1 }

/-- A thread calls when it is in no method, unlocks what it holds, and goes on
inside a method when it is awake. -/
def enabled (s : System T) : Action T → Prop
  | .lockRead t | .tryLockRead t | .lockWrite t | .tryLockWrite t => (s.thread t).place = .outside
  | .unlockRead t => (s.thread t).place = .outside ∧ 0 < (s.thread t).reads
  | .unlockWrite t => (s.thread t).place = .outside ∧ 0 < (s.thread t).writes
  | .resume t => (s.thread t).place = .inLockRead false ∨ (s.thread t).place = .inLockWrite false
  | .wakeup t => (s.thread t).asleep = true

instance (s : System T) : DecidablePred s.enabled
  | .lockRead t | .tryLockRead t | .lockWrite t | .tryLockWrite t =>
      inferInstanceAs (Decidable ((s.thread t).place = .outside))
  | .unlockRead t =>
      inferInstanceAs (Decidable ((s.thread t).place = .outside ∧ 0 < (s.thread t).reads))
  | .unlockWrite t =>
      inferInstanceAs (Decidable ((s.thread t).place = .outside ∧ 0 < (s.thread t).writes))
  | .resume t => inferInstanceAs (Decidable
      ((s.thread t).place = .inLockRead false ∨ (s.thread t).place = .inLockWrite false))
  | .wakeup t => inferInstanceAs (Decidable ((s.thread t).asleep = true))

def step (s : System T) : Action T → Except Fault (System T)
  | .lockRead t => .ok (s.afterLockRead t s.lock.lockRead)
  | .unlockRead t => do
      let (lock, notifies) ← s.lock.unlockRead
      let s := { s with lock }.setThread t
        { s.thread t with reads := (s.thread t).reads - 1 }
      .ok (if notifies then s.notifyAll else s)
  | .tryLockRead t =>
      let (lock, got) := s.lock.tryLockRead
      .ok ({ s with lock }.setThread t
        { s.thread t with reads := (s.thread t).reads + if got then 1 else 0 })
  | .lockWrite t => .ok (s.afterLockWrite t s.lock.lockWrite)
  | .unlockWrite t => do
      let lock ← s.lock.unlockWrite
      .ok ({ s with lock }.setThread t
        { s.thread t with writes := (s.thread t).writes - 1 }).notifyAll
  | .tryLockWrite t =>
      let (lock, got) := s.lock.tryLockWrite
      .ok ({ s with lock }.setThread t
        { s.thread t with writes := (s.thread t).writes + if got then 1 else 0 })
  | .resume t =>
      match (s.thread t).place with
      | .inLockRead _ => .ok (s.afterLockRead t s.lock.lockRead)
      | .inLockWrite _ => .ok (s.afterLockWrite t s.lock.lockWriteLoop)
      | .outside => .ok s
  | .wakeup t => .ok (s.setThread t (s.thread t).wake)

end System

/-- Any number of threads on one lock. -/
def machine (T : Type) [DecidableEq T] : Machine (System T) (Action T) Fault where
  start := .init
  enabled := System.enabled
  step := System.step

instance (s : System T) (a : Action T) : Decidable ((machine T).enabled s a) :=
  inferInstanceAs (Decidable (s.enabled a))

end ReadWriteLock

end Rx
