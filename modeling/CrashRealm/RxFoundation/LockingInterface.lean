/-
# `RxFoundation.LockingInterface` — `SpinLock`, `MutexLock`, and who is inside

Both implementations of `LockingInterface` turn the answer of a primitive into a
`bool`: `test_and_set` answers with the flag's old value, `pthread_mutex_trylock`
with `0` for success.  `lock` keeps trying until it succeeds; it is modelled turn
by turn, so that other threads come in between.

A thread is inside once for each `lock` that returned and each `tryLock` that
returned `true`, until it calls `unlock`.  The mutex keeps two threads from being
inside together, whatever they call (`MutexLock.excludes`).  The spin lock does as
long as nobody calls its `tryLock` (`SpinLock.exclusive`), whose answer is the
wrong way round: `true` if the lock was held before.
-/
import CrashRealm.Lib.Machine
import CrashRealm.RxFoundation.Fault
import Mathlib.Logic.Function.Basic

namespace Rx

/-- A lock: what it keeps and what its methods do when thread `t` calls them. -/
structure LockingInterface (T : Type) where
  Impl : Type
  init : Impl
  /-- one turn of `lock`, which returns if the answer is `true` -/
  lock : Impl → T → Impl × Bool
  tryLock : Impl → T → Impl × Bool
  unlock : Impl → T → Impl

/-! ## `SpinLock` -/

/-- `std::atomic_flag::test_and_set`: the flag is set, the old value returned. -/
def testAndSet (flag : Bool) : Bool × Bool := (true, flag)

/-- `SpinLock`, over the flag `locked`. -/
def SpinLock (T : Type) : LockingInterface T where
  Impl := Bool
  init := false
  lock locked _ := ((testAndSet locked).1, !(testAndSet locked).2)
  tryLock locked _ := testAndSet locked
  unlock _ _ := false

/-! ## `MutexLock` -/

/-- A recursive `pthread_mutex_t`: its owner, and the locks nested in the first. -/
abbrev PthreadMutex (T : Type) := Option (T × Nat)

namespace PthreadMutex

variable {T : Type} [DecidableEq T]

def EBUSY : Int := 16

/-- `pthread_mutex_trylock`. -/
def trylock (mutex : PthreadMutex T) (t : T) : PthreadMutex T × Int :=
  match mutex with
  | none => (some (t, 0), 0)
  | some (owner, nested) =>
      if owner = t then (some (owner, nested + 1), 0) else (some (owner, nested), EBUSY)

/-- `pthread_mutex_unlock`; who is not the owner is refused. -/
def unlock (mutex : PthreadMutex T) (t : T) : PthreadMutex T :=
  match mutex with
  | none => none
  | some (owner, nested) =>
      if owner = t then
        match nested with
        | 0 => none
        | nested + 1 => some (owner, nested)
      else some (owner, nested)

theorem unlock_owner (t : T) (nested : Nat) :
    unlock (some (t, nested)) t = match nested with
      | 0 => none
      | nested + 1 => some (t, nested) :=
  if_pos rfl

end PthreadMutex

/-- `MutexLock`.  `pthread_mutex_lock` returns once it has the mutex. -/
def MutexLock (T : Type) [DecidableEq T] : LockingInterface T where
  Impl := PthreadMutex T
  init := none
  lock impl t := ((impl.trylock t).1, (impl.trylock t).2 == 0)
  tryLock impl t := ((impl.trylock t).1, 0 == (impl.trylock t).2)
  unlock impl t := impl.unlock t

/-! ## Threads -/

namespace LockingInterface

variable {T : Type} [DecidableEq T] (L : LockingInterface T)

/-- The lock, how often each thread is inside, and who is in a call of `lock`. -/
structure System where
  impl : L.Impl
  inside : T → Nat
  waiting : T → Bool

inductive Action (T : Type) where
  /-- call `lock` -/
  | lock (t : T)
  /-- one turn of the `lock` the thread is in -/
  | turn (t : T)
  | tryLock (t : T)
  | unlock (t : T)
  deriving DecidableEq, Repr

namespace System

variable {L}

def init : L.System := ⟨L.init, fun _ => 0, fun _ => false⟩

/-- Who is inside after thread `t` was let in, or was not. -/
def enter (s : L.System) (t : T) (got : Bool) : T → Nat :=
  if got then Function.update s.inside t (s.inside t + 1) else s.inside

/-- A thread calls when it is not waiting, and unlocks what it is inside of. -/
def enabled (s : L.System) : Action T → Prop
  | .lock t | .tryLock t => s.waiting t = false
  | .turn t => s.waiting t = true
  | .unlock t => s.waiting t = false ∧ 0 < s.inside t

instance (s : L.System) : DecidablePred s.enabled
  | .lock t | .tryLock t => inferInstanceAs (Decidable (s.waiting t = false))
  | .turn t => inferInstanceAs (Decidable (s.waiting t = true))
  | .unlock t => inferInstanceAs (Decidable (s.waiting t = false ∧ 0 < s.inside t))

def step (s : L.System) : Action T → L.System
  | .lock t => { s with waiting := Function.update s.waiting t true }
  | .turn t =>
      let (impl, got) := L.lock s.impl t
      { impl, inside := s.enter t got, waiting := Function.update s.waiting t !got }
  | .tryLock t =>
      let (impl, got) := L.tryLock s.impl t
      { s with impl, inside := s.enter t got }
  | .unlock t =>
      { s with impl := L.unlock s.impl t, inside := Function.update s.inside t (s.inside t - 1) }

/-- No two threads are inside. -/
def Exclusive (s : L.System) : Prop := ∀ t u, 0 < s.inside t → 0 < s.inside u → t = u

/-- If `tryLock` turns `t` away, another thread is inside. -/
def Honest (s : L.System) (t : T) : Prop :=
  (L.tryLock s.impl t).2 = false → ∃ u, u ≠ t ∧ 0 < s.inside u

end System

/-- Any number of threads on one lock. -/
def machine : Machine L.System (Action T) Fault where
  start := .init
  enabled := System.enabled
  step s a := .ok (s.step a)

instance (s : L.System) (a : Action T) : Decidable (L.machine.enabled s a) :=
  inferInstanceAs (Decidable (s.enabled a))

/-- The steps that are not a call of `tryLock`. -/
def noTryLock (_ : L.System) : Action T → Prop
  | .tryLock _ => False
  | _ => True

instance (s : L.System) : DecidablePred (L.noTryLock s)
  | .tryLock _ => inferInstanceAs (Decidable False)
  | .lock _ | .turn _ | .unlock _ => inferInstanceAs (Decidable True)

end LockingInterface

open LockingInterface

variable {T : Type} [DecidableEq T]

/-! ## The owner is the one inside -/

/-- `n` locks are held, all by `t`. -/
def OnlyInside (inside : T → Nat) (t : T) (n : Nat) : Prop :=
  inside t = n ∧ ∀ u, u ≠ t → inside u = 0

namespace OnlyInside

variable {inside : T → Nat} {t u : T} {n : Nat}

omit [DecidableEq T] in
theorem count_eq (h : OnlyInside inside t n) : inside t = n := h.1

theorem eq_of_pos (h : OnlyInside inside t n) (hu : 0 < inside u) : u = t := by
  by_contra hne
  exact absurd (h.2 u hne) (Nat.ne_of_gt hu)

theorem update (h : OnlyInside inside t n) (m : Nat) :
    OnlyInside (Function.update inside t m) t m := by
  refine ⟨Function.update_self .., fun u hu => ?_⟩
  rw [Function.update_of_ne hu]
  exact h.2 u hu

omit [DecidableEq T] in
/-- Nobody is inside, so anybody may be the one. -/
theorem of_none (h : ∀ u, inside u = 0) (t : T) : OnlyInside inside t 0 :=
  ⟨h t, fun u _ => h u⟩

theorem eq_zero (h : OnlyInside inside t 0) (u : T) : inside u = 0 := by
  by_cases hu : u = t
  · exact hu ▸ h.1
  · exact h.2 u hu

end OnlyInside

/-! ## `MutexLock` -/

namespace MutexLock

/-- The mutex is owned by the thread inside, and nested as often. -/
def Owned (mutex : PthreadMutex T) (inside : T → Nat) : Prop :=
  match mutex with
  | none => ∀ t, inside t = 0
  | some (owner, nested) => OnlyInside inside owner (nested + 1)

variable {mutex : PthreadMutex T} {inside : T → Nat}

theorem Owned.eq_of_pos (h : Owned mutex inside) {t u : T} (ht : 0 < inside t)
    (hu : 0 < inside u) : t = u := by
  match mutex, h with
  | none, h => exact absurd (h t) (Nat.ne_of_gt ht)
  | some _, h => exact (OnlyInside.eq_of_pos h ht).trans (OnlyInside.eq_of_pos h hu).symm

/-- The owner, and who finds the mutex free, get in. -/
theorem Owned.trylock_zero (h : Owned mutex inside) {t : T} (hzero : (mutex.trylock t).2 = 0) :
    Owned (mutex.trylock t).1 (Function.update inside t (inside t + 1)) := by
  match mutex, h with
  | none, h =>
      show OnlyInside (Function.update inside t (inside t + 1)) t (0 + 1)
      rw [h t]
      exact (OnlyInside.of_none h t).update 1
  | some (owner, nested), h =>
      by_cases heq : owner = t
      · subst heq
        rw [PthreadMutex.trylock, if_pos rfl]
        show OnlyInside (Function.update inside owner (inside owner + 1)) owner (nested + 1 + 1)
        rw [OnlyInside.count_eq h]
        exact OnlyInside.update h _
      · rw [PthreadMutex.trylock, if_neg heq] at hzero
        cases (hzero : PthreadMutex.EBUSY = 0)

/-- Anybody else is turned away, by the owner inside. -/
theorem Owned.trylock_ne_zero (h : Owned mutex inside) {t : T} (hne : (mutex.trylock t).2 ≠ 0) :
    (mutex.trylock t).1 = mutex ∧ ∃ u, u ≠ t ∧ 0 < inside u := by
  match mutex, h with
  | none, _ => exact absurd rfl hne
  | some (owner, nested), h =>
      by_cases heq : owner = t
      · rw [PthreadMutex.trylock, if_pos heq] at hne
        exact absurd rfl hne
      · rw [PthreadMutex.trylock, if_neg heq]
        exact ⟨rfl, owner, heq, (OnlyInside.count_eq h).symm ▸ Nat.succ_pos _⟩

/-- Only the owner unlocks. -/
theorem Owned.unlock (h : Owned mutex inside) {t : T} (ht : 0 < inside t) :
    Owned (mutex.unlock t) (Function.update inside t (inside t - 1)) := by
  match mutex, h with
  | none, h => exact absurd (h t) (Nat.ne_of_gt ht)
  | some (owner, nested), h =>
      obtain rfl : t = owner := OnlyInside.eq_of_pos h ht
      rw [PthreadMutex.unlock_owner, OnlyInside.count_eq h]
      cases nested with
      | zero => exact fun u => (OnlyInside.update h 0).eq_zero u
      | succ nested => exact OnlyInside.update h (nested + 1)

/-- A turn of `lock` and a `tryLock` alike. -/
theorem Owned.enter {s : (MutexLock T).System} (h : Owned s.impl s.inside) (t : T) :
    Owned (PthreadMutex.trylock s.impl t).1
      (s.enter t ((PthreadMutex.trylock s.impl t).2 == 0)) := by
  by_cases hzero : (PthreadMutex.trylock s.impl t).2 = 0
  · rw [System.enter, if_pos (beq_iff_eq.mpr hzero)]
    exact h.trylock_zero hzero
  · rw [System.enter, if_neg (mt beq_iff_eq.mp hzero), (h.trylock_ne_zero hzero).1]
    exact h

theorem Owned.step {s : (MutexLock T).System} (h : Owned s.impl s.inside) {a : Action T}
    (hen : s.enabled a) : Owned (s.step a).impl (s.step a).inside := by
  cases a with
  | lock t => exact h
  | turn t => exact h.enter t
  | tryLock t =>
      show Owned (PthreadMutex.trylock s.impl t).1
        (s.enter t (0 == (PthreadMutex.trylock s.impl t).2))
      rw [Bool.beq_comm]
      exact h.enter t
  | unlock t => exact h.unlock hen.2

theorem owned {s : (MutexLock T).System} (h : (MutexLock T).machine.Reachable s) :
    Owned s.impl s.inside := by
  have hstart : Owned (none : PthreadMutex T) fun _ => 0 := fun _ => rfl
  refine h.invariant (I := fun s => Owned s.impl s.inside) hstart fun s a s' hs hen hstep => ?_
  cases hstep
  exact hs.step hen

/-- Any calls, in any order: one thread inside, and an honest `tryLock`. -/
theorem excludes {s : (MutexLock T).System} (h : (MutexLock T).machine.Reachable s) :
    s.Exclusive ∧ ∀ t, s.Honest t := by
  refine ⟨fun t u => (owned h).eq_of_pos, fun t hfalse => ?_⟩
  refine ((owned h).trylock_ne_zero fun hzero => ?_).2
  have hbeq : (0 == (PthreadMutex.trylock s.impl t).2) = false := hfalse
  rw [hzero] at hbeq
  exact absurd hbeq (by decide)

end MutexLock

/-! ## `SpinLock` -/

namespace SpinLock

/-- The flag is set exactly while one thread is inside, once. -/
def Flagged (locked : Bool) (inside : T → Nat) : Prop :=
  match locked with
  | false => ∀ t, inside t = 0
  | true => ∃ t, OnlyInside inside t 1

variable {locked : Bool} {inside : T → Nat}

theorem Flagged.eq_of_pos (h : Flagged locked inside) {t u : T} (ht : 0 < inside t)
    (hu : 0 < inside u) : t = u := by
  match locked, h with
  | false, h => exact absurd (h t) (Nat.ne_of_gt ht)
  | true, ⟨_, h⟩ => exact (h.eq_of_pos ht).trans (h.eq_of_pos hu).symm

/-- A turn of `lock` gets in where the flag was clear. -/
theorem Flagged.turn {s : (SpinLock T).System} (h : Flagged s.impl s.inside) (t : T) :
    Flagged (testAndSet s.impl).1 (s.enter t !(testAndSet s.impl).2) := by
  show ∃ u, OnlyInside (s.enter t !(testAndSet s.impl).2) u 1
  generalize (s.impl : Bool) = locked at h
  match locked, h with
  | false, h =>
      refine ⟨t, ?_⟩
      rw [System.enter, if_pos (by rfl), h t]
      exact (OnlyInside.of_none h t).update 1
  | true, h =>
      rw [System.enter, if_neg (by decide)]
      exact h

theorem Flagged.unlock (h : Flagged locked inside) {t : T} (ht : 0 < inside t) :
    Flagged false (Function.update inside t (inside t - 1)) := by
  match locked, h with
  | false, h => exact absurd (h t) (Nat.ne_of_gt ht)
  | true, ⟨owner, h⟩ =>
      obtain rfl : t = owner := h.eq_of_pos ht
      rw [h.count_eq]
      exact fun u => (h.update 0).eq_zero u

theorem Flagged.step {s : (SpinLock T).System} (h : Flagged s.impl s.inside) {a : Action T}
    (hen : s.enabled a) (hgood : noTryLock _ s a) :
    Flagged (s.step a).impl (s.step a).inside := by
  cases a with
  | lock t => exact h
  | turn t => exact h.turn t
  | tryLock t => exact hgood.elim
  | unlock t => exact h.unlock hen.2

theorem flagged {as : List (Action T)} {s : (SpinLock T).System}
    (h : (SpinLock T).machine.Run (noTryLock _) as s) : Flagged s.impl s.inside := by
  have hstart : Flagged false fun _ : T => 0 := fun _ => rfl
  refine h.invariant (I := fun s => Flagged s.impl s.inside) hstart
    fun s a s' hs hen hgood hstep => ?_
  cases hstep
  exact hs.step hen hgood

/-- Where one `lock` excludes the others, the first `tryLock` of a thread that is
not inside is wrong: on a free lock it turns the thread away, on a held one it
lets a second thread in. -/
theorem Flagged.tryLock_breaks {s : (SpinLock T).System} (h : Flagged s.impl s.inside) {t : T}
    (ht : s.inside t = 0) : ¬ s.Honest t ∨ ¬ (s.step (.tryLock t)).Exclusive := by
  have hinside : (s.step (.tryLock t)).inside = s.enter t (testAndSet s.impl).2 := rfl
  have hhonest : s.Honest t = ((testAndSet s.impl).2 = false → ∃ u, u ≠ t ∧ 0 < s.inside u) := rfl
  rw [System.Exclusive, hinside, hhonest]
  generalize (s.impl : Bool) = locked at h
  match locked, h with
  | false, h =>
      left
      intro hfalse
      obtain ⟨u, -, hu⟩ := hfalse rfl
      exact absurd (h u) (Nat.ne_of_gt hu)
  | true, ⟨owner, h⟩ =>
      right
      intro hexcl
      have hne : t ≠ owner := by
        rintro rfl
        exact absurd (ht.symm.trans h.count_eq) Nat.zero_ne_one
      refine hne (hexcl t owner ?_ ?_)
      · rw [System.enter, if_pos (by rfl), Function.update_self]
        exact Nat.succ_pos _
      · rw [System.enter, if_pos (by rfl), Function.update_of_ne (Ne.symm hne), h.count_eq]
        exact Nat.one_pos

end SpinLock

/-- Both locks: the mutex excludes in every run; the spin lock does in every run
in which its `tryLock` is not called, and no longer once a thread outside calls it. -/
theorem locks_exclude :
    (∀ s : (MutexLock T).System, (MutexLock T).machine.Reachable s →
      s.Exclusive ∧ ∀ t, s.Honest t) ∧
    ∀ (as : List (Action T)) (s : (SpinLock T).System),
      (SpinLock T).machine.Run (noTryLock _) as s →
        s.Exclusive ∧
          ∀ t, s.inside t = 0 → ¬ s.Honest t ∨ ¬ (s.step (.tryLock t)).Exclusive := by
  refine ⟨fun s h => MutexLock.excludes h, fun as s h => ?_⟩
  have hs := SpinLock.flagged h
  exact ⟨fun t u => hs.eq_of_pos, fun t ht => hs.tryLock_breaks ht⟩

theorem locks_exclude_lock :
    ∃ s : (SpinLock Nat).System, s.inside 0 = 1 ∧ s.Exclusive :=
  ⟨_, rfl, ((locks_exclude (T := Nat)).2 [.lock 0, .turn 0] _ (Machine.run_of_exec rfl)).1⟩

/-- A held spin lock lets a second thread in, and a free one turns a thread away. -/
theorem spinLock_tryLock_broken :
    (∃ s : (SpinLock Nat).System, (SpinLock Nat).machine.Reachable s ∧ ¬ s.Exclusive) ∧
      ∃ s : (SpinLock Nat).System, (SpinLock Nat).machine.Reachable s ∧ ¬ s.Honest 0 := by
  constructor
  · refine ⟨_, ⟨[.lock 0, .turn 0, .tryLock 1], Machine.run_of_exec rfl⟩, fun hexcl => ?_⟩
    exact absurd (hexcl 0 1 (by decide) (by decide)) (by decide)
  · refine ⟨.init, ⟨[], .start⟩, fun hhonest => ?_⟩
    obtain ⟨u, -, hu⟩ := hhonest rfl
    exact absurd hu (Nat.not_lt_zero _)

end Rx
