/-
# `RxFoundation.ReadWriteLockSpec` — mutual exclusion, and no lost wakeup

`Counts` ties the three counters to the threads: `_reader` is how often the read
lock is held, `_writer` how often the write lock, `_pending` how many threads are
inside `lockWrite`, and a held write lock is held once and alone.  `Sleepers`
says what keeps a sleeping thread asleep: a writer waits for a reader or a
writer, a reader for a writer or a pending one.

Each section moves the counters and one thread together, so both are kept by
every step (`Invariant.step`), and the failing branches of the two `unlock`
methods are never taken.  From `Counts` follows who can hold the lock together;
from both, that a free lock is never waited for by sleepers alone.
-/
import CrashRealm.RxFoundation.ReadWriteLock

namespace Rx

namespace ReadWriteLock

open Census

variable {T : Type} [Fintype T] [DecidableEq T]

/-! ## What the threads add up to -/

namespace System

/-- How often the read lock is held. -/
def reads (s : System T) : Nat := total fun t => (s.thread t).reads

/-- How often the write lock is held. -/
def writes (s : System T) : Nat := total fun t => (s.thread t).writes

/-- How many threads are inside `lockWrite`. -/
def pendings (s : System T) : Nat := total fun t => (s.thread t).pendings

omit [DecidableEq T]

@[simp] theorem reads_notifyAll (s : System T) : s.notifyAll.reads = s.reads :=
  total_congr fun t => (s.thread t).wake_reads

@[simp] theorem writes_notifyAll (s : System T) : s.notifyAll.writes = s.writes :=
  total_congr fun t => (s.thread t).wake_writes

@[simp] theorem pendings_notifyAll (s : System T) : s.notifyAll.pendings = s.pendings :=
  total_congr fun t => (s.thread t).wake_pendings

variable [DecidableEq T]

theorem reads_setThread (s : System T) (t : T) (th : Thread) :
    (s.setThread t th).reads + (s.thread t).reads = s.reads + th.reads :=
  total_update s.thread Thread.reads t th

theorem writes_setThread (s : System T) (t : T) (th : Thread) :
    (s.setThread t th).writes + (s.thread t).writes = s.writes + th.writes :=
  total_update s.thread Thread.writes t th

theorem pendings_setThread (s : System T) (t : T) (th : Thread) :
    (s.setThread t th).pendings + (s.thread t).pendings = s.pendings + th.pendings :=
  total_update s.thread Thread.pendings t th

end System

/-! ## The invariant -/

/-- The counters are what the threads add up to, and a writer is alone. -/
structure Counts (s : System T) : Prop where
  reader : s.lock.reader = s.reads
  writer : s.lock.writer = s.writes
  pending : s.lock.pending = s.pendings
  exclusive : s.writes = 0 ∨ (s.writes = 1 ∧ s.reads = 0)

omit [Fintype T] in
/-- A thread asleep has something to wait for. -/
structure Sleepers (s : System T) : Prop where
  write : ∀ t, (s.thread t).place = .inLockWrite true → 0 < s.lock.reader ∨ 0 < s.lock.writer
  read : ∀ t, (s.thread t).place = .inLockRead true → 0 < s.lock.writer ∨ 0 < s.lock.pending

structure Invariant (s : System T) : Prop where
  counts : Counts s
  sleepers : Sleepers s

/-- A section that moves the counters as it moves one thread. -/
theorem Counts.setThread {s : System T} (h : Counts s) (t : T) (th : Thread) {lock : ReadWriteLock}
    (hr : lock.reader + (s.thread t).reads = s.lock.reader + th.reads)
    (hw : lock.writer + (s.thread t).writes = s.lock.writer + th.writes)
    (hp : lock.pending + (s.thread t).pendings = s.lock.pending + th.pendings)
    (hex : lock.writer = 0 ∨ (lock.writer = 1 ∧ lock.reader = 0)) :
    Counts ({ s with lock }.setThread t th) := by
  obtain ⟨hreader, hwriter, hpending, -⟩ := h
  have h₁ := System.reads_setThread { s with lock } t th
  have h₂ := System.writes_setThread { s with lock } t th
  have h₃ := System.pendings_setThread { s with lock } t th
  simp only [System.reads, System.writes, System.pendings] at *
  refine ⟨?_, ?_, ?_, ?_⟩
  · show lock.reader = _
    simp only [System.reads]
    omega
  · show lock.writer = _
    simp only [System.writes]
    omega
  · show lock.pending = _
    simp only [System.pendings]
    omega
  · simp only [System.reads, System.writes]
    omega

omit [Fintype T] in
/-- A section that takes no sleeper's reason away. -/
theorem Sleepers.setThread {s : System T} (h : Sleepers s) {t : T} {th : Thread}
    {lock : ReadWriteLock}
    (hwrite : 0 < s.lock.reader ∨ 0 < s.lock.writer → 0 < lock.reader ∨ 0 < lock.writer)
    (hread : 0 < s.lock.writer ∨ 0 < s.lock.pending → 0 < lock.writer ∨ 0 < lock.pending)
    (hthWrite : th.place = .inLockWrite true → 0 < lock.reader ∨ 0 < lock.writer)
    (hthRead : th.place = .inLockRead true → 0 < lock.writer ∨ 0 < lock.pending) :
    Sleepers ({ s with lock }.setThread t th) where
  write := by
    intro u hu
    by_cases hut : u = t
    · subst hut
      rw [System.setThread_thread_self] at hu
      exact hthWrite hu
    · rw [System.setThread_thread_of_ne _ hut] at hu
      exact hwrite (h.write u hu)
  read := by
    intro u hu
    by_cases hut : u = t
    · subst hut
      rw [System.setThread_thread_self] at hu
      exact hthRead hu
    · rw [System.setThread_thread_of_ne _ hut] at hu
      exact hread (h.read u hu)

omit [Fintype T] [DecidableEq T] in
/-- After a broadcast nobody sleeps. -/
theorem sleepers_notifyAll (s : System T) : Sleepers s.notifyAll where
  write := by
    intro t ht
    have hno : (s.thread t).wake.asleep = false := Thread.wake_asleep _
    rw [Thread.asleep, show (s.thread t).wake.place = _ from ht] at hno
    cases hno
  read := by
    intro t ht
    have hno : (s.thread t).wake.asleep = false := Thread.wake_asleep _
    rw [Thread.asleep, show (s.thread t).wake.place = _ from ht] at hno
    cases hno

omit [DecidableEq T] in
theorem Counts.notifyAll {s : System T} (h : Counts s) : Counts s.notifyAll where
  reader := by rw [System.reads_notifyAll]; exact h.reader
  writer := by rw [System.writes_notifyAll]; exact h.writer
  pending := by rw [System.pendings_notifyAll]; exact h.pending
  exclusive := by rw [System.reads_notifyAll, System.writes_notifyAll]; exact h.exclusive

omit [DecidableEq T] in
theorem Counts.exclusive' {s : System T} (h : Counts s) :
    s.lock.writer = 0 ∨ (s.lock.writer = 1 ∧ s.lock.reader = 0) := by
  rw [h.writer, h.reader]
  exact_mod_cast h.exclusive

omit [DecidableEq T] in
theorem Counts.nonneg {s : System T} (h : Counts s) :
    0 ≤ s.lock.reader ∧ 0 ≤ s.lock.writer ∧ 0 ≤ s.lock.pending := by
  rw [h.reader, h.writer, h.pending]
  exact ⟨Int.natCast_nonneg _, Int.natCast_nonneg _, Int.natCast_nonneg _⟩

/-! ## Sections keep it -/

namespace Invariant

variable {s : System T}

omit [DecidableEq T] in
theorem start : Invariant (System.init : System T) where
  counts := by
    refine ⟨?_, ?_, ?_, Or.inl ?_⟩
    · exact (Int.natCast_eq_zero.mpr (total_eq_zero.mpr fun _ => rfl)).symm
    · exact (Int.natCast_eq_zero.mpr (total_eq_zero.mpr fun _ => rfl)).symm
    · exact (Int.natCast_eq_zero.mpr (total_eq_zero.mpr fun _ => rfl)).symm
    · exact total_eq_zero.mpr fun _ => rfl
  sleepers := ⟨fun _ ht => (by cases ht), fun _ ht => (by cases ht)⟩

theorem afterLockRead (h : Invariant s) {t : T} (ht : (s.thread t).pendings = 0) :
    Invariant (s.afterLockRead t s.lock.lockRead) := by
  have hex := h.counts.exclusive'
  have hnn := h.counts.nonneg
  rw [ReadWriteLock.lockRead]
  split
  next hwait =>
    simp only [readMustWait, gt_iff_lt, Bool.or_eq_true, decide_eq_true_eq] at hwait
    refine ⟨h.counts.setThread t _ rfl rfl ?_ hex,
      h.sleepers.setThread id id nofun fun _ => hwait⟩
    show s.lock.pending + _ = s.lock.pending + ((0 : Nat) : Int)
    rw [ht]
  next hgo =>
    simp only [readMustWait, gt_iff_lt, Bool.or_eq_true, decide_eq_true_eq, not_or] at hgo
    refine ⟨h.counts.setThread t _ ?_ rfl ?_ ?_, h.sleepers.setThread ?_ id nofun nofun⟩
    · show s.lock.reader + 1 + _ = s.lock.reader + (((s.thread t).reads + 1 : Nat) : Int)
      omega
    · show s.lock.pending + _ = s.lock.pending + ((0 : Nat) : Int)
      rw [ht]
    · exact Or.inl (by show s.lock.writer = 0; omega)
    · exact fun _ => Or.inl (by show 0 < s.lock.reader + 1; omega)

/-- `lock` is the lock on entry to the `while` of `lockWrite`. -/
theorem afterLockWrite (h : Invariant s) {t : T} {lock : ReadWriteLock}
    (hr : lock.reader = s.lock.reader) (hw : lock.writer = s.lock.writer)
    (hp : lock.pending + (s.thread t).pendings = s.lock.pending + 1)
    (ht : (s.thread t).pendings ≤ 1) :
    Invariant (s.afterLockWrite t lock.lockWriteLoop) := by
  have hex := h.counts.exclusive'
  have hnn := h.counts.nonneg
  rw [lockWriteLoop]
  split
  next hwait =>
    simp only [writeMustWait, gt_iff_lt, Bool.or_eq_true, decide_eq_true_eq] at hwait
    refine ⟨h.counts.setThread t _ ?_ ?_ hp (by rw [hr, hw]; exact hex),
      h.sleepers.setThread ?_ ?_ (fun _ => hwait.symm) nofun⟩
    · rw [hr]
    · rw [hw]
    · rw [hr, hw]
      exact id
    · omega
  next hgo =>
    simp only [writeMustWait, gt_iff_lt, Bool.or_eq_true, decide_eq_true_eq, not_or] at hgo
    refine ⟨h.counts.setThread t _ ?_ ?_ ?_ ?_, h.sleepers.setThread ?_ ?_ nofun nofun⟩
    · show lock.reader + _ = s.lock.reader + ((s.thread t).reads : Int)
      rw [hr]
    · show lock.writer + 1 + _ = s.lock.writer + (((s.thread t).writes + 1 : Nat) : Int)
      omega
    · show lock.pending - 1 + _ = s.lock.pending + ((0 : Nat) : Int)
      omega
    · exact Or.inr ⟨by show lock.writer + 1 = 1; omega, by show lock.reader = 0; omega⟩
    · exact fun _ => Or.inr (by show 0 < lock.writer + 1; omega)
    · exact fun _ => Or.inl (by show 0 < lock.writer + 1; omega)

/-- The assertion of `unlockRead` holds for a thread that holds the read lock. -/
theorem unlockRead (h : Invariant s) {t : T} (ht : 0 < (s.thread t).reads) :
    ∃ s', s.step (.unlockRead t) = .ok s' ∧ Invariant s' := by
  have hex := h.counts.exclusive'
  have hle : (s.thread t).reads ≤ s.reads := le_total (fun t => (s.thread t).reads) t
  have hpos : 0 < s.lock.reader := by
    rw [h.counts.reader]
    omega
  have hcounts : Counts ({ s with lock := { s.lock with reader := s.lock.reader - 1 } }.setThread t
      { s.thread t with reads := (s.thread t).reads - 1 }) := by
    refine h.counts.setThread t _ ?_ rfl rfl ?_
    · show s.lock.reader - 1 + _ = s.lock.reader + (((s.thread t).reads - 1 : Nat) : Int)
      omega
    · exact Or.inl (by show s.lock.writer = 0; omega)
  by_cases hlast : s.lock.reader - 1 = 0
  · refine ⟨_, ?_, hcounts.notifyAll, sleepers_notifyAll _⟩
    simp only [System.step, ReadWriteLock.unlockRead, if_pos hpos, ok_bind, beq_iff_eq,
      if_pos hlast]
  · refine ⟨_, ?_, hcounts, h.sleepers.setThread ?_ id ?_ ?_⟩
    · simp only [System.step, ReadWriteLock.unlockRead, if_pos hpos, ok_bind, beq_iff_eq,
        if_neg hlast]
    · exact fun _ => Or.inl (by show 0 < s.lock.reader - 1; omega)
    · exact fun _ => Or.inl (by show 0 < s.lock.reader - 1; omega)
    · exact fun hplace => h.sleepers.read t hplace

/-- The assertion of `unlockWrite` holds for the thread that holds the write lock. -/
theorem unlockWrite (h : Invariant s) {t : T} (ht : 0 < (s.thread t).writes) :
    ∃ s', s.step (.unlockWrite t) = .ok s' ∧ Invariant s' := by
  have hex := h.counts.exclusive'
  have hle : (s.thread t).writes ≤ s.writes := le_total (fun t => (s.thread t).writes) t
  have hpos : 0 < s.lock.writer := by
    rw [h.counts.writer]
    omega
  have hcounts : Counts ({ s with lock := { s.lock with writer := s.lock.writer - 1 } }.setThread t
      { s.thread t with writes := (s.thread t).writes - 1 }) := by
    refine h.counts.setThread t _ rfl ?_ rfl ?_
    · show s.lock.writer - 1 + _ = s.lock.writer + (((s.thread t).writes - 1 : Nat) : Int)
      omega
    · exact Or.inl (by show s.lock.writer - 1 = 0; omega)
  refine ⟨_, ?_, hcounts.notifyAll, sleepers_notifyAll _⟩
  simp only [System.step, ReadWriteLock.unlockWrite, if_pos hpos, ok_bind]

theorem tryLockRead (h : Invariant s) (t : T) :
    ∃ s', s.step (.tryLockRead t) = .ok s' ∧ Invariant s' := by
  have hex := h.counts.exclusive'
  have hnn := h.counts.nonneg
  by_cases hwait : s.lock.readMustWait = true
  · have htry : s.lock.tryLockRead = (s.lock, false) := if_pos hwait
    simp only [System.step, htry]
    exact ⟨_, rfl, h.counts.setThread t _ rfl rfl rfl hex,
      h.sleepers.setThread id id (h.sleepers.write t) (h.sleepers.read t)⟩
  · have htry : s.lock.tryLockRead = ({ s.lock with reader := s.lock.reader + 1 }, true) :=
      if_neg hwait
    simp only [readMustWait, gt_iff_lt, Bool.or_eq_true, decide_eq_true_eq, not_or] at hwait
    have hpos : 0 < s.lock.reader + 1 := by omega
    simp only [System.step, htry]
    refine ⟨_, rfl, h.counts.setThread t _ ?_ rfl rfl ?_, h.sleepers.setThread
      (fun _ => Or.inl hpos) id (fun _ => Or.inl hpos) (h.sleepers.read t)⟩
    · show s.lock.reader + 1 + _ = s.lock.reader + (((s.thread t).reads + 1 : Nat) : Int)
      omega
    · exact Or.inl (by show s.lock.writer = 0; omega)

theorem tryLockWrite (h : Invariant s) (t : T) :
    ∃ s', s.step (.tryLockWrite t) = .ok s' ∧ Invariant s' := by
  have hex := h.counts.exclusive'
  have hnn := h.counts.nonneg
  by_cases hwait : s.lock.writeMustWait = true
  · have htry : s.lock.tryLockWrite = (s.lock, false) := if_pos hwait
    simp only [System.step, htry]
    exact ⟨_, rfl, h.counts.setThread t _ rfl rfl rfl hex,
      h.sleepers.setThread id id (h.sleepers.write t) (h.sleepers.read t)⟩
  · have htry : s.lock.tryLockWrite = ({ s.lock with writer := s.lock.writer + 1 }, true) :=
      if_neg hwait
    simp only [writeMustWait, gt_iff_lt, Bool.or_eq_true, decide_eq_true_eq, not_or] at hwait
    have hpos : 0 < s.lock.writer + 1 := by omega
    simp only [System.step, htry]
    refine ⟨_, rfl, h.counts.setThread t _ rfl ?_ rfl ?_, h.sleepers.setThread
      (fun _ => Or.inr hpos) (fun _ => Or.inl hpos) (fun _ => Or.inr hpos) (fun _ => Or.inl hpos)⟩
    · show s.lock.writer + 1 + _ = s.lock.writer + (((s.thread t).writes + 1 : Nat) : Int)
      omega
    · exact Or.inr ⟨by show s.lock.writer + 1 = 1; omega, by show s.lock.reader = 0; omega⟩

theorem wakeup (h : Invariant s) (t : T) : Invariant (s.setThread t (s.thread t).wake) := by
  have hno : (s.thread t).wake.asleep = false := Thread.wake_asleep _
  simp only [Thread.asleep, Bool.or_eq_false_iff, decide_eq_false_iff_not] at hno
  have hcounts : Counts ({ s with lock := s.lock }.setThread t (s.thread t).wake) :=
    h.counts.setThread t _ (by simp) (by simp) (by simp) h.counts.exclusive'
  have hsleepers : Sleepers ({ s with lock := s.lock }.setThread t (s.thread t).wake) :=
    h.sleepers.setThread id id (fun hw => absurd hw hno.2) (fun hr => absurd hr hno.1)
  exact ⟨hcounts, hsleepers⟩

/-- One step of any thread. -/
theorem step (h : Invariant s) (a : Action T) (hen : s.enabled a) :
    ∃ s', s.step a = .ok s' ∧ Invariant s' := by
  cases a with
  | lockRead t =>
      exact ⟨_, rfl, h.afterLockRead (by rw [Thread.pendings, show _ = Place.outside from hen])⟩
  | unlockRead t => exact h.unlockRead hen.2
  | tryLockRead t => exact h.tryLockRead t
  | lockWrite t =>
      have ht : (s.thread t).pendings = 0 := by
        rw [Thread.pendings, show _ = Place.outside from hen]
      refine ⟨_, rfl, h.afterLockWrite rfl rfl ?_ (by omega)⟩
      show s.lock.pending + 1 + _ = _
      rw [ht]
      exact Int.add_zero _
  | unlockWrite t => exact h.unlockWrite hen.2
  | tryLockWrite t => exact h.tryLockWrite t
  | resume t =>
      rcases hen with hplace | hplace
      · simp only [System.step, hplace]
        exact ⟨_, rfl, h.afterLockRead (by rw [Thread.pendings, hplace])⟩
      · have ht : (s.thread t).pendings = 1 := by rw [Thread.pendings, hplace]
        simp only [System.step, hplace]
        refine ⟨_, rfl, h.afterLockWrite rfl rfl ?_ (by omega)⟩
        rw [ht]
        rfl
  | wakeup t => exact ⟨_, rfl, h.wakeup t⟩

theorem reachable (h : (machine T).Reachable s) : Invariant s :=
  h.invariant start fun s a s' hs hen hrun => by
    obtain ⟨s'', hrun', hs'⟩ := hs.step a hen
    cases hrun.symm.trans hrun'
    exact hs'

end Invariant

/-! ## Who can hold the lock together -/

/-- The threads that hold the read lock. -/
def System.readers (s : System T) : Finset T := Finset.univ.filter fun t => 0 < (s.thread t).reads

/-- The threads that hold the write lock. -/
def System.writers (s : System T) : Finset T := Finset.univ.filter fun t => 0 < (s.thread t).writes

/-- The threads inside `lockWrite`. -/
def System.waitingWriters (s : System T) : Finset T :=
  Finset.univ.filter fun t => 0 < (s.thread t).pendings

/-- What the counters of a lock say about its threads. -/
structure Accounted (s : System T) : Prop where
  reader : s.lock.reader = s.reads
  readerOnce : (∀ t, (s.thread t).reads ≤ 1) → s.lock.reader = s.readers.card
  writer : s.lock.writer = s.writers.card
  pending : s.lock.pending = s.waitingWriters.card
  oneWriter : ∀ t ∈ s.writers, ∀ u ∈ s.writers, t = u
  noReader : ∀ t ∈ s.writers, s.readers = ∅

omit [DecidableEq T] in
theorem Counts.accounted [DecidableEq T] {s : System T} (h : Counts s) : Accounted s where
  reader := h.reader
  readerOnce := by
    intro honce
    rw [h.reader, System.reads, total_eq_card honce, System.readers]
  writer := by
    have hle : s.writes ≤ 1 := by have := h.exclusive; omega
    rw [h.writer, System.writes,
      total_eq_card fun t => (le_total (fun t => (s.thread t).writes) t).trans hle, System.writers]
  pending := by
    rw [h.pending, System.pendings, total_eq_card, System.waitingWriters]
    intro t
    rw [Thread.pendings]
    split
    · exact Nat.le_refl 1
    · exact Nat.zero_le 1
  oneWriter := by
    intro t ht u hu
    have hle : s.writes ≤ 1 := by have := h.exclusive; omega
    exact eq_of_total_le_one hle (Finset.mem_filter.mp ht).2 (Finset.mem_filter.mp hu).2
  noReader := by
    intro t ht
    have hpos := (Finset.mem_filter.mp ht).2
    have hle : (s.thread t).writes ≤ s.writes := le_total (fun t => (s.thread t).writes) t
    have hzero : s.reads = 0 := by have := h.exclusive; omega
    refine Finset.filter_eq_empty_iff.mpr fun u _ => ?_
    rw [total_eq_zero.mp hzero u]
    exact lt_irrefl 0

/-- In every reachable state the counters are the holds, and a writer is alone. -/
theorem reachable_accounted {s : System T} (h : (machine T).Reachable s) : Accounted s :=
  (Invariant.reachable h).counts.accounted

/-- A reader leaves, and the writer that waited for it takes over. -/
def handover : List (Action Bool) :=
  [.lockRead false, .lockWrite true, .unlockRead false, .resume true]

theorem reachable_accounted_handover :
    ∃ s : System Bool, (machine Bool).Reachable s ∧ s.lock = ⟨0, 1, 0⟩ ∧ Accounted s := by
  obtain ⟨s, hrun, hlock⟩ : ∃ s, (machine Bool).exec Machine.anyAction .init handover = some s ∧
      s.lock = ⟨0, 1, 0⟩ := ⟨_, rfl, rfl⟩
  have h : (machine Bool).Reachable s := ⟨_, Machine.run_of_exec hrun⟩
  exact ⟨s, h, hlock, reachable_accounted h⟩

/-- A thread that locks for reading twice counts twice. -/
theorem reader_counts_twice :
    ∃ s : System Unit, (machine Unit).Reachable s ∧ s.lock.reader = 2 ∧ s.readers.card = 1 := by
  obtain ⟨s, hrun, hreader, hcard⟩ : ∃ s,
      (machine Unit).exec Machine.anyAction .init [.lockRead (), .lockRead ()] = some s ∧
        s.lock.reader = 2 ∧ s.readers.card = 1 := ⟨_, rfl, rfl, rfl⟩
  exact ⟨s, ⟨_, Machine.run_of_exec hrun⟩, hreader, hcard⟩

/-! ## No lost wakeup -/

/-- Thread `t` is awake inside a waiting method and would not wait again. -/
def System.CanGo (s : System T) (t : T) : Prop :=
  ((s.thread t).place = .inLockRead false ∧ s.lock.readMustWait = false) ∨
    ((s.thread t).place = .inLockWrite false ∧ s.lock.writeMustWait = false)

/-- A sleeper has a reason to sleep; where nobody holds the lock and somebody
wants it, one of those who do can go. -/
theorem no_lost_wakeup {s : System T} (h : (machine T).Reachable s) :
    (∀ t, (s.thread t).place = .inLockWrite true → s.lock.reader > 0 ∨ s.lock.writer > 0) ∧
    (∀ t, (s.thread t).place = .inLockRead true → s.lock.writer > 0 ∨ s.lock.pending > 0) ∧
    ((∀ t, (s.thread t).reads = 0 ∧ (s.thread t).writes = 0) →
      (∃ t, (s.thread t).place ≠ .outside) → ∃ t, s.CanGo t) := by
  obtain ⟨hcounts, hsleepers⟩ := Invariant.reachable h
  refine ⟨hsleepers.write, hsleepers.read, ?_⟩
  rintro hfree ⟨t, ht⟩
  have hreader : s.lock.reader = 0 := by
    rw [hcounts.reader]
    exact Int.natCast_eq_zero.mpr (total_eq_zero.mpr fun t => (hfree t).1)
  have hwriter : s.lock.writer = 0 := by
    rw [hcounts.writer]
    exact Int.natCast_eq_zero.mpr (total_eq_zero.mpr fun t => (hfree t).2)
  -- a thread inside `lockWrite` can go; without one, nothing is pending
  by_cases hsome : ∃ u asleep, (s.thread u).place = .inLockWrite asleep
  · obtain ⟨u, asleep, hu⟩ := hsome
    cases asleep with
    | true =>
        have := hsleepers.write u hu
        omega
    | false => exact ⟨u, Or.inr ⟨hu, by simp [writeMustWait, hreader, hwriter]⟩⟩
  · have hpending : s.lock.pending = 0 := by
      rw [hcounts.pending]
      refine Int.natCast_eq_zero.mpr (total_eq_zero.mpr fun u => ?_)
      rw [Thread.pendings]
      split
      next asleep hu => exact absurd ⟨u, asleep, hu⟩ hsome
      next => rfl
    cases hplace : (s.thread t).place with
    | outside => exact absurd hplace ht
    | inLockWrite asleep => exact absurd ⟨t, asleep, hplace⟩ hsome
    | inLockRead asleep =>
        cases asleep with
        | true =>
            have := hsleepers.read t hplace
            omega
        | false => exact ⟨t, Or.inl ⟨hplace, by simp [readMustWait, hwriter, hpending]⟩⟩

/-- A writer waits behind a writer, and a reader behind both. -/
def queue : List (Action (Fin 3)) :=
  [.lockWrite 0, .lockWrite 1, .lockRead 2, .unlockWrite 0]

theorem no_lost_wakeup_queue :
    ∃ s : System (Fin 3), (machine (Fin 3)).Reachable s ∧ ∃ t, s.CanGo t := by
  obtain ⟨s, hrun, hfree, hsome⟩ : ∃ s,
      (machine (Fin 3)).exec Machine.anyAction .init queue = some s ∧
        (∀ t, (s.thread t).reads = 0 ∧ (s.thread t).writes = 0) ∧
        ∃ t, (s.thread t).place ≠ .outside := ⟨_, rfl, by decide, by decide⟩
  have h : (machine (Fin 3)).Reachable s := ⟨_, Machine.run_of_exec hrun⟩
  exact ⟨s, h, (no_lost_wakeup h).2.2 hfree hsome⟩

end ReadWriteLock

end Rx
