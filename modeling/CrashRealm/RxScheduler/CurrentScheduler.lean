/-
# `RxScheduler.CurrentScheduler` — the current-scheduler entry as a dynamic scope

`performAsCurrentScheduler:` saves the thread's entry, sets it to the receiver, runs
the block and puts the saved entry back.  The three kinds of scheduler hand their
blocks to it, in place or from a dispatch block or a timer, with one exception: the
event handler of `after:repeatingEvery:withLeeway:schedule:` of a queue scheduler,
which the main-queue scheduler inherits, is the block itself.

A thread runs a stack of blocks, since a block may submit another in place and may
turn a run loop.  `Scoped` says that the entry is what the top frame set and that
below each frame lies the entry it found.  It holds in every run, so every block
leaves the entry as it was; a block sees its scheduler exactly if it was run by the
helper or found its scheduler current (`current_scheduler_iff`).
-/
import CrashRealm.Lib.Machine
import CrashRealm.RxFoundation.Fault
import Mathlib.Logic.Function.Basic

namespace Rx

namespace RxScheduler

/-! ## Submitting a block -/

/-- What is called back: `performAsCurrentScheduler:` with the block, or the block. -/
inductive Handler where
  | performAsCurrentScheduler
  | block
  deriving DecidableEq, Repr

/-- What becomes of a submitted block. -/
inductive Submission where
  /-- `performAsCurrentScheduler:` at once -/
  | inPlace
  /-- queued, or set as a timer -/
  | deferred (handler : Handler) (repeats : Bool)
  deriving DecidableEq, Repr

inductive Method where
  | schedule
  | after
  | afterRepeating
  deriving DecidableEq, Repr

/-- `RxQueueScheduler`; the test is `RxQueueSchedulerIsCurrentQueue`. -/
def queueSubmit (isCurrentQueue : Bool) : Method → Submission
  | .schedule =>
      if isCurrentQueue then .inPlace else .deferred .performAsCurrentScheduler false
  | .after => .deferred .performAsCurrentScheduler false
  | .afterRepeating => .deferred .block true

/-- `RxMainQueueScheduler`, an `RxQueueScheduler` with a `schedule:` of its own; the
test is `pthread_main_np`. -/
def mainQueueSubmit (pthreadMain : Bool) : Method → Submission
  | .schedule =>
      if pthreadMain then .inPlace else .deferred .performAsCurrentScheduler false
  | .after => queueSubmit pthreadMain .after
  | .afterRepeating => queueSubmit pthreadMain .afterRepeating

/-- `RxRunLoopScheduler`, whose timers invoke `__RxRunLoopSchedulerTimerTask`; the test
is `runOnSameThread`. -/
def runLoopSubmit (runOnSameThread : Bool) : Method → Submission
  | .schedule =>
      if runOnSameThread then .inPlace else .deferred .performAsCurrentScheduler false
  | .after => .deferred .performAsCurrentScheduler false
  | .afterRepeating => .deferred .performAsCurrentScheduler true

/-- The class of a scheduler; a run-loop scheduler with the thread of its run loop. -/
inductive Kind (T : Type) where
  | queue
  | mainQueue
  | runLoop (thread : T)
  deriving DecidableEq, Repr

/-- The schedulers `S` of a program with threads `T`. -/
structure Config (S T : Type) where
  kind : S → Kind T
  mainThread : T
  /-- `+mainScheduler` -/
  mainScheduler : S
  mainScheduler_kind : kind mainScheduler = .mainQueue

variable {S T : Type} [DecidableEq T]

namespace Config

/-- The methods of the class, given how their test comes out. -/
def submit (cfg : Config S T) (scheduler : S) (test : Bool) : Method → Submission :=
  match cfg.kind scheduler with
  | .queue => queueSubmit test
  | .mainQueue => mainQueueSubmit test
  | .runLoop _ => runLoopSubmit test

/-- How the test can come out on thread `t`: on a queue either way, as the queue the
thread is working for has it. -/
def CanTest (cfg : Config S T) (scheduler : S) (t : T) (test : Bool) : Prop :=
  match cfg.kind scheduler with
  | .queue => True
  | .mainQueue => test = decide (t = cfg.mainThread)
  | .runLoop thread => test = decide (t = thread)

/-- The threads that call back for a scheduler. -/
def CanRun (cfg : Config S T) (scheduler : S) (t : T) : Prop :=
  match cfg.kind scheduler with
  | .queue => True
  | .mainQueue => t = cfg.mainThread
  | .runLoop thread => t = thread

instance (cfg : Config S T) (scheduler : S) (t : T) (test : Bool) :
    Decidable (cfg.CanTest scheduler t test) := by
  unfold CanTest
  split <;> infer_instance

instance (cfg : Config S T) (scheduler : S) (t : T) : Decidable (cfg.CanRun scheduler t) := by
  unfold CanRun
  split <;> infer_instance

end Config

/-! ## Threads and the blocks they run -/

/-- What a thread dictionary holds: a scheduler, or a weak proxy of one, as in the
thread a run-loop scheduler creates. -/
inductive Entry (S : Type) where
  | scheduler (scheduler : S)
  | proxy (scheduler : S)
  deriving DecidableEq, Repr

/-- A block that is queued or set as a timer. -/
structure Job (S : Type) where
  scheduler : S
  handler : Handler
  repeats : Bool
  deriving DecidableEq, Repr

/-- A block that is being run: for which scheduler, what the entry was when it
started, and what `performAsCurrentScheduler:` saved if it runs the block. -/
structure Frame (S : Type) where
  scheduler : S
  entryBefore : Option (Entry S)
  previousScheduler : Option (Option (Entry S))
  deriving DecidableEq, Repr

/-- The entry of a thread's dictionary and the blocks it is in, innermost first. -/
structure Thread (S : Type) where
  entry : Option (Entry S)
  stack : List (Frame S)
  deriving DecidableEq, Repr

namespace Thread

/-- A block starts: `performAsCurrentScheduler:` up to the block, or just the block. -/
def begin (th : Thread S) (scheduler : S) : Handler → Thread S
  | .performAsCurrentScheduler =>
      { entry := some (.scheduler scheduler)
        stack := { scheduler, entryBefore := th.entry, previousScheduler := some th.entry } :: th.stack }
  | .block =>
      { th with
        stack := { scheduler, entryBefore := th.entry, previousScheduler := none } :: th.stack }

/-- The innermost block returns, to `performAsCurrentScheduler:` if that runs it. -/
def finish (th : Thread S) : Thread S :=
  match th.stack with
  | [] => th
  | frame :: stack => { entry := frame.previousScheduler.getD th.entry, stack }

end Thread

/-- The threads and the jobs. -/
structure System (S T : Type) where
  thread : T → Thread S
  pending : List (Job S)

inductive Action (S T : Type) where
  /-- thread `t` calls a method of a scheduler whose test comes out so -/
  | submit (t : T) (scheduler : S) (method : Method) (test : Bool)
  /-- thread `t` calls back for the `i`-th pending job -/
  | start (t : T) (i : Nat)
  /-- its token is cancelled, or its scheduler gone -/
  | cancel (i : Nat)
  /-- the innermost block of thread `t` returns -/
  | finish (t : T)
  deriving DecidableEq, Repr

/-- `+currentScheduler` on thread `t`. -/
def Config.currentScheduler (cfg : Config S T) (t : T) (th : Thread S) : Option (Entry S) :=
  match th.entry with
  | some entry => some entry
  | none => if t = cfg.mainThread then some (.scheduler cfg.mainScheduler) else none

namespace System

/-- No block runs yet; a thread may have an entry. -/
def init (entry : T → Option (Entry S)) : System S T := ⟨fun t => ⟨entry t, []⟩, []⟩

def setThread (s : System S T) (t : T) (th : Thread S) : System S T :=
  { s with thread := Function.update s.thread t th }

def submit (s : System S T) (t : T) (scheduler : S) : Submission → System S T
  | .inPlace => s.setThread t ((s.thread t).begin scheduler .performAsCurrentScheduler)
  | .deferred handler repeats =>
      { s with pending := s.pending ++ [{ scheduler, handler, repeats }] }

/-- A timer that repeats stays. -/
def start (s : System S T) (t : T) (i : Nat) : System S T :=
  match s.pending[i]? with
  | none => s
  | some job =>
      { s with pending := if job.repeats then s.pending else s.pending.eraseIdx i }.setThread t
        ((s.thread t).begin job.scheduler job.handler)

def enabled (cfg : Config S T) (s : System S T) : Action S T → Prop
  | .submit t scheduler _ test => cfg.CanTest scheduler t test
  | .start t i => ∃ job ∈ s.pending[i]?, cfg.CanRun job.scheduler t
  | .cancel i => i < s.pending.length
  | .finish t => (s.thread t).stack ≠ []

instance (cfg : Config S T) (s : System S T) : DecidablePred (s.enabled cfg)
  | .submit t scheduler _ test => inferInstanceAs (Decidable (cfg.CanTest scheduler t test))
  | .start t i =>
      inferInstanceAs (Decidable (∃ job ∈ s.pending[i]?, cfg.CanRun job.scheduler t))
  | .cancel i => inferInstanceAs (Decidable (i < s.pending.length))
  | .finish t => match h : (s.thread t).stack with
      | [] => .isFalse fun hne => hne h
      | _ :: _ => .isTrue fun hnil => List.cons_ne_nil _ _ (h.symm.trans hnil)

def step (cfg : Config S T) (s : System S T) : Action S T → System S T
  | .submit t scheduler method test => s.submit t scheduler (cfg.submit scheduler test method)
  | .start t i => s.start t i
  | .cancel i => { s with pending := s.pending.eraseIdx i }
  | .finish t => s.setThread t (s.thread t).finish

end System

/-- The schedulers and any number of threads, with any entries to begin with. -/
def machine (cfg : Config S T) (entry : T → Option (Entry S)) :
    Machine (System S T) (Action S T) Fault where
  start := .init entry
  enabled := System.enabled cfg
  step s a := .ok (s.step cfg a)

instance (cfg : Config S T) (entry : T → Option (Entry S)) (s : System S T) (a : Action S T) :
    Decidable ((machine cfg entry).enabled s a) :=
  inferInstanceAs (Decidable (s.enabled cfg a))

/-- A block that is called back itself starts where its scheduler is current. -/
def foundCurrent (cfg : Config S T) (s : System S T) : Action S T → Prop
  | .start t i => ∀ job, s.pending[i]? = some job → job.handler = .block →
      cfg.currentScheduler t (s.thread t) = some (.scheduler job.scheduler)
  | _ => True

/-! ## The entry is scoped -/

/-- The entry a frame runs its block with. -/
def Frame.inside (frame : Frame S) : Option (Entry S) :=
  match frame.previousScheduler with
  | some _ => some (.scheduler frame.scheduler)
  | none => frame.entryBefore

/-- The entry is that of the top frame, which saved the entry it found, if any, and so
on for the entry it found. -/
def Scoped (entry : Option (Entry S)) : List (Frame S) → Prop
  | [] => True
  | frame :: frames =>
      entry = frame.inside ∧
        (frame.previousScheduler = none ∨ frame.previousScheduler = some frame.entryBefore) ∧
        Scoped frame.entryBefore frames

/-- `+currentScheduler` where the entry is this. -/
def Config.resolve (cfg : Config S T) (t : T) (entry : Option (Entry S)) : Option (Entry S) :=
  cfg.currentScheduler t ⟨entry, []⟩

/-- Every block of a thread finds its scheduler current while it is innermost. -/
def SeesOwn (cfg : Config S T) (t : T) (th : Thread S) : Prop :=
  ∀ frame ∈ th.stack, cfg.resolve t frame.inside = some (.scheduler frame.scheduler)

namespace Thread

variable {th : Thread S}

theorem begin_scoped (h : Scoped th.entry th.stack) (scheduler : S) (handler : Handler) :
    Scoped (th.begin scheduler handler).entry (th.begin scheduler handler).stack := by
  cases handler with
  | performAsCurrentScheduler => exact ⟨rfl, .inr rfl, h⟩
  | block => exact ⟨rfl, .inl rfl, h⟩

/-- A block leaves the entry it found. -/
theorem finish_entry (h : Scoped th.entry th.stack) {frame : Frame S} {frames : List (Frame S)}
    (hstack : th.stack = frame :: frames) :
    th.finish.entry = frame.entryBefore ∧ th.finish.stack = frames := by
  rw [finish, hstack]
  rw [hstack] at h
  obtain ⟨hentry, hprevious, -⟩ := h
  refine ⟨?_, rfl⟩
  show frame.previousScheduler.getD th.entry = frame.entryBefore
  rcases hprevious with hnone | hsome
  · rw [hentry, Frame.inside, hnone]
    rfl
  · rw [hsome]
    rfl

theorem finish_scoped (h : Scoped th.entry th.stack) :
    Scoped th.finish.entry th.finish.stack := by
  cases hstack : th.stack with
  | nil =>
      rw [finish, hstack]
      exact h
  | cons frame frames =>
      obtain ⟨hentry, hframes⟩ := finish_entry h hstack
      rw [hentry, hframes]
      rw [hstack] at h
      exact h.2.2

variable {cfg : Config S T} {t : T}

/-- The innermost block finds current what its frame set or found. -/
theorem currentScheduler_top (h : Scoped th.entry th.stack) {frame : Frame S}
    {frames : List (Frame S)} (hstack : th.stack = frame :: frames) :
    cfg.currentScheduler t th = cfg.resolve t frame.inside := by
  rw [hstack] at h
  rw [← h.1]
  rfl

theorem begin_seesOwn (h : SeesOwn cfg t th) {scheduler : S} {handler : Handler}
    (hblock : handler = .block → cfg.currentScheduler t th = some (.scheduler scheduler)) :
    SeesOwn cfg t (th.begin scheduler handler) := by
  intro frame hmem
  cases handler with
  | performAsCurrentScheduler =>
      rcases List.mem_cons.mp hmem with rfl | hmem
      · rfl
      · exact h frame hmem
  | block =>
      rcases List.mem_cons.mp hmem with rfl | hmem
      · exact hblock rfl
      · exact h frame hmem

theorem finish_seesOwn (h : SeesOwn cfg t th) : SeesOwn cfg t th.finish := by
  cases hstack : th.stack with
  | nil =>
      rw [finish, hstack]
      exact h
  | cons frame frames =>
      rw [finish, hstack]
      intro frame' hmem
      exact h frame' (hstack ▸ List.mem_cons_of_mem _ hmem)

end Thread

/-! ## All threads -/

variable {cfg : Config S T} {entry : T → Option (Entry S)}

/-- Changing one thread keeps what holds of every thread. -/
theorem forall_setThread {P : T → Thread S → Prop} {s : System S T} (h : ∀ u, P u (s.thread u))
    {t : T} {th : Thread S} (ht : P t th) : ∀ u, P u ((s.setThread t th).thread u) := by
  intro u
  show P u (Function.update s.thread t th u)
  by_cases hut : u = t
  · subst hut
    rw [Function.update_self]
    exact ht
  · rw [Function.update_of_ne hut]
    exact h u

/-- A step starts a block, ends one, or leaves the threads alone. -/
theorem step_keeps {P : T → Thread S → Prop} {s : System S T} {a : Action S T}
    (h : ∀ u, P u (s.thread u))
    (hbegin : ∀ t scheduler, P t ((s.thread t).begin scheduler .performAsCurrentScheduler))
    (hstart : ∀ t i job, a = .start t i → s.pending[i]? = some job →
      P t ((s.thread t).begin job.scheduler job.handler))
    (hfinish : ∀ t, P t (s.thread t).finish) : ∀ u, P u ((s.step cfg a).thread u) := by
  cases a with
  | submit t scheduler method test =>
      rw [System.step]
      cases cfg.submit scheduler test method with
      | inPlace => exact forall_setThread h (hbegin t scheduler)
      | deferred handler repeats => exact h
  | start t i =>
      rw [System.step, System.start]
      split
      next => exact h
      next job hjob => exact forall_setThread (s := { s with pending := _ }) h (hstart t i job rfl hjob)
  | cancel i => exact h
  | finish t => exact forall_setThread h (hfinish t)

theorem scoped_of_run {good : System S T → Action S T → Prop} {as : List (Action S T)}
    {s : System S T} (h : (machine cfg entry).Run good as s) :
    ∀ t, Scoped (s.thread t).entry (s.thread t).stack := by
  have hinit : ∀ t, Scoped (entry t) ([] : List (Frame S)) := fun _ => trivial
  refine h.invariant (I := fun s => ∀ t, Scoped (s.thread t).entry (s.thread t).stack) hinit
    fun s a s' hs _ _ hstep => ?_
  cases hstep
  exact step_keeps (P := fun _ th => Scoped th.entry th.stack) hs
    (fun t scheduler => Thread.begin_scoped (hs t) scheduler _)
    (fun t _ job _ _ => Thread.begin_scoped (hs t) job.scheduler job.handler)
    fun t => Thread.finish_scoped (hs t)

theorem seesOwn_of_run {as : List (Action S T)} {s : System S T}
    (h : (machine cfg entry).Run (foundCurrent cfg) as s) : ∀ t, SeesOwn cfg t (s.thread t) := by
  refine h.invariant (I := fun s => ∀ t, SeesOwn cfg t (s.thread t))
    (fun _ _ hmem => absurd hmem List.not_mem_nil) fun s a s' hs _ hgood hstep => ?_
  cases hstep
  refine step_keeps (P := SeesOwn cfg) hs
    (fun t scheduler => Thread.begin_seesOwn (hs t) fun hblock => by cases hblock)
    (fun t i job ha hjob => ?_) fun t => Thread.finish_seesOwn (hs t)
  subst ha
  exact Thread.begin_seesOwn (hs t) fun hblock => hgood job hjob hblock

/-- Where every block called back itself finds its scheduler current, each block runs
with its scheduler current; the first that does not, does not.  Either way a block
leaves the entry it found. -/
theorem current_scheduler_iff (cfg : Config S T) (entry : T → Option (Entry S)) :
    (∀ as s, (machine cfg entry).Run (foundCurrent cfg) as s →
      ∀ t frame frames, (s.thread t).stack = frame :: frames →
        cfg.currentScheduler t (s.thread t) = some (.scheduler frame.scheduler)) ∧
      (∀ s a, s.enabled cfg a → ¬ foundCurrent cfg s a →
        ∃ t frame frames, ((s.step cfg a).thread t).stack = frame :: frames ∧
          cfg.currentScheduler t ((s.step cfg a).thread t) ≠ some (.scheduler frame.scheduler)) ∧
      ∀ s, (machine cfg entry).Reachable s →
        ∀ t frame frames, (s.thread t).stack = frame :: frames →
          (s.thread t).finish.entry = frame.entryBefore := by
  refine ⟨fun as s hrun t frame frames hstack => ?_, fun s a hen hbad => ?_,
    fun s hreach t frame frames hstack => ?_⟩
  · rw [Thread.currentScheduler_top (scoped_of_run hrun t) hstack]
    exact seesOwn_of_run hrun t frame (hstack ▸ List.mem_cons_self)
  · cases a with
    | start t i =>
        obtain ⟨job, hbad⟩ := Classical.not_forall.mp hbad
        obtain ⟨hjob, hbad⟩ := Classical.not_imp.mp hbad
        obtain ⟨hblock, hother⟩ := Classical.not_imp.mp hbad
        have hthread : ((s.step cfg (.start t i)).thread t) =
            (s.thread t).begin job.scheduler .block := by
          rw [System.step, System.start, hjob]
          show Function.update s.thread t _ t = _
          rw [Function.update_self, hblock]
        exact ⟨t, ⟨job.scheduler, (s.thread t).entry, none⟩, (s.thread t).stack,
          by rw [hthread]; rfl, by rw [hthread]; exact hother⟩
    | _ => exact absurd trivial hbad
  · obtain ⟨as, hrun⟩ := hreach
    exact (Thread.finish_entry (scoped_of_run hrun t) hstack).1

/-- Scheduler 0 for the main queue on thread 0, 1 for a queue, 2 for the run loop of thread 2. -/
def threeSchedulers : Config Nat Nat where
  kind := fun
    | 0 => .mainQueue
    | 1 => .queue
    | _ => .runLoop 2
  mainThread := 0
  mainScheduler := 0
  mainScheduler_kind := rfl

theorem current_scheduler_iff_nested :
    ∃ s : System Nat Nat, ∃ outer inner, (s.thread 2).stack = [inner, outer] ∧
      threeSchedulers.currentScheduler 2 (s.thread 2) = some (.scheduler 1) := by
  have hfirst : (machine threeSchedulers fun _ => none).Run (foundCurrent threeSchedulers)
      [.submit 2 2 .schedule true] _ := .step .start rfl trivial rfl
  have hrun : (machine threeSchedulers fun _ => none).Run (foundCurrent threeSchedulers)
      [.submit 2 2 .schedule true, .submit 2 1 .schedule true] _ := .step hfirst trivial trivial rfl
  exact ⟨_, _, _, rfl, (current_scheduler_iff threeSchedulers _).1 _ _ hrun 2 _ _ rfl⟩

/-- The repeating timer of a queue scheduler. -/
theorem repeating_not_current :
    ∃ s : System Nat Nat, (machine threeSchedulers fun _ => none).Reachable s ∧
      ∃ frame frames, (s.thread 3).stack = frame :: frames ∧ frame.scheduler = 1 ∧
        threeSchedulers.currentScheduler 3 (s.thread 3) ≠ some (.scheduler 1) :=
  ⟨_, ⟨[.submit 0 1 .afterRepeating false, .start 3 0], Machine.run_of_exec rfl⟩, _, _, rfl, rfl,
    by decide⟩

end RxScheduler

end Rx
