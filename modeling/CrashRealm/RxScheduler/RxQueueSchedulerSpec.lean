/-
# `RxScheduler.RxQueueSchedulerSpec` — one thread for the blocks of a scheduler

What a step can do is said once (`Move`).  In every reachable state two threads that
are in blocks of one scheduler are one thread (`one_thread`): a block of another than
the main-queue scheduler lies on the thread that works for the queue, for it was
handed out there or found that queue current (`Stacked`), and a queue is worked for by
one thread.
-/
import CrashRealm.RxScheduler.RxQueueScheduler

namespace Rx

namespace RxQueueScheduler

open RxScheduler (Method Submission queueSubmit mainQueueSubmit)

variable {S T : Type} {cfg : Config S T} {s s' : System S T}

/-! ## The blocks of a thread -/

/-- Where a block may be run in place. -/
def Config.RunsInPlace (cfg : Config S T) (t : T) (frames : List (Frame S)) (scheduler : S) :
    Prop :=
  (scheduler = cfg.mainScheduler → t = cfg.mainThread) ∧
    (scheduler ≠ cfg.mainScheduler → currentQueue frames = some scheduler)

theorem exists_of_topAt {stage : Stage} {frames : List (Frame S)} (h : TopAt stage frames) :
    ∃ frame rest, frames = frame :: rest ∧ frame.stage = stage := by
  cases frames with
  | nil => cases h
  | cons frame rest => exact ⟨frame, rest, rfl, h⟩

/-- The blocks of one thread: each was handed out by a queue the thread was free for, or
run where `schedule:` may run it in place, and all but the innermost are running. -/
def Stacked (cfg : Config S T) (t : T) : List (Frame S) → Prop
  | [] => True
  | frame :: frames =>
      Stacked cfg t frames ∧ AtLarge frames ∧
        if frame.served then
          currentQueue frames = none ∧ (frame.scheduler = cfg.mainScheduler → t = cfg.mainThread)
        else frame.stage = .running ∧ cfg.RunsInPlace t frames frame.scheduler

theorem Stacked.restage {t : T} {frame : Frame S} {frames : List (Frame S)}
    (h : Stacked cfg t (frame :: frames)) {stage : Stage} (hserved : frame.served = true) :
    Stacked cfg t ({ frame with stage := stage } :: frames) := by
  refine ⟨h.1, h.2.1, ?_⟩
  have h := h.2.2
  rw [if_pos hserved] at h
  show if frame.served then _ else _
  rw [if_pos hserved]
  exact h

/-- What is not running yet was handed out by a queue. -/
theorem Stacked.served {t : T} {frame : Frame S} {frames : List (Frame S)}
    (h : Stacked cfg t (frame :: frames)) (hstage : frame.stage ≠ .running) :
    frame.served = true := by
  have h := h.2.2
  split at h
  next hserved => exact hserved
  next => exact absurd h.1 hstage

theorem Stacked.currentQueue_eq {t : T} {frames : List (Frame S)} (h : Stacked cfg t frames)
    {frame : Frame S} (hmem : frame ∈ frames) (hother : frame.scheduler ≠ cfg.mainScheduler) :
    currentQueue frames = some frame.scheduler := by
  induction frames with
  | nil => cases hmem
  | cons top frames ih =>
      obtain ⟨hrest, -, htop⟩ := h
      rw [currentQueue]
      rcases List.mem_cons.mp hmem with rfl | hmem
      · split at htop
        next hserved => rw [if_pos hserved]
        next hserved =>
          rw [if_neg hserved]
          exact htop.2.2 hother
      · have hcurrent := ih hrest hmem
        split at htop
        next =>
          rw [htop.1] at hcurrent
          cases hcurrent
        next hserved =>
          rw [if_neg hserved]
          exact hcurrent

/-- The item a thread has from the queue and not resolved yet. -/
def held : List (Frame S) → Option (S × Nat)
  | [] => none
  | frame :: _ => if frame.stage = .running then none else some (frame.scheduler, frame.job)

theorem held_of_atLarge {frames : List (Frame S)} (h : AtLarge frames) : held frames = none := by
  cases frames with
  | nil => rfl
  | cons frame frames => exact if_pos h

theorem Stacked.currentQueue_of_held {t : T} {frames : List (Frame S)}
    (h : Stacked cfg t frames) {scheduler : S} {job : Nat} (hheld : held frames = some (scheduler, job)) :
    currentQueue frames = some scheduler := by
  cases frames with
  | nil => cases hheld
  | cons frame frames =>
      rw [held] at hheld
      split at hheld
      next => cases hheld
      next hstage =>
        cases hheld
        rw [currentQueue, if_pos (h.served hstage)]

theorem Stacked.mainThread_eq {t : T} {frames : List (Frame S)} (h : Stacked cfg t frames)
    {frame : Frame S} (hmem : frame ∈ frames) (hmain : frame.scheduler = cfg.mainScheduler) :
    t = cfg.mainThread := by
  induction frames with
  | nil => cases hmem
  | cons top frames ih =>
      obtain ⟨hrest, -, htop⟩ := h
      rcases List.mem_cons.mp hmem with rfl | hmem
      · split at htop
        next => exact htop.2 hmain
        next => exact htop.2.1 hmain
      · exact ih hrest hmem

/-! ## One thread for a queue -/

/-- The threads are in order, and no two work for one queue. -/
structure Threads (cfg : Config S T) (s : System S T) : Prop where
  stacked : ∀ t, Stacked cfg t (s.frames t)
  exclusive : ∀ t u scheduler, currentQueue (s.frames t) = some scheduler →
    currentQueue (s.frames u) = some scheduler → t = u

variable [DecidableEq T]

/-- The blocks of one thread change; it works for no queue that another works for. -/
theorem Threads.update (h : Threads cfg s) {t : T} {frames : List (Frame S)}
    (hframes : s'.frames = Function.update s.frames t frames) (hstacked : Stacked cfg t frames)
    (hqueue : ∀ scheduler, currentQueue frames = some scheduler →
      ∀ u, u ≠ t → currentQueue (s.frames u) ≠ some scheduler) : Threads cfg s' := by
  constructor
  · intro u
    rw [hframes]
    by_cases hut : u = t
    · subst hut
      rw [Function.update_self]
      exact hstacked
    · rw [Function.update_of_ne hut]
      exact h.stacked u
  · intro u v scheduler hu hv
    rw [hframes, Function.update_apply] at hu hv
    split at hu <;> split at hv
    next hut hvt => rw [hut, hvt]
    next hvt => exact absurd hv (hqueue scheduler hu v hvt)
    next hut _ => exact absurd hu (hqueue scheduler hv u hut)
    next => exact h.exclusive u v scheduler hu hv

/-- As above, where the thread works for no queue it did not work for. -/
theorem Threads.update_of_current (h : Threads cfg s) {t : T} {frames : List (Frame S)}
    (hframes : s'.frames = Function.update s.frames t frames) (hstacked : Stacked cfg t frames)
    (hqueue : ∀ scheduler, currentQueue frames = some scheduler →
      currentQueue (s.frames t) = some scheduler) : Threads cfg s' := by
  refine h.update hframes hstacked fun scheduler hcurrent u hut hother => hut ?_
  exact h.exclusive u t scheduler hother (hqueue scheduler hcurrent)

variable [DecidableEq S]

/-! ## What a step does -/

inductive Move (cfg : Config S T) (s : System S T) : System S T → Prop where
  | inPlace (t : T) (scheduler : S) : AtLarge (s.frames t) →
      cfg.RunsInPlace t (s.frames t) scheduler → Move cfg s (s.submit t scheduler .schedule .inPlace)
  | queued (scheduler : S) : Move cfg s ((s.newToken scheduler).enqueue scheduler s.next)
  | delayed (scheduler : S) : Move cfg s
      { s.newToken scheduler with
        delayed := Function.update s.delayed scheduler (s.delayed scheduler ++ [s.next]) }
  | timer (scheduler : S) : Move cfg s
      { s.newToken scheduler with
        timers := Function.update s.timers scheduler (s.timers scheduler ++ [s.next]) }
  | due (scheduler : S) (job : Nat) : job ∈ s.delayed scheduler → Move cfg s
      ({ s with
        delayed := Function.update s.delayed scheduler
          ((s.delayed scheduler).erase job) }.enqueue scheduler job)
  | fire (scheduler : S) (job : Nat) : job ∈ s.timers scheduler →
      Move cfg s (s.enqueue scheduler job)
  | cancel (job : Nat) : job < s.next →
      Move cfg s { s with cancelled := Function.update s.cancelled job true }
  | serve (t : T) (scheduler : S) (job : Nat) (rest : List Nat) :
      s.queue scheduler = job :: rest → (∀ u, currentQueue (s.frames u) ≠ some scheduler) →
      AtLarge (s.frames t) → currentQueue (s.frames t) = none →
      (scheduler = cfg.mainScheduler → t = cfg.mainThread) → Move cfg s
        ({ s with queue := Function.update s.queue scheduler rest }.setFrames t
          ({ scheduler, job, served := true, stage := .taken } :: s.frames t))
  | skip (t : T) (frame : Frame S) (frames : List (Frame S)) : s.frames t = frame :: frames →
      frame.stage = .taken → s.cancelled frame.job = true →
      Move cfg s ((s.setFrames t frames).record (.skipped frame.scheduler frame.job))
  | clear (t : T) (frame : Frame S) (frames : List (Frame S)) : s.frames t = frame :: frames →
      frame.stage = .taken → s.cancelled frame.job = false →
      Move cfg s (s.setFrames t ({ frame with stage := .cleared } :: frames))
  | perform (t : T) (frame : Frame S) (frames : List (Frame S)) : s.frames t = frame :: frames →
      frame.stage = .cleared → Move cfg s
        ((s.setFrames t ({ frame with stage := .running } :: frames)).record
          (.started frame.scheduler frame.job false))
  | finish (t : T) (frame : Frame S) (frames : List (Frame S)) : s.frames t = frame :: frames →
      frame.stage = .running → Move cfg s (s.setFrames t frames)

theorem runsInPlace_of_submission {t : T} {frames : List (Frame S)} {scheduler : S}
    {method : Method} (h : cfg.submission t frames scheduler method = .inPlace) :
    cfg.RunsInPlace t frames scheduler := by
  rw [Config.submission] at h
  split at h
  next hmain =>
    refine ⟨fun _ => ?_, fun hother => absurd hmain hother⟩
    cases method <;> simp [mainQueueSubmit, queueSubmit] at h
    exact h
  next hother =>
    refine ⟨fun hmain => absurd hmain hother, fun _ => ?_⟩
    cases method <;> simp [queueSubmit] at h
    exact h

theorem move_submit {t : T} {scheduler : S} (method : Method) (hlarge : AtLarge (s.frames t)) :
    Move cfg s (s.submit t scheduler method (cfg.submission t (s.frames t) scheduler method)) := by
  cases h : cfg.submission t (s.frames t) scheduler method with
  | inPlace => exact .inPlace t scheduler hlarge (runsInPlace_of_submission h)
  | deferred handler repeats =>
      cases repeats with
      | true => exact .timer scheduler
      | false =>
          cases method with
          | schedule => exact .queued scheduler
          | after => exact .delayed scheduler
          | afterRepeating => exact .delayed scheduler

theorem move_of_step {a : Action S T} (hen : s.enabled cfg a) : Move cfg s (s.step cfg a) := by
  cases a with
  | submit t scheduler method => exact move_submit method hen
  | due scheduler job => exact .due scheduler job hen
  | fire scheduler job => exact .fire scheduler job hen.1
  | cancel job => exact .cancel job hen.1
  | serve t scheduler =>
      obtain ⟨hne, hfree, hcan⟩ := hen
      obtain ⟨job, rest, hqueue⟩ := List.exists_cons_of_ne_nil hne
      rw [System.step, System.serve, hqueue]
      rw [Config.CanServe] at hcan
      split at hcan
      next hmain =>
        exact .serve t scheduler job rest hqueue hfree hcan.2.1 hcan.2.2 fun _ => hcan.1
      next hother =>
        refine .serve t scheduler job rest hqueue hfree ?_ ?_ fun hmain => absurd hmain hother
        · rw [hcan.2]
          trivial
        · rw [hcan.2]
          rfl
  | check t =>
      obtain ⟨frame, frames, hframes, hstage⟩ := exists_of_topAt hen
      rw [System.step, System.check, hframes]
      simp only
      cases hcancelled : s.cancelled frame.job with
      | true =>
          rw [if_pos rfl]
          exact .skip t frame frames hframes hstage hcancelled
      | false =>
          rw [if_neg Bool.false_ne_true]
          exact .clear t frame frames hframes hstage hcancelled
  | perform t =>
      obtain ⟨frame, frames, hframes, hstage⟩ := exists_of_topAt hen
      rw [System.step, System.perform, hframes]
      exact .perform t frame frames hframes hstage
  | finish t =>
      obtain ⟨frame, frames, hframes, hstage⟩ := exists_of_topAt hen
      rw [System.step, hframes]
      exact .finish t frame frames hframes hstage

/-! ## Exclusion -/

theorem Threads.move (h : Threads cfg s) (hmove : Move cfg s s') : Threads cfg s' := by
  cases hmove with
  | inPlace t scheduler hlarge hruns =>
      exact h.update_of_current rfl ⟨h.stacked t, hlarge, rfl, hruns⟩ fun _ hcurrent => hcurrent
  | queued | delayed | timer | due | fire | cancel => exact ⟨h.stacked, h.exclusive⟩
  | serve t scheduler job rest hqueue hfree hlarge hnone hmain =>
      refine h.update rfl ⟨h.stacked t, hlarge, hnone, hmain⟩ fun scheduler' hcurrent u _ => ?_
      cases hcurrent
      exact hfree u
  | skip t frame frames hframes hstage hcancelled =>
      have hstacked := h.stacked t
      rw [hframes] at hstacked
      have htop := hstacked.2.2
      rw [if_pos (hstacked.served (by rw [hstage]; decide))] at htop
      refine h.update_of_current rfl hstacked.1 fun scheduler hcurrent => ?_
      rw [htop.1] at hcurrent
      cases hcurrent
  | clear t frame frames hframes hstage hcancelled =>
      have hstacked := h.stacked t
      rw [hframes] at hstacked
      refine h.update_of_current rfl
        (hstacked.restage (hstacked.served (by rw [hstage]; decide))) fun scheduler hcurrent => ?_
      rw [hframes]
      exact hcurrent
  | perform t frame frames hframes hstage =>
      have hstacked := h.stacked t
      rw [hframes] at hstacked
      refine h.update_of_current rfl
        (hstacked.restage (hstacked.served (by rw [hstage]; decide))) fun scheduler hcurrent => ?_
      rw [hframes]
      exact hcurrent
  | finish t frame frames hframes hstage =>
      have hstacked := h.stacked t
      rw [hframes] at hstacked
      refine h.update_of_current rfl hstacked.1 fun scheduler hcurrent => ?_
      have htop := hstacked.2.2
      rw [hframes, currentQueue]
      split at htop
      next =>
        rw [htop.1] at hcurrent
        cases hcurrent
      next hserved =>
        rw [if_neg hserved]
        exact hcurrent

theorem threads_of_reachable (h : (machine cfg).Reachable s) : Threads cfg s := by
  have hinit : Threads cfg (.init : System S T) :=
    ⟨fun _ => trivial, fun _ _ _ hnone => by cases hnone⟩
  refine h.invariant hinit fun s a s' hs hen hstep => ?_
  cases hstep
  exact hs.move (move_of_step hen)

/-- In every reachable state, two threads that are in blocks of one scheduler are one. -/
theorem one_thread (h : (machine cfg).Reachable s) {t u : T} {frame frame' : Frame S}
    (hmem : frame ∈ s.frames t) (hmem' : frame' ∈ s.frames u)
    (hsame : frame.scheduler = frame'.scheduler) : t = u := by
  have hthreads := threads_of_reachable h
  by_cases hmain : frame.scheduler = cfg.mainScheduler
  · rw [(hthreads.stacked t).mainThread_eq hmem hmain,
      (hthreads.stacked u).mainThread_eq hmem' (hsame ▸ hmain)]
  · refine hthreads.exclusive t u frame.scheduler ((hthreads.stacked t).currentQueue_eq hmem hmain) ?_
    rw [hsame]
    exact (hthreads.stacked u).currentQueue_eq hmem' (hsame ▸ hmain)

/-- A main thread with the main-queue scheduler, and a worker with another. -/
def mainAndWorker : Config Bool Bool := ⟨true, true⟩

/-- The main thread leaves two blocks to a queue; the first submits one more, which runs in
place, and cancels the second. -/
def nested : List (Action Bool Bool) :=
  [.submit true false .schedule, .submit true false .schedule, .serve false false, .check false,
    .perform false, .submit false false .schedule, .cancel 1]

theorem one_thread_nested : ∃ s, (machine mainAndWorker).Reachable s ∧
    s.frames false = [⟨false, 2, false, .running⟩, ⟨false, 0, true, .running⟩] ∧
    ∀ u, ∀ frame ∈ s.frames u, frame.scheduler = false → u = false := by
  have hreach : (machine mainAndWorker).Reachable _ := ⟨nested, Machine.run_of_exec rfl⟩
  exact ⟨_, hreach, rfl, fun u frame hmem hsame => one_thread hreach hmem List.mem_cons_self hsame⟩

end RxQueueScheduler

end Rx
