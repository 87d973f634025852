/-
# `Example.RxViewControllerJobs` — the jobs of a conversation, tick after tick

`flip` is a variable of the call, so each tick has its own and sets it to `NO`
before the block reads it.  What a call changes it to is read by nobody: every job
is an `__initConversationJob:` (`run_jobs`), and they alternate while there is one
at most.  That there can be any number of them is `exists_jobs`.

`Watched` is the app beside the jobs it ran for one conversation, in their order; it
runs as the app does (`watched_run_iff`).
-/
import CrashRealm.Example.RxViewControllerSpec

namespace Rx

namespace RxViewController

variable {UUID : Type} [DecidableEq UUID]

/-- What the second block of `__startJob:` calls. -/
inductive Job where
  | initConversationJob
  | resetJob
  deriving DecidableEq, Repr

/-- The job a step runs for `idx`. -/
def System.jobOf (s : System UUID) (idx : Nat) : Action → Option Job
  | .run w _ _ =>
      match (s.threads w).stack with
      | .flip idx' _ (.branch flip) :: _ =>
          if idx' = idx then some (if flip then .resetJob else .initConversationJob) else none
      | _ => none
  | _ => none

structure Watched (UUID : Type) where
  system : System UUID
  jobs : List Job

/-- The app, and the jobs it has run for `idx`. -/
def watchedMachine (sources : DataSources UUID) (start : System UUID) (idx : Nat) :
    Machine (Watched UUID) Action Fault where
  start := ⟨start, []⟩
  enabled s := s.system.enabled
  step s a := do
    let system ← s.system.step sources a
    .ok ⟨system, s.jobs ++ (s.system.jobOf idx a).toList⟩

/-- The first is an `__initConversationJob:`, and then each is the other one. -/
def Alternate (jobs : List Job) : Prop :=
  ∀ i (h : i < jobs.length), jobs[i] = if i % 2 = 0 then .initConversationJob else .resetJob

variable {sources : DataSources UUID} {start : System UUID} {idx : Nat}

theorem watched_step {s s' : Watched UUID} {a : Action} :
    (watchedMachine sources start idx).step s a = .ok s' ↔
      s.system.step sources a = .ok s'.system ∧
        s'.jobs = s.jobs ++ (s.system.jobOf idx a).toList := by
  obtain ⟨system', jobs'⟩ := s'
  show (do let system ← s.system.step sources a; _) = _ ↔ _
  cases s.system.step sources a with
  | error e => exact iff_of_false (fun h => by cases h) (fun h => by cases h.1)
  | ok system =>
      rw [ok_bind, Except.ok.injEq, Except.ok.injEq, Watched.mk.injEq]
      exact and_congr_right fun _ => eq_comm

theorem run_system {as : List Action} {s : Watched UUID}
    (h : (watchedMachine sources start idx).Run Machine.anyAction as s) :
    (machine sources start).Run Machine.anyAction as s.system := by
  induction h with
  | start => exact .start
  | step _ hen hany hstep ih => exact ih.step hen hany (watched_step.mp hstep).1

/-- Watching changes nothing. -/
theorem watched_run_iff {as : List Action} {system : System UUID} :
    (machine sources start).Run Machine.anyAction as system ↔
      ∃ jobs, (watchedMachine sources start idx).Run Machine.anyAction as ⟨system, jobs⟩ := by
  constructor
  · intro hrun
    induction hrun with
    | start => exact ⟨[], .start⟩
    | step _ hen hany hstep ih =>
        obtain ⟨jobs, hrun⟩ := ih
        exact ⟨_, hrun.step hen hany (watched_step.mpr ⟨hstep, rfl⟩)⟩
  · rintro ⟨jobs, hrun⟩
    exact run_system hrun

/-! ## Every job -/

omit [DecidableEq UUID] in
/-- The block has read `NO`. -/
theorem jobOf_serves {s : System UUID} (h : Serves sources s) {a : Action} {job : Job}
    (hjob : job ∈ s.jobOf idx a) : job = .initConversationJob := by
  cases a with
  | fire | next | perform => cases hjob
  | run w j shuffle =>
      rw [System.jobOf] at hjob
      split at hjob
      next idx' cell flip stack hstack =>
        obtain ⟨-, -, rfl⟩ := h.fine_head hstack
        split at hjob
        · exact (Option.some.inj hjob).symm
        · cases hjob
      next => cases hjob

theorem run_jobs (hstart : Serves sources start) {as : List Action} {s : Watched UUID}
    (h : (watchedMachine sources start idx).Run Machine.anyAction as s) :
    Serves sources s.system ∧ s.jobs = List.replicate s.jobs.length .initConversationJob := by
  refine h.invariant (I := fun s => Serves sources s.system ∧
    s.jobs = List.replicate s.jobs.length .initConversationJob) ⟨hstart, rfl⟩ ?_
  rintro s a s' ⟨hs, hjobs⟩ hen - hstep
  obtain ⟨hsystem, happend⟩ := watched_step.mp hstep
  obtain ⟨s'', hstep', hs'⟩ := hs.step hen
  cases hsystem.symm.trans hstep'
  refine ⟨hs', List.eq_replicate_iff.mpr ⟨rfl, fun job hmem => ?_⟩⟩
  rw [happend, List.mem_append] at hmem
  rcases hmem with hold | hnew
  · rw [hjobs] at hold
    exact List.eq_of_mem_replicate hold
  · exact jobOf_serves hs (Option.mem_toList.mp hnew)

theorem alternate_replicate_iff {n : Nat} :
    Alternate (List.replicate n .initConversationJob) ↔ n ≤ 1 := by
  constructor
  · intro h
    by_contra hlt
    have hone := h 1 (by rw [List.length_replicate]; omega)
    rw [List.getElem_replicate] at hone
    cases hone
  · intro hle i hi
    rw [List.length_replicate] at hi
    rw [List.getElem_replicate, show i = 0 by omega]
    rfl

/-! ## Any number of jobs -/

section Ticks
variable (sources : DataSources UUID) (start : System UUID) (idx : Nat)

/-- What `arc4random` gives for the jobs that are run, and for the others. -/
def zero : Fin kRxTestSchedulerCapacity := ⟨0, by decide⟩

def one : Fin kRxTestSchedulerCapacity := ⟨1, by decide⟩

/-- The worker all jobs that are run are sent to. -/
def firstRandom : Worker := .randomSchedulers zero

/-- Some run leads to these jobs, this point of the timer's loop, and that worker idle. -/
def Gets (main : Main) (jobs : List Job) : Prop :=
  ∃ as s, (watchedMachine sources start idx).Run Machine.anyAction as s ∧
    s.system.main = main ∧ s.system.threads firstRandom = ⟨[], []⟩ ∧ s.jobs = jobs

variable {sources start idx} {jobs : List Job} {main : Main}

section Step
variable {as : List Action} {s : Watched UUID} {a : Action} {system : System UUID}
  (h : (watchedMachine sources start idx).Run Machine.anyAction as s) (hen : s.system.enabled a)
  (hstep : s.system.step sources a = .ok system)
include h hen hstep

theorem run_job {job : Job} (hjob : s.system.jobOf idx a = some job) :
    (watchedMachine sources start idx).Run Machine.anyAction (as ++ [a])
      ⟨system, s.jobs ++ [job]⟩ := by
  refine h.step hen trivial (watched_step.mpr ⟨hstep, ?_⟩)
  rw [hjob]
  rfl

/-- A step that runs no job. -/
theorem run_quiet (hnone : s.system.jobOf idx a = none) :
    (watchedMachine sources start idx).Run Machine.anyAction (as ++ [a]) ⟨system, s.jobs⟩ := by
  refine h.step hen trivial (watched_step.mpr ⟨hstep, ?_⟩)
  rw [hnone]
  exact (List.append_nil _).symm

end Step

theorem Gets.fire (h : Gets sources start idx .waiting jobs) :
    Gets sources start idx (.loop 0) jobs := by
  obtain ⟨as, s, hrun, hmain, hthread, rfl⟩ := h
  exact ⟨_, _, run_quiet hrun (a := .fire) hmain rfl rfl, rfl, hthread, rfl⟩

theorem Gets.finish (h : Gets sources start idx (.loop kRxTestArrayCapacity) jobs) :
    Gets sources start idx .waiting jobs := by
  obtain ⟨as, s, hrun, hmain, hthread, rfl⟩ := h
  have hstep : s.system.step sources (.next zero) =
      .ok { s.system with main := .waiting } := by
    rw [System.step, System.next, hmain]
    exact if_neg (Nat.lt_irrefl _)
  exact ⟨_, _, run_quiet hrun (by rw [System.enabled, hmain]; exact Main.noConfusion) hstep rfl,
    rfl, hthread, rfl⟩

omit [DecidableEq UUID] in
theorem threads_schedule (s : System UUID) (w w' : Worker) (block : Block) :
    (s.schedule none w block).threads w' =
      if w' = w then { s.threads w with blocks := (s.threads w).blocks ++ [block] }
      else s.threads w' := by
  rw [System.schedule, if_neg (Option.some_ne_none w).symm]
  show Function.update s.threads w _ w' = _
  rw [Function.update_apply]

omit [DecidableEq UUID] in
theorem threads_setThread (s : System UUID) (w : Worker) (thread : Thread) :
    (s.setThread w thread).threads w = thread :=
  Function.update_self ..

/-- The two calls of `__startJob:`, of which the second goes to worker `j`. -/
theorem run_startJob {as : List Action} {s : Watched UUID} {i : Nat}
    (h : (watchedMachine sources start idx).Run Machine.anyAction as s)
    (hmain : s.system.main = .loop i) (hi : i < kRxTestArrayCapacity)
    (hthread : s.system.threads firstRandom = ⟨[], []⟩) (j : Fin kRxTestSchedulerCapacity) :
    ∃ as' s', (watchedMachine sources start idx).Run Machine.anyAction as' s' ∧
      s'.system.main = .loop (i + 1) ∧ s'.jobs = s.jobs ∧
      ∃ cell, s'.system.flips[cell]? = some false ∧ s'.system.threads firstRandom =
        if j = zero then ⟨[.flip i cell], []⟩ else ⟨[], []⟩ := by
  obtain ⟨system, hfirst, hmain', hcell, hthread'⟩ :
      ∃ system, s.system.step sources (.next zero) = .ok system ∧
        system.main = .started i s.system.flips.length ∧
        system.flips[s.system.flips.length]? = some false ∧
        system.threads firstRandom = ⟨[], []⟩ := by
    refine ⟨{ s.system with
      flips := s.system.flips ++ [false]
      main := .started i s.system.flips.length }.schedule none (.schedulers zero)
        (.notify i), ?_, rfl, List.getElem?_concat_length, ?_⟩
    · rw [System.step, System.next, hmain]
      exact (if_pos hi).trans (if_pos hi)
    · rw [threads_schedule, if_neg Worker.noConfusion]
      exact hthread
  have hrun := run_quiet h (by rw [System.enabled, hmain]; exact Main.noConfusion) hfirst rfl
  have hnext : system.step sources (.next j) = .ok ({ system with main := .loop (i + 1) }.schedule
      none (.randomSchedulers j) (.flip i s.system.flips.length)) := by
    rw [System.step, System.next, hmain']
  refine ⟨_, _, run_quiet hrun (by rw [System.enabled, hmain']; exact Main.noConfusion) hnext rfl,
    rfl, rfl, _, hcell, ?_⟩
  rw [threads_schedule]
  by_cases hj : j = zero
  · subst hj
    rw [if_pos (show firstRandom = .randomSchedulers zero from rfl), if_pos rfl]
    exact congrArg (fun thread : Thread =>
      { thread with blocks := thread.blocks ++ [Block.flip i s.system.flips.length] }) hthread'
  · have hother : firstRandom ≠ .randomSchedulers j := fun h =>
      hj (Worker.randomSchedulers.inj h).symm
    rw [if_neg hj, if_neg hother]
    exact hthread'

/-- A job of another conversation goes elsewhere. -/
theorem Gets.skip {i : Nat} (h : Gets sources start idx (.loop i) jobs)
    (hi : i < kRxTestArrayCapacity) : Gets sources start idx (.loop (i + 1)) jobs := by
  obtain ⟨as, s, hrun, hmain, hthread, rfl⟩ := h
  obtain ⟨as', s', hrun', hmain', hjobs, cell, -, hthread'⟩ :=
    run_startJob hrun hmain hi hthread one
  exact ⟨as', s', hrun', hmain', hthread', hjobs⟩

theorem Gets.skips {i : Nat} (h : Gets sources start idx (.loop i) jobs) (k : Nat)
    (hi : i + k ≤ kRxTestArrayCapacity) : Gets sources start idx (.loop (i + k)) jobs := by
  induction k with
  | zero => exact h
  | succ k ih => exact (ih (Nat.le_of_succ_le hi)).skip hi

omit [DecidableEq UUID] in
theorem threads_setStack {s : System UUID} {w : Worker} {stack : List Frame} {blocks : List Block}
    (h : s.threads w = ⟨blocks, stack⟩) (stack' : List Frame) :
    (s.setStack w stack').threads w = ⟨blocks, stack'⟩ := by
  rw [System.setStack, threads_setThread, h]

omit [DecidableEq UUID] in
theorem enabled_run {s : System UUID} {w : Worker} {frame : Frame} {stack : List Frame}
    {blocks : List Block} (h : s.threads w = ⟨blocks, frame :: stack⟩)
    (j : Fin kRxTestSchedulerCapacity) (shuffle : Equiv.Perm (Fin kRxTestArrayCapacity)) :
    s.enabled (.run w j shuffle) := by
  rw [System.enabled, h]
  exact List.cons_ne_nil frame stack

/-- A block that reads `NO`, from its entry to its end. -/
theorem run_flip {as : List Action} {s : Watched UUID} {cell : Nat}
    (h : (watchedMachine sources start idx).Run Machine.anyAction as s)
    (hidx : idx < kRxTestArrayCapacity) (hcell : s.system.flips[cell]? = some false)
    (hthread : s.system.threads firstRandom = ⟨[], [.flip idx cell .entry]⟩) :
    ∃ as' s', (watchedMachine sources start idx).Run Machine.anyAction as' s' ∧
      s'.system.main = s.system.main ∧ s'.system.threads firstRandom = ⟨[], []⟩ ∧
      s'.jobs = s.jobs ++ [.initConversationJob] := by
  let run : Action := .run firstRandom zero (.refl _)
  have hread : s.system.step sources run =
      .ok (s.system.setStack firstRandom [.flip idx cell (.branch false)]) := by
    rw [System.step, System.run, hthread]
    simp only [hcell]
  have hentry : s.system.jobOf idx run = none := by rw [System.jobOf, hthread]
  have h₁ := run_quiet h (enabled_run hthread zero (.refl _)) hread hentry
  have hthread₁ := threads_setStack hthread [.flip idx cell (.branch false)]
  generalize hs₁ : s.system.setStack firstRandom [.flip idx cell (.branch false)] = s₁
    at h₁ hthread₁
  obtain ⟨realm, hinit, -⟩ := initConversationJob_ok sources hidx s₁.realm (.refl _)
  have hjob : s₁.step sources run =
      .ok ({ s₁ with realm }.setStack firstRandom [.flip idx cell .toggling]) := by
    rw [System.step, System.run, hthread₁]
    show (do let realm ← initConversationJob sources s₁.realm idx (.refl _); _) = _
    rw [hinit]
    rfl
  have hbranch : s₁.jobOf idx run = some .initConversationJob := by
    rw [System.jobOf, hthread₁]
    exact if_pos rfl
  have h₂ := run_job h₁ (enabled_run hthread₁ zero (.refl _)) hjob hbranch
  have hthread₂ : ({ s₁ with realm }.setStack firstRandom [.flip idx cell .toggling]).threads
      firstRandom = ⟨[], [.flip idx cell .toggling]⟩ := threads_setStack hthread₁ _
  have hmain₁ : s₁.main = s.system.main := by
    rw [← hs₁]
    rfl
  generalize hs₂ : { s₁ with realm }.setStack firstRandom [.flip idx cell .toggling] = s₂
    at h₂ hthread₂
  have htoggle : s₂.step sources run =
      .ok ({ s₂ with flips := s₂.flips.modify cell (!·) }.setStack firstRandom []) := by
    rw [System.step, System.run, hthread₂]
  have hdone : s₂.jobOf idx run = none := by rw [System.jobOf, hthread₂]
  have h₃ := run_quiet h₂ (enabled_run hthread₂ zero (.refl _)) htoggle hdone
  refine ⟨_, _, h₃, ?_, threads_setStack hthread₂ [], rfl⟩
  rw [← hmain₁, ← hs₂]
  rfl

/-- The job of `idx` is run as soon as it is submitted. -/
theorem Gets.job (h : Gets sources start idx (.loop idx) jobs) (hidx : idx < kRxTestArrayCapacity) :
    Gets sources start idx (.loop (idx + 1)) (jobs ++ [.initConversationJob]) := by
  obtain ⟨as, s, hrun, hmain, hthread, rfl⟩ := h
  obtain ⟨as, s₁, hrun, hmain, hjobs, cell, hcell, hthread⟩ :=
    run_startJob hrun hmain hidx hthread zero
  rw [if_pos rfl] at hthread
  have hperform : s₁.system.perform firstRandom 0 =
      s₁.system.setThread firstRandom ⟨[], [.flip idx cell .entry]⟩ := by
    rw [System.perform, hthread]
    rfl
  have hrun := run_quiet hrun (a := .perform firstRandom 0)
    (by rw [System.enabled, hthread]; exact ⟨rfl, Nat.zero_lt_one⟩) (congrArg _ hperform) rfl
  obtain ⟨as, s₂, hrun, hmain₂, hthread, hjobs₂⟩ :=
    run_flip hrun hidx hcell (threads_setThread ..)
  exact ⟨as, s₂, hrun, hmain₂.trans hmain, hthread, by rw [hjobs₂, hjobs]⟩

/-- A tick runs the job of `idx` once more. -/
theorem Gets.tick (h : Gets sources start idx .waiting jobs) (hidx : idx < kRxTestArrayCapacity) :
    Gets sources start idx .waiting (jobs ++ [.initConversationJob]) := by
  have hbefore := h.fire.skips idx (by omega)
  rw [Nat.zero_add] at hbefore
  have hafter := (hbefore.job hidx).skips (kRxTestArrayCapacity - (idx + 1)) (by omega)
  rw [Nat.add_sub_cancel' hidx] at hafter
  exact hafter.finish

theorem gets_replicate (hmain : start.main = .waiting)
    (hthread : start.threads firstRandom = ⟨[], []⟩) (hidx : idx < kRxTestArrayCapacity)
    (n : Nat) : Gets sources start idx .waiting (List.replicate n .initConversationJob) := by
  induction n with
  | zero => exact ⟨_, _, .start, hmain, hthread, rfl⟩
  | succ n ih =>
      rw [List.replicate_succ']
      exact ih.tick hidx

end Ticks

theorem viewDidLoad_idle {realm : Realm UUID} (h : viewDidLoad sources realm = .ok start) :
    start.main = .waiting ∧ start.threads = fun _ => ⟨[], []⟩ := by
  obtain ⟨realm', -, hload⟩ := bind_eq_ok.mp h
  cases hload
  exact ⟨rfl, rfl⟩

/-- Once `viewDidLoad` has returned, in every run and for every conversation the jobs of
`__startJob:` alternate exactly if at most one has run. -/
theorem jobs_alternate_iff (sources : DataSources UUID) (realm : Realm UUID) :
    ∃ start, viewDidLoad sources realm = .ok start ∧ ∀ idx as s,
      (watchedMachine sources start idx).Run Machine.anyAction as s →
        (Alternate s.jobs ↔ s.jobs.length ≤ 1) := by
  obtain ⟨start, hload, hstart⟩ := viewDidLoad_ok sources realm
  refine ⟨start, hload, fun idx as s hrun => ?_⟩
  rw [(run_jobs hstart hrun).2, alternate_replicate_iff, List.length_replicate]

/-- For any conversation there can be any number of them. -/
theorem exists_jobs {realm : Realm UUID} (hload : viewDidLoad sources realm = .ok start)
    (hidx : idx < kRxTestArrayCapacity) (n : Nat) :
    ∃ as s, (watchedMachine sources start idx).Run Machine.anyAction as s ∧
      s.jobs = List.replicate n .initConversationJob := by
  obtain ⟨hmain, hthreads⟩ := viewDidLoad_idle hload
  have hgets : Gets sources start idx .waiting (List.replicate n .initConversationJob) :=
    gets_replicate hmain (congrFun hthreads firstRandom) hidx n
  obtain ⟨as, s, hrun, -, -, hjobs⟩ := hgets
  exact ⟨as, s, hrun, hjobs⟩

/-- Two ticks, and the second job of the first conversation is like the first. -/
theorem not_jobs_alternate : ¬ ∀ (sources : DataSources Nat) (realm : Realm Nat)
    (start : System Nat), viewDidLoad sources realm = .ok start → ∀ idx as s,
      (watchedMachine sources start idx).Run Machine.anyAction as s → Alternate s.jobs := by
  intro h
  let sources : DataSources Nat := ⟨Fin.val, fun i j => kRxTestArrayCapacity * i.val + j.val⟩
  obtain ⟨start, hload, -⟩ := viewDidLoad_ok sources ⟨fun _ => none, fun _ => none⟩
  obtain ⟨as, s, hrun, hjobs⟩ := @exists_jobs _ _ _ _ 0 _ hload (by decide) 2
  have halt := h sources _ start hload 0 as s hrun
  rw [hjobs, alternate_replicate_iff] at halt
  exact absurd halt (by decide)

end RxViewController

end Rx
