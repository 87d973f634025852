/-
# `RxScheduler.RxQueueSchedulerOrder` — in order, at most once, not after `cancel`

Over all runs:

    blocks leave the queue in the order they came to it            (`in_order`)
    a block runs once, or its token was cancelled, or it waits     (`runs_once`)
    a cancelled block starts later iff its token was asked before  (`cancelled_starts_iff`)

What a queue has handed out and the thread has not resolved yet is the one item
between what was handled and what is queued (`Ordered`).  A block that is no timer is
delayed, came to its queue or was run in place, one of them and once (`Once`).
-/
import CrashRealm.RxScheduler.RxQueueSchedulerSpec

namespace Rx

namespace RxQueueScheduler

variable {S T : Type} [DecidableEq S] {cfg : Config S T} {s s' : System S T}

/-! ## Order -/

/-- The item that comes to the queue. -/
def Event.queuedBy (scheduler : S) : Event S → Option Nat
  | .queued scheduler' job => if scheduler' = scheduler then some job else none
  | _ => none

/-- The item from the queue whose fate is decided: its block starts, or is skipped. -/
def Event.handledBy (scheduler : S) : Event S → Option Nat
  | .started scheduler' job false => if scheduler' = scheduler then some job else none
  | .skipped scheduler' job => if scheduler' = scheduler then some job else none
  | _ => none

/-- All that came to the queue, in this order. -/
def queuedIn (scheduler : S) (log : List (Event S)) : List Nat :=
  log.filterMap (Event.queuedBy scheduler)

/-- All from the queue that was handled, in this order. -/
def handledIn (scheduler : S) (log : List (Event S)) : List Nat :=
  log.filterMap (Event.handledBy scheduler)

theorem queuedIn_append (scheduler : S) (log : List (Event S)) (e : Event S) :
    queuedIn scheduler (log ++ [e]) = queuedIn scheduler log ++ (e.queuedBy scheduler).toList := by
  rw [queuedIn, List.filterMap_append]
  cases h : e.queuedBy scheduler <;> simp [h, queuedIn]

theorem handledIn_append (scheduler : S) (log : List (Event S)) (e : Event S) :
    handledIn scheduler (log ++ [e]) = handledIn scheduler log ++ (e.handledBy scheduler).toList := by
  rw [handledIn, List.filterMap_append]
  cases h : e.handledBy scheduler <;> simp [h, handledIn]

/-- What came to the queue was handled, is in a thread's hand or is still queued, in the
order it came. -/
def Ordered (s : System S T) (scheduler : S) (hand : Option Nat) : Prop :=
  queuedIn scheduler s.log = handledIn scheduler s.log ++ hand.toList ++ s.queue scheduler ∧
    ∀ job, hand = some job ↔ ∃ t, held (s.frames t) = some (scheduler, job)

/-- No hand changes. -/
theorem Ordered.of_held {scheduler : S} {hand : Option Nat} (h : Ordered s scheduler hand)
    (hheld : ∀ u job, held (s'.frames u) = some (scheduler, job) ↔
      held (s.frames u) = some (scheduler, job))
    (items : List Nat) (hqueued : queuedIn scheduler s'.log = queuedIn scheduler s.log ++ items)
    (hhandled : handledIn scheduler s'.log = handledIn scheduler s.log)
    (hqueue : s'.queue scheduler = s.queue scheduler ++ items) : Ordered s' scheduler hand := by
  refine ⟨?_, fun job => ?_⟩
  · rw [hqueued, hhandled, hqueue, h.1, List.append_assoc]
  · rw [h.2 job]
    exact exists_congr fun u => (hheld u job).symm


variable [DecidableEq T]

omit [DecidableEq S] in
/-- The hands of the threads where the blocks of one change. -/
theorem held_update_iff {t : T} {frames : List (Frame S)} {x : Option (S × Nat)}
    (h : held frames = x ↔ held (s.frames t) = x) (u : T) :
    held (Function.update s.frames t frames u) = x ↔ held (s.frames u) = x := by
  by_cases hut : u = t
  · subst hut
    rw [Function.update_self]
    exact h
  · rw [Function.update_of_ne hut]

/-- The thread resolves the item in its hand. -/
theorem Ordered.resolve {t : T} {frame : Frame S} {frames frames' : List (Frame S)}
    (hthreads : Threads cfg s) (hframes : s.frames t = frame :: frames)
    (hstage : frame.stage ≠ .running) (hnone : held frames' = none) {e : Event S}
    (hqueued : ∀ scheduler, e.queuedBy scheduler = none)
    (hhandled : ∀ scheduler, e.handledBy scheduler =
      if frame.scheduler = scheduler then some frame.job else none)
    (h : ∀ scheduler, ∃ hand, Ordered s scheduler hand) (scheduler : S) :
    ∃ hand, Ordered ((s.setFrames t frames').record e) scheduler hand := by
  obtain ⟨hand, heq, hhand⟩ := h scheduler
  have hheld : held (s.frames t) = some (frame.scheduler, frame.job) := by
    rw [hframes]
    exact if_neg hstage
  by_cases hsame : frame.scheduler = scheduler
  · subst hsame
    have hjob : hand = some frame.job := (hhand frame.job).mpr ⟨t, hheld⟩
    refine ⟨none, ?_, fun job => ⟨fun hnone => (by cases hnone), ?_⟩⟩
    · show queuedIn frame.scheduler (s.log ++ [e]) =
        handledIn frame.scheduler (s.log ++ [e]) ++ [] ++ s.queue frame.scheduler
      rw [queuedIn_append, handledIn_append, hqueued, hhandled, if_pos rfl, heq, hjob]
      simp
    · rintro ⟨u, hu⟩
      have hu : held (Function.update s.frames t frames' u) = some (frame.scheduler, job) := hu
      by_cases hut : u = t
      · subst hut
        rw [Function.update_self, hnone] at hu
        cases hu
      · rw [Function.update_of_ne hut] at hu
        refine absurd (hthreads.exclusive u t frame.scheduler ?_ ?_) hut
        · exact (hthreads.stacked u).currentQueue_of_held hu
        · exact (hthreads.stacked t).currentQueue_of_held hheld
  · refine ⟨hand, Ordered.of_held ⟨heq, hhand⟩ (fun u job => ?_) [] ?_ ?_ ?_⟩
    · refine held_update_iff ?_ u
      rw [hnone, hheld]
      refine ⟨fun hnone => (by cases hnone), fun hsome => ?_⟩
      cases hsome
      exact absurd rfl hsame
    · show queuedIn scheduler (s.log ++ [e]) = _
      rw [queuedIn_append, hqueued]
      rfl
    · show handledIn scheduler (s.log ++ [e]) = _
      rw [handledIn_append, hhandled, if_neg hsame]
      exact List.append_nil _
    · exact (List.append_nil _).symm

/-- The hands stay, and nothing comes to a queue. -/
theorem Ordered.of_frames {t : T} {frames : List (Frame S)} (hheld : held frames = held (s.frames t))
    {scheduler : S} {hand : Option Nat} (h : Ordered s scheduler hand) :
    Ordered (s.setFrames t frames) scheduler hand :=
  h.of_held (fun u _ => held_update_iff (by rw [hheld]) u) [] (List.append_nil _).symm rfl
    (List.append_nil _).symm

omit [DecidableEq T] in
theorem Ordered.record {e : Event S} {scheduler : S} {hand : Option Nat}
    (hqueued : e.queuedBy scheduler = none) (hhandled : e.handledBy scheduler = none)
    (h : Ordered s scheduler hand) : Ordered (s.record e) scheduler hand := by
  refine h.of_held (fun _ _ => Iff.rfl) [] ?_ ?_ (List.append_nil _).symm
  · exact (queuedIn_append scheduler s.log e).trans (by rw [hqueued]; rfl)
  · exact (handledIn_append scheduler s.log e).trans (by rw [hhandled]; exact List.append_nil _)

omit [DecidableEq T] in
theorem Ordered.enqueue {scheduler : S} {hand : Option Nat} (h : Ordered s scheduler hand)
    (scheduler' : S) (job : Nat) : Ordered (s.enqueue scheduler' job) scheduler hand := by
  by_cases hsame : scheduler' = scheduler
  · subst hsame
    refine h.of_held (fun _ _ => Iff.rfl) [job] ?_ ?_ ?_
    · refine (queuedIn_append scheduler' s.log _).trans ?_
      rw [Event.queuedBy, if_pos rfl]
      rfl
    · exact (handledIn_append scheduler' s.log _).trans (List.append_nil _)
    · exact Function.update_self ..
  · refine h.of_held (fun _ _ => Iff.rfl) [] ?_ ?_ ?_
    · refine (queuedIn_append scheduler s.log _).trans ?_
      rw [Event.queuedBy, if_neg hsame]
      rfl
    · exact (handledIn_append scheduler s.log _).trans (List.append_nil _)
    · exact (Function.update_of_ne (Ne.symm hsame) ..).trans (List.append_nil _).symm

/-- The queue hands out its first item. -/
theorem Ordered.serve (hthreads : Threads cfg s) {t : T} {scheduler : S} {job : Nat}
    {rest : List Nat} (hqueue : s.queue scheduler = job :: rest)
    (hfree : ∀ u, currentQueue (s.frames u) ≠ some scheduler) (hlarge : AtLarge (s.frames t))
    (h : ∀ scheduler, ∃ hand, Ordered s scheduler hand) (scheduler' : S) :
    ∃ hand, Ordered
      ({ s with queue := Function.update s.queue scheduler rest }.setFrames t
        ({ scheduler, job, served := true, stage := .taken } :: s.frames t)) scheduler' hand := by
  obtain ⟨hand, heq, hhand⟩ := h scheduler'
  by_cases hsame : scheduler' = scheduler
  · subst hsame
    have hnone : hand = none := by
      cases hand with
      | none => rfl
      | some job' =>
          obtain ⟨u, hu⟩ := (hhand job').mp rfl
          exact absurd ((hthreads.stacked u).currentQueue_of_held hu) (hfree u)
    refine ⟨some job, ?_, fun job' => ⟨?_, ?_⟩⟩
    · show queuedIn scheduler' s.log =
        handledIn scheduler' s.log ++ [job] ++ Function.update s.queue scheduler' rest scheduler'
      rw [Function.update_self, heq, hnone, hqueue]
      simp
    · rintro hjob
      cases hjob
      refine ⟨t, ?_⟩
      show held (Function.update s.frames t _ t) = _
      rw [Function.update_self]
      rfl
    · rintro ⟨u, hu⟩
      have hu : held (Function.update s.frames t _ u) = some (scheduler', job') := hu
      by_cases hut : u = t
      · subst hut
        rw [Function.update_self] at hu
        cases hu
        rfl
      · rw [Function.update_of_ne hut] at hu
        exact absurd ((hthreads.stacked u).currentQueue_of_held hu) (hfree u)
  · refine ⟨hand, Ordered.of_held ⟨heq, hhand⟩ (fun u job' => held_update_iff ?_ u) []
      (List.append_nil _).symm rfl ?_⟩
    · rw [held_of_atLarge hlarge]
      refine ⟨fun hsome => ?_, fun hnone => by cases hnone⟩
      cases hsome
      exact absurd rfl hsame
    · exact (Function.update_of_ne hsame ..).trans (List.append_nil _).symm

theorem ordered_move (hthreads : Threads cfg s) (hmove : Move cfg s s')
    (h : ∀ scheduler, ∃ hand, Ordered s scheduler hand) (scheduler : S) :
    ∃ hand, Ordered s' scheduler hand := by
  obtain ⟨hand, hordered⟩ := h scheduler
  cases hmove with
  | inPlace t scheduler' hlarge hruns =>
      refine ⟨hand, Ordered.record rfl rfl (Ordered.of_frames ?_ (Ordered.record rfl rfl hordered))⟩
      exact (held_of_atLarge hlarge).symm
  | queued scheduler' => exact ⟨hand, Ordered.enqueue (Ordered.record rfl rfl hordered) _ _⟩
  | delayed | timer => exact ⟨hand, Ordered.record rfl rfl hordered⟩
  | due scheduler' job => exact ⟨hand, Ordered.enqueue (s := { s with delayed := _ }) hordered _ _⟩
  | fire scheduler' job => exact ⟨hand, hordered.enqueue _ _⟩
  | cancel => exact ⟨hand, hordered⟩
  | serve t scheduler' job rest hqueue hfree hlarge hnone hmain =>
      exact Ordered.serve hthreads hqueue hfree hlarge h scheduler
  | skip t frame frames hframes hstage hcancelled =>
      have hstacked := hthreads.stacked t
      rw [hframes] at hstacked
      exact Ordered.resolve hthreads hframes (by rw [hstage]; decide)
        (held_of_atLarge hstacked.2.1) (fun _ => rfl) (fun _ => rfl) h scheduler
  | clear t frame frames hframes hstage hcancelled =>
      refine ⟨hand, Ordered.of_frames ?_ hordered⟩
      rw [hframes]
      show (if Stage.cleared = .running then none else _) = if frame.stage = .running then none else _
      rw [hstage]
      rfl
  | perform t frame frames hframes hstage =>
      exact Ordered.resolve hthreads hframes (by rw [hstage]; decide) rfl (fun _ => rfl)
        (fun _ => rfl) h scheduler
  | finish t frame frames hframes hstage =>
      have hstacked := hthreads.stacked t
      rw [hframes] at hstacked
      refine ⟨hand, Ordered.of_frames ?_ hordered⟩
      rw [held_of_atLarge hstacked.2.1, hframes, held, if_pos hstage]

/-- What came to a queue was started or skipped, is in the hand of a thread that asks
its token or is about to run it, or is still queued, in the order it came. -/
theorem in_order (h : (machine cfg).Reachable s) (scheduler : S) :
    ∃ hand, Ordered s scheduler hand := by
  have hinit : Threads cfg (.init : System S T) ∧
      ∀ scheduler, ∃ hand, Ordered (.init : System S T) scheduler hand := by
    refine ⟨⟨fun _ => trivial, fun _ _ _ hnone => by cases hnone⟩, fun _ => ⟨none, rfl, ?_⟩⟩
    refine fun job => ⟨fun hnone => (by cases hnone), ?_⟩
    rintro ⟨u, hu⟩
    cases hu
  have hreach := h.invariant
    (I := fun s => Threads cfg s ∧ ∀ scheduler, ∃ hand, Ordered s scheduler hand) hinit
    fun s a s' hs hen hstep => by
      cases hstep
      exact ⟨hs.1.move (move_of_step hen), ordered_move hs.1 (move_of_step hen) hs.2⟩
  exact hreach.2 scheduler

theorem in_order_nested : ∃ s, (machine mainAndWorker).Reachable s ∧
    (∃ hand, Ordered s false hand) ∧ queuedIn false s.log = [0, 1] := by
  have hreach : (machine mainAndWorker).Reachable _ := ⟨nested, Machine.run_of_exec rfl⟩
  exact ⟨_, hreach, in_order hreach false, rfl⟩

/-! ## At most once -/

/-- How often the block was delayed and waits, came to its queue, or was run in place. -/
def System.placed (s : System S T) (scheduler : S) (job : Nat) : Nat :=
  (s.delayed scheduler).count job + s.log.count (.queued scheduler job) +
    s.log.count (.started scheduler job true)

/-- A token is made for one block, which if it is no timer is placed once. -/
structure Once (s : System S T) (scheduler : S) (job : Nat) : Prop where
  fresh : s.next ≤ job → s.log.count (.submitted scheduler job) = 0 ∧
    job ∉ s.timers scheduler ∧ s.placed scheduler job = 0
  unique : s.log.count (.submitted scheduler job) ≤ 1
  balance : job ∉ s.timers scheduler →
    s.log.count (.submitted scheduler job) = s.placed scheduler job

/-- A step for another block, or one that moves this from the delayed to the queue, or
brings a timer to the queue. -/
def Keeps (s s' : System S T) (scheduler : S) (job : Nat) : Prop :=
  s'.log.count (.submitted scheduler job) = s.log.count (.submitted scheduler job) ∧
    (job ∈ s'.timers scheduler ↔ job ∈ s.timers scheduler) ∧
    (s'.placed scheduler job = s.placed scheduler job ∨ job ∈ s.timers scheduler)

/-- A step that makes the token of this block. -/
def Makes (s s' : System S T) (scheduler : S) (job : Nat) : Prop :=
  job = s.next ∧ job < s'.next ∧
    s'.log.count (.submitted scheduler job) = s.log.count (.submitted scheduler job) + 1 ∧
    (job ∈ s'.timers scheduler ∨ s'.placed scheduler job = s.placed scheduler job + 1)

theorem count_queuedIn (scheduler : S) (job : Nat) (log : List (Event S)) :
    (queuedIn scheduler log).count job = log.count (.queued scheduler job) := by
  induction log using List.reverseRecOn with
  | nil => rfl
  | append_singleton log e ih =>
      rw [queuedIn_append, List.count_append, List.count_append, ih]
      cases e with
      | queued scheduler' job' =>
          rw [Event.queuedBy]
          by_cases hsame : scheduler' = scheduler <;> simp [hsame, List.count_singleton]
      | submitted | started | skipped => rfl

theorem count_handledIn (scheduler : S) (job : Nat) (log : List (Event S)) :
    (handledIn scheduler log).count job =
      log.count (.started scheduler job false) + log.count (.skipped scheduler job) := by
  induction log using List.reverseRecOn with
  | nil => rfl
  | append_singleton log e ih =>
      rw [handledIn_append, List.count_append, List.count_append, List.count_append, ih]
      have hadd : (e.handledBy scheduler).toList.count job =
          [e].count (.started scheduler job false) + [e].count (.skipped scheduler job) := by
        cases e with
        | started scheduler' job' inPlace =>
            cases inPlace with
            | true => simp [Event.handledBy]
            | false =>
                rw [Event.handledBy]
                by_cases hsame : scheduler' = scheduler <;> simp [hsame, List.count_singleton]
        | skipped scheduler' job' =>
            rw [Event.handledBy]
            by_cases hsame : scheduler' = scheduler <;> simp [hsame, List.count_singleton]
        | submitted | queued => simp [Event.handledBy]
      omega

omit [DecidableEq T] in
theorem count_record (e x : Event S) :
    (s.record e).log.count x = s.log.count x + if e = x then 1 else 0 := by
  show (s.log ++ [e]).count x = _
  rw [List.count_append, List.count_singleton]
  simp

omit [DecidableEq T] in
/-- A block is added to those of a scheduler. -/
theorem count_update_append (f : S → List Nat) (scheduler scheduler' : S) (job job' : Nat) :
    (Function.update f scheduler (f scheduler ++ [job]) scheduler').count job' =
      (f scheduler').count job' + if scheduler = scheduler' ∧ job = job' then 1 else 0 := by
  by_cases hsame : scheduler = scheduler'
  · subst hsame
    rw [Function.update_self, List.count_append, List.count_singleton]
    simp
  · rw [Function.update_of_ne (Ne.symm hsame), if_neg fun h => hsame h.1, Nat.add_zero]

omit [DecidableEq T] in
/-- A block is taken from those of a scheduler. -/
theorem count_update_erase (f : S → List Nat) {scheduler : S} {job : Nat} (hmem : job ∈ f scheduler)
    (scheduler' : S) (job' : Nat) :
    (Function.update f scheduler ((f scheduler).erase job) scheduler').count job' +
      (if scheduler = scheduler' ∧ job = job' then 1 else 0) = (f scheduler').count job' := by
  by_cases hsame : scheduler = scheduler'
  · subst hsame
    rw [Function.update_self]
    by_cases hjob : job = job'
    · subst hjob
      have hpos := List.count_pos_iff.mpr hmem
      rw [List.count_erase_self, if_pos ⟨rfl, rfl⟩]
      omega
    · rw [List.count_erase_of_ne (Ne.symm hjob), if_neg fun h => hjob h.2, Nat.add_zero]
  · rw [Function.update_of_ne (Ne.symm hsame), if_neg fun h => hsame h.1, Nat.add_zero]

omit [DecidableEq T] in
/-- A new token, and a place for its block. -/
theorem makes_or_keeps (scheduler' : S) (hnext : s'.next = s.next + 1)
    (hcount : ∀ scheduler job, s'.log.count (.submitted scheduler job) =
      s.log.count (.submitted scheduler job) + if scheduler' = scheduler ∧ s.next = job then 1 else 0)
    (hnew : s.next ∈ s'.timers scheduler' ∨
      s'.placed scheduler' s.next = s.placed scheduler' s.next + 1)
    (hother : ∀ scheduler job, ¬ (scheduler' = scheduler ∧ s.next = job) →
      (job ∈ s'.timers scheduler ↔ job ∈ s.timers scheduler) ∧
        s'.placed scheduler job = s.placed scheduler job) (scheduler : S) (job : Nat) :
    s.next ≤ s'.next ∧ (Keeps s s' scheduler job ∨ Makes s s' scheduler job) := by
  refine ⟨hnext ▸ Nat.le_succ _, ?_⟩
  have hcount := hcount scheduler job
  by_cases hpair : scheduler' = scheduler ∧ s.next = job
  · rw [if_pos hpair] at hcount
    obtain ⟨rfl, rfl⟩ := hpair
    exact .inr ⟨rfl, hnext ▸ Nat.lt_succ_self _, hcount, hnew⟩
  · rw [if_neg hpair] at hcount
    obtain ⟨htimers, hplaced⟩ := hother scheduler job hpair
    exact .inl ⟨hcount, htimers, .inl hplaced⟩

theorem move_block (hmove : Move cfg s s') (scheduler : S) (job : Nat) :
    s.next ≤ s'.next ∧ (Keeps s s' scheduler job ∨ Makes s s' scheduler job) := by
  cases hmove with
  | inPlace t scheduler' hlarge hruns =>
      refine makes_or_keeps scheduler' rfl ?_ (.inr ?_) ?_ scheduler job <;>
        simp +contextual [System.submit, System.newToken, count_record, System.placed,
          Nat.add_assoc]
  | queued scheduler' =>
      refine makes_or_keeps scheduler' rfl ?_ (.inr ?_) ?_ scheduler job
      · simp [System.enqueue, System.newToken, count_record]
      · simp [System.enqueue, System.newToken, count_record, System.placed]
        omega
      · simp +contextual [System.enqueue, System.newToken, count_record, System.placed]
  | delayed scheduler' =>
      refine makes_or_keeps scheduler' rfl ?_ (.inr ?_) ?_ scheduler job <;>
        simp +contextual [System.newToken, count_record, System.placed, count_update_append,
          Nat.add_right_comm]
  | timer scheduler' =>
      refine makes_or_keeps scheduler' rfl ?_ (.inl ?_) (fun scheduler job hpair => ⟨?_, ?_⟩)
        scheduler job
      · simp [System.newToken, count_record]
      · simp
      · rw [← List.count_pos_iff, ← List.count_pos_iff]
        simp [count_update_append, hpair]
      · simp [System.newToken, count_record, System.placed]
  | due scheduler' job' hmem =>
      refine ⟨le_rfl, .inl ⟨by simp [System.enqueue, count_record], Iff.rfl, .inl ?_⟩⟩
      have hcount := count_update_erase s.delayed hmem scheduler job
      simp [System.enqueue, count_record, System.placed]
      omega
  | fire scheduler' job' hmem =>
      refine ⟨le_rfl, .inl ⟨by simp [System.enqueue, count_record], Iff.rfl, ?_⟩⟩
      by_cases hpair : scheduler' = scheduler ∧ job' = job
      · obtain ⟨rfl, rfl⟩ := hpair
        exact .inr hmem
      · exact .inl (by simp [System.enqueue, count_record, System.placed, hpair])
  | skip | perform =>
      exact ⟨le_rfl, .inl ⟨by simp [count_record], Iff.rfl,
        .inl (by simp [System.placed, count_record])⟩⟩
  | cancel | serve | clear | finish => exact ⟨le_rfl, .inl ⟨rfl, Iff.rfl, .inl rfl⟩⟩

theorem Once.move {scheduler : S} {job : Nat} (h : Once s scheduler job) (hmove : Move cfg s s') :
    Once s' scheduler job := by
  obtain ⟨hle, ⟨hcount, htimers, hplaced⟩ | ⟨rfl, hlt, hcount, hplaced⟩⟩ :=
    move_block hmove scheduler job
  · refine ⟨fun hfresh => ?_, hcount ▸ h.unique, fun hnot => ?_⟩
    · obtain ⟨hzero, hnot, hnone⟩ := h.fresh (hle.trans hfresh)
      exact ⟨hcount.trans hzero, fun hmem => hnot (htimers.mp hmem),
        (hplaced.resolve_right hnot).trans hnone⟩
    · have hnot : job ∉ s.timers scheduler := fun hmem => hnot (htimers.mpr hmem)
      rw [hcount, hplaced.resolve_right hnot]
      exact h.balance hnot
  · obtain ⟨hzero, -, hnone⟩ := h.fresh le_rfl
    rw [hzero] at hcount
    rw [hnone] at hplaced
    refine ⟨fun hfresh => absurd hfresh (Nat.not_le_of_lt hlt), hcount.le, fun hnot => ?_⟩
    rw [hcount, hplaced.resolve_left hnot]

/-- What was skipped is cancelled, and what is cancelled has a token. -/
structure Cancels (s : System S T) : Prop where
  skipped : ∀ scheduler job, .skipped scheduler job ∈ s.log → s.cancelled job = true
  token : ∀ job, s.cancelled job = true → job < s.next

omit [DecidableEq S] [DecidableEq T] in
/-- No token is cancelled, and only cancelled ones are skipped. -/
theorem Cancels.of_log (h : Cancels s) {events : List (Event S)} (hlog : s'.log = s.log ++ events)
    (hcancelled : s'.cancelled = s.cancelled) (hnext : s.next ≤ s'.next)
    (hevents : ∀ scheduler job, .skipped scheduler job ∈ events → s.cancelled job = true) :
    Cancels s' := by
  refine ⟨fun scheduler job hmem => ?_, fun job hjob => ?_⟩
  · rw [hlog] at hmem
    rw [hcancelled]
    rcases List.mem_append.mp hmem with hmem | hmem
    · exact h.skipped scheduler job hmem
    · exact hevents scheduler job hmem
  · rw [hcancelled] at hjob
    exact (h.token job hjob).trans_le hnext

theorem Cancels.move (h : Cancels s) (hmove : Move cfg s s') : Cancels s' := by
  cases hmove with
  | inPlace | queued =>
      exact h.of_log (List.append_assoc ..) rfl (Nat.le_succ _) fun _ _ hmem => by simp at hmem
  | delayed | timer => exact h.of_log rfl rfl (Nat.le_succ _) fun _ _ hmem => by simp at hmem
  | due | fire | perform => exact h.of_log rfl rfl le_rfl fun _ _ hmem => by simp at hmem
  | serve | clear | finish => exact ⟨h.skipped, h.token⟩
  | skip t frame frames hframes hstage hcancelled =>
      refine h.of_log rfl rfl le_rfl fun scheduler job hmem => ?_
      cases List.mem_singleton.mp hmem
      exact hcancelled
  | cancel job hlt =>
      refine ⟨fun scheduler job' hmem => ?_, fun job' hjob => ?_⟩
      · show Function.update s.cancelled job true job' = true
        rw [Function.update_apply, h.skipped scheduler job' hmem, ite_self]
      · have hjob : Function.update s.cancelled job true job' = true := hjob
        rw [Function.update_apply] at hjob
        split at hjob
        next heq => rwa [heq]
        next => exact h.token job' hjob

theorem cancels_of_reachable (h : (machine cfg).Reachable s) : Cancels s := by
  have hinit : Cancels (.init : System S T) :=
    ⟨fun _ _ hmem => absurd hmem List.not_mem_nil, fun _ hjob => by cases hjob⟩
  refine h.invariant hinit fun s a s' hs hen hstep => ?_
  cases hstep
  exact hs.move (move_of_step hen)

/-- A block that is no timer is run in place, is run from the queue, is skipped, or waits:
one of them and once, if it was submitted.  It is skipped only if it was cancelled. -/
theorem runs_once (h : (machine cfg).Reachable s) {scheduler : S} {job : Nat}
    (honce : job ∉ s.timers scheduler) :
    (∃ inHand, s.log.count (.submitted scheduler job) =
        s.log.count (.started scheduler job true) + s.log.count (.started scheduler job false) +
          s.log.count (.skipped scheduler job) + (s.delayed scheduler).count job +
          (s.queue scheduler).count job + inHand ∧
        (inHand ≠ 0 ↔ ∃ t, held (s.frames t) = some (scheduler, job))) ∧
      s.log.count (.submitted scheduler job) ≤ 1 ∧
      (.skipped scheduler job ∈ s.log → s.cancelled job = true) := by
  have hone : Once s scheduler job := by
    have hinit : Once (.init : System S T) scheduler job :=
      ⟨fun _ => ⟨rfl, List.not_mem_nil, rfl⟩, Nat.zero_le 1, fun _ => rfl⟩
    refine h.invariant (I := fun s => Once s scheduler job) hinit fun s a s' hs hen hstep => ?_
    cases hstep
    exact hs.move (move_of_step hen)
  refine ⟨?_, hone.unique, (cancels_of_reachable h).skipped scheduler job⟩
  obtain ⟨hand, heq, hhand⟩ := in_order h scheduler
  have hcount := congrArg (List.count job) heq
  rw [List.count_append, List.count_append, count_queuedIn, count_handledIn] at hcount
  refine ⟨hand.toList.count job, ?_, ?_⟩
  · rw [hone.balance honce, System.placed, hcount]
    omega
  · rw [← hhand job, ← Nat.pos_iff_ne_zero, List.count_pos_iff, Option.mem_toList]

/-- The second block of `nested` is skipped in the end. -/
theorem runs_once_nested : ∃ s, (machine mainAndWorker).Reachable s ∧
    s.log.count (.skipped false 1) = 1 ∧ s.log.count (.submitted false 1) ≤ 1 ∧
    s.cancelled 1 = true := by
  obtain ⟨s, hreach, hcount, hmem, htimers⟩ : ∃ s, (machine mainAndWorker).Reachable s ∧
      s.log.count (.skipped false 1) = 1 ∧ .skipped false 1 ∈ s.log ∧ s.timers false = [] :=
    ⟨_, ⟨nested ++ [.finish false, .finish false, .serve false false, .check false],
      Machine.run_of_exec rfl⟩, rfl, by decide, rfl⟩
  have honce : 1 ∉ s.timers false := by
    rw [htimers]
    exact List.not_mem_nil
  obtain ⟨-, hle, hcancelled⟩ := runs_once hreach honce
  exact ⟨s, hreach, hcount, hle, hcancelled hmem⟩

/-! ## After `cancel` -/

/-- How often the block of a token has started. -/
def starts (job : Nat) (log : List (Event S)) : Nat :=
  log.countP fun
    | .started _ job' _ => job' = job
    | _ => false

omit [DecidableEq S] [DecidableEq T] in
theorem starts_record (job : Nat) (e : Event S) :
    starts job (s.record e).log = starts job s.log + starts job [e] :=
  List.countP_append

/-- A thread has asked for the token of the block and not started it yet. -/
def Cleared (s : System S T) (job : Nat) : Prop :=
  ∃ t, ∃ frame ∈ s.frames t, frame.stage = .cleared ∧ frame.job = job

omit [DecidableEq S] in
/-- The blocks of one thread change, none of them to this one asked for. -/
theorem not_cleared_update {job : Nat} (h : ¬ Cleared s job) {t : T} {frames : List (Frame S)}
    (hframes : s'.frames = Function.update s.frames t frames)
    (hnew : ∀ frame ∈ frames, frame ∈ s.frames t ∨ frame.stage ≠ .cleared ∨ frame.job ≠ job) :
    ¬ Cleared s' job := by
  rintro ⟨u, frame, hmem, hstage, hjob⟩
  rw [hframes] at hmem
  by_cases hut : u = t
  · subst hut
    rw [Function.update_self] at hmem
    rcases hnew frame hmem with hmem | hother | hother
    · exact h ⟨u, frame, hmem, hstage, hjob⟩
    · exact hother hstage
    · exact hother hjob
  · rw [Function.update_of_ne hut] at hmem
    exact h ⟨u, frame, hmem, hstage, hjob⟩

/-- A cancelled block that no thread has asked for does not start. -/
theorem starts_move (hmove : Move cfg s s') {job : Nat} (hlt : job < s.next)
    (hcancelled : s.cancelled job = true) (hasked : ¬ Cleared s job) :
    (job < s'.next ∧ s'.cancelled job = true ∧ ¬ Cleared s' job) ∧
      starts job s'.log = starts job s.log := by
  cases hmove with
  | inPlace t scheduler =>
      refine ⟨⟨hlt.trans (Nat.lt_succ_self _), hcancelled, ?_⟩, ?_⟩
      · refine not_cleared_update hasked rfl fun frame hmem => ?_
        rcases List.mem_cons.mp hmem with rfl | hmem
        · exact .inr (.inl Stage.noConfusion)
        · exact .inl hmem
      · refine (starts_record job _).trans ?_
        simp [starts, System.newToken, System.record, hlt.ne']
  | queued scheduler =>
      refine ⟨⟨hlt.trans (Nat.lt_succ_self _), hcancelled, hasked⟩, ?_⟩
      simp [starts, System.enqueue, System.newToken, System.record]
  | delayed | timer =>
      refine ⟨⟨hlt.trans (Nat.lt_succ_self _), hcancelled, hasked⟩, ?_⟩
      simp [starts, System.newToken, System.record]
  | due | fire =>
      refine ⟨⟨hlt, hcancelled, hasked⟩, ?_⟩
      simp [starts, System.enqueue, System.record]
  | cancel job' =>
      refine ⟨⟨hlt, ?_, hasked⟩, rfl⟩
      show Function.update s.cancelled job' true job = true
      rw [Function.update_apply, hcancelled, ite_self]
  | serve t =>
      refine ⟨⟨hlt, hcancelled, not_cleared_update hasked rfl fun frame hmem => ?_⟩, rfl⟩
      rcases List.mem_cons.mp hmem with rfl | hmem
      · exact .inr (.inl Stage.noConfusion)
      · exact .inl hmem
  | skip t frame frames hframes =>
      refine ⟨⟨hlt, hcancelled, not_cleared_update hasked rfl fun frame' hmem => .inl ?_⟩, ?_⟩
      · rw [hframes]
        exact List.mem_cons_of_mem _ hmem
      · simp [starts, System.record]
  | clear t frame frames hframes hstage hnot =>
      refine ⟨⟨hlt, hcancelled, not_cleared_update hasked rfl fun frame' hmem => ?_⟩, rfl⟩
      rcases List.mem_cons.mp hmem with rfl | hmem
      · refine .inr (.inr fun hjob => ?_)
        rw [← hjob] at hcancelled
        exact Bool.false_ne_true (hnot.symm.trans hcancelled)
      · rw [hframes]
        exact .inl (List.mem_cons_of_mem _ hmem)
  | perform t frame frames hframes hstage =>
      have hother : frame.job ≠ job := by
        refine fun hjob => hasked ⟨t, frame, ?_, hstage, hjob⟩
        rw [hframes]
        exact List.mem_cons_self
      refine ⟨⟨hlt, hcancelled, not_cleared_update hasked rfl fun frame' hmem => ?_⟩, ?_⟩
      · rcases List.mem_cons.mp hmem with rfl | hmem
        · exact .inr (.inl Stage.noConfusion)
        · rw [hframes]
          exact .inl (List.mem_cons_of_mem _ hmem)
      · simp [starts, System.record, hother]
  | finish t frame frames hframes =>
      refine ⟨⟨hlt, hcancelled, not_cleared_update hasked rfl fun frame' hmem => .inl ?_⟩, rfl⟩
      rw [hframes]
      exact List.mem_cons_of_mem _ hmem

omit [DecidableEq S] [DecidableEq T] in
/-- Only the innermost block is not running. -/
theorem Stacked.top {t : T} {frames : List (Frame S)} (h : Stacked cfg t frames) {frame : Frame S}
    (hmem : frame ∈ frames) (hstage : frame.stage ≠ .running) :
    ∃ rest, frames = frame :: rest := by
  induction frames with
  | nil => cases hmem
  | cons top frames ih =>
      rcases List.mem_cons.mp hmem with rfl | hmem
      · exact ⟨frames, rfl⟩
      · obtain ⟨rest, rfl⟩ := ih h.1 hmem
        exact absurd h.2.1 hstage

/-- The block of a cancelled token starts in some later state exactly if a thread had asked
the token when it was cancelled, and not started the block. -/
theorem cancelled_starts_iff (h : (machine cfg).Reachable s) {job : Nat}
    (hcancelled : s.cancelled job = true) :
    (∃ as s', (machine cfg).Path Machine.anyAction s as s' ∧
      starts job s.log < starts job s'.log) ↔ Cleared s job := by
  constructor
  · rintro ⟨as, s', hpath, hlt⟩
    refine Classical.byContradiction fun hasked => ?_
    have hlater := hpath.invariant
      (I := fun s' => (job < s'.next ∧ s'.cancelled job = true ∧ ¬ Cleared s' job) ∧
        starts job s'.log = starts job s.log)
      ⟨⟨(cancels_of_reachable h).token job hcancelled, hcancelled, hasked⟩, rfl⟩
      fun s₁ a s₂ hs₁ hen _ hstep => by
        cases hstep
        obtain ⟨⟨hnext, hcancelled, hasked⟩, hstarts⟩ := hs₁
        have hmove := starts_move (move_of_step hen) hnext hcancelled hasked
        exact ⟨hmove.1, hmove.2.trans hstarts⟩
    omega
  · rintro ⟨t, frame, hmem, hstage, rfl⟩
    obtain ⟨rest, hframes⟩ := ((threads_of_reachable h).stacked t).top hmem
      (by rw [hstage]; exact Stage.noConfusion)
    have hen : s.enabled cfg (.perform t) := by
      show TopAt .cleared (s.frames t)
      rw [hframes]
      exact hstage
    refine ⟨[.perform t], _, .step .here hen trivial rfl, ?_⟩
    rw [System.step, System.perform, hframes]
    simp [starts, System.record]

/-- The second block was asked for before it was cancelled. -/
theorem cancelled_starts_iff_late : ∃ s, (machine mainAndWorker).Reachable s ∧
    s.cancelled 0 = true ∧
    ∃ as s', (machine mainAndWorker).Path Machine.anyAction s as s' ∧
      starts 0 s.log < starts 0 s'.log := by
  have hreach : (machine mainAndWorker).Reachable _ :=
    ⟨[.submit true false .schedule, .serve false false, .check false, .cancel 0],
      Machine.run_of_exec rfl⟩
  refine ⟨_, hreach, rfl, (cancelled_starts_iff hreach rfl).mpr ?_⟩
  exact ⟨false, _, List.mem_cons_self, rfl, rfl⟩

end RxQueueScheduler

end Rx
