/-
# `RxScheduler.RunLoopSchedulerSpec` — one token, and who may block for it

`Turnstile` is about the semaphore and the places of the threads: there is no token
before the start-up has signalled and one from then on, and nobody is past a wait
before.  `Ready` is about the scheduler and its run loop: what is known at which
stage, and that the signalling block is all there is on the run loop until it has
run.  Each step keeps both (`Started.step`), for the three ways to initialise.

The start-up block runs on the run loop's thread, and that thread may call the
scheduler from a callback.  Before the block has signalled such a call waits for
ever (`deadlock_iff_call`); it can come first on another thread's run loop only.
-/
import CrashRealm.Lib.Semaphore
import CrashRealm.RxScheduler.RunLoopScheduler

namespace Rx

namespace RxRunLoopScheduler

open Semaphore

variable {T : Type} {way : Way} {r : T}

/-- The tokens there are at a stage. -/
def Stage.tokens (stage : Stage) : Nat := if stage = .signalled then 1 else 0

theorem Stage.tokens_of_ne {stage : Stage} (h : stage ≠ .signalled) : stage.tokens = 0 := if_neg h

theorem Stage.eq_of_tokens {stage : Stage} (h : 0 < stage.tokens) : stage = .signalled := by
  by_contra hne
  rw [tokens_of_ne hne] at h
  exact Nat.lt_irrefl 0 h

/-! ## The turnstile -/

/-- One token once the start-up has signalled, none before, and nobody past a wait before. -/
structure Turnstile (stage : Stage) (semaphore : Nat) (place : T → Place) : Prop where
  tokens : Tokens semaphore (holders place Place.between) stage.tokens
  past : ∀ t, (place t).past = true → stage = .signalled

namespace Turnstile

variable {stage : Stage} {semaphore : Nat} {place : T → Place}

/-- The start-up goes on and has not signalled. -/
theorem advance (h : Turnstile stage semaphore place) (hne : stage ≠ .signalled) {stage' : Stage}
    (hne' : stage' ≠ .signalled) : Turnstile stage' semaphore place where
  tokens := by
    rw [Stage.tokens_of_ne hne', ← Stage.tokens_of_ne hne]
    exact h.tokens
  past := fun t ht => absurd (h.past t ht) hne

/-- The start-up signals. -/
theorem start (h : Turnstile stage semaphore place) (hne : stage ≠ .signalled) :
    Turnstile .signalled (semaphore + 1) place where
  tokens := by
    have htokens := h.tokens
    rw [Stage.tokens_of_ne hne] at htokens
    exact htokens.make
  past := fun _ _ => rfl

variable [DecidableEq T]

/-- A place that is past its wait only if there was a token. -/
theorem past_update (h : Turnstile stage semaphore place) {t : T} {p : Place}
    (hp : p.past = true → stage = .signalled) :
    ∀ u, (Function.update place t p u).past = true → stage = .signalled := by
  intro u hu
  by_cases hut : u = t
  · subst hut
    rw [Function.update_self] at hu
    exact hp hu
  · rw [Function.update_of_ne hut] at hu
    exact h.past u hu

/-- A thread that takes and returns no token. -/
theorem move (h : Turnstile stage semaphore place) {t : T} {p : Place}
    (hbetween : p.between = (place t).between) (hp : p.past = true → stage = .signalled) :
    Turnstile stage semaphore (Function.update place t p) where
  tokens := by
    rw [holders_update hbetween]
    exact h.tokens
  past := h.past_update hp

/-- A wait that returns. -/
theorem wait (h : Turnstile stage semaphore place) {t : T} {p : Place} (hpos : 0 < semaphore)
    (ht : (place t).between = false) (hp : p.between = true) :
    Turnstile stage (semaphore - 1) (Function.update place t p) where
  tokens := by
    rw [holders_update_in hp]
    refine h.tokens.wait hpos fun hmem => ?_
    exact Bool.false_ne_true (ht.symm.trans (mem_holders.mp hmem))
  past := h.past_update fun _ => Stage.eq_of_tokens (h.tokens.pos_of_value hpos)

/-- A signal by a thread that waited. -/
theorem signal (h : Turnstile stage semaphore place) {t : T} {p : Place}
    (ht : (place t).between = true) (hp : p.between = false) :
    Turnstile stage (semaphore + 1) (Function.update place t p) where
  tokens := by
    rw [holders_update_out hp]
    exact h.tokens.signal ht
  past := h.past_update fun _ => Stage.eq_of_tokens (h.tokens.pos_of_holder (mem_holders.mpr ht))

end Turnstile

/-! ## The run loop -/

/-- What is known of the run loop, and what it has to do, at each stage. -/
structure Ready (way : Way) (r : T) (stage : Stage) (ivars : Ivars T) (loop : RunLoop) : Prop where
  known : stage = .performing ∨ stage = .signalled →
    ivars.runloop = some r ∧ ivars.cfRunLoop = some r ∧ ivars.pthread = some r
  half : stage = .queued → ivars.runloop = some r ∧ ivars.cfRunLoop = some r ∧
    (way ≠ .other → ivars.pthread = some r)
  early : stage ≠ .signalled → loop.blocks = if stage = .queued then [.start] else []
  late : stage = .signalled → .start ∉ loop.blocks
  /-- the scheduler's own run loop runs nothing before the start-up block -/
  quiet : way = .own → stage ≠ .signalled → loop.sources = false ∧ loop.busy = false
  performing : stage = .performing → loop.busy = false
  creating : stage = .dispatched ∨ stage = .created → way = .own
  direct : way = .current → stage = .starting ∨ stage = .signalled

/-- The invariant of a start-up. -/
structure Started (way : Way) (r : T) (s : System T) : Prop where
  turnstile : Turnstile s.stage s.semaphore s.place
  ready : Ready way r s.stage s.ivars s.loop

namespace Started

variable {s s' : System T}

theorem init : Started way r (.init way : System T) where
  turnstile :=
    { tokens := by
        have hnone : holders (fun _ : T => Place.outside) Place.between = ∅ := by
          ext t
          exact iff_of_false Bool.false_ne_true fun h => h
        show Tokens 0 (holders (fun _ : T => Place.outside) Place.between) 0
        rw [hnone]
        exact Tokens.none
      past := fun _ h => absurd h Bool.false_ne_true }
  ready :=
    { known := fun h => by rcases h with h | h <;> cases h
      half := fun h => by cases h
      early := fun _ => rfl
      late := fun h => by cases h
      quiet := by
        rintro rfl -
        exact ⟨rfl, rfl⟩
      performing := fun h => by cases h
      creating := fun h => by rcases h with h | h <;> cases h
      direct := fun _ => .inl rfl }

/-- The signalling block is put on an empty run loop, by whoever knows the run loop. -/
theorem queue (h : Started way r s) (hstage : s.stage ≠ .signalled) (hqueued : s.stage ≠ .queued)
    (hway : way ≠ .current) {ivars : Ivars T} (hivars : ivars.runloop = some r ∧ ivars.cfRunLoop = some r ∧
      (way ≠ .other → ivars.pthread = some r)) :
    Started way r { s with ivars, loop := s.loop.performBlock .start, stage := .queued } where
  turnstile := h.turnstile.advance hstage Stage.noConfusion
  ready :=
    { known := fun h => by rcases h with h | h <;> cases h
      half := fun _ => hivars
      early := by
        intro _
        have hblocks := h.ready.early hstage
        rw [if_neg hqueued] at hblocks
        show s.loop.blocks ++ [.start] = [.start]
        rw [hblocks, List.nil_append]
      late := fun h => by cases h
      quiet := fun hown _ => h.ready.quiet hown hstage
      performing := fun h => by cases h
      creating := fun h => by rcases h with h | h <;> cases h
      direct := fun hcurrent => absurd hcurrent hway }

theorem initWithName (h : Started way r s) (hstage : s.stage = .starting) :
    Started way r (s.initWithName way r) := by
  have hne : s.stage ≠ .signalled := hstage.trans_ne Stage.noConfusion
  have hqueued : s.stage ≠ .queued := hstage.trans_ne Stage.noConfusion
  cases way with
  | own =>
      exact
        { turnstile := h.turnstile.advance hne Stage.noConfusion
          ready :=
            { known := fun h => by rcases h with h | h <;> cases h
              half := fun h => by cases h
              early := fun _ => (h.ready.early hne).trans (if_neg hqueued)
              late := fun h => by cases h
              quiet := fun hown _ => h.ready.quiet hown hne
              performing := fun h => by cases h
              creating := fun _ => rfl
              direct := fun h => by cases h } }
  | current =>
      exact
        { turnstile := h.turnstile.start hne
          ready :=
            { known := fun _ => ⟨rfl, rfl, rfl⟩
              half := fun h => by cases h
              early := fun h => absurd rfl h
              late := by
                intro _
                show .start ∉ s.loop.blocks
                rw [h.ready.early hne, if_neg hqueued]
                exact List.not_mem_nil
              quiet := fun h => by cases h
              performing := fun h => by cases h
              creating := fun h => by rcases h with h | h <;> cases h
              direct := fun _ => .inr rfl } }
  | other => exact h.queue hne hqueued Way.noConfusion ⟨rfl, rfl, fun hne => absurd rfl hne⟩

theorem entry (h : Started way r s) (hstage : s.stage = .created) : Started way r (s.entry r) := by
  refine h.queue (hstage.trans_ne Stage.noConfusion) (hstage.trans_ne Stage.noConfusion)
    ?_ ⟨rfl, rfl, fun _ => rfl⟩
  rw [h.ready.creating (.inr hstage)]
  exact Way.noConfusion

/-- The signalling block starts: then everything is known. -/
theorem performStart (h : Started way r s) (hstage : s.stage = .queued) (hidle : s.idle r) :
    Started way r ({ s with loop := { s.loop with blocks := [] } }.performStart way r) := by
  have hne : s.stage ≠ .signalled := hstage.trans_ne Stage.noConfusion
  obtain ⟨hrunloop, hcf, hpthread⟩ := h.ready.half hstage
  have hready : ∀ ivars : Ivars T, ivars.runloop = some r → ivars.cfRunLoop = some r →
      ivars.pthread = some r → Ready way r .performing ivars { s.loop with blocks := [] } := by
    intro ivars h₁ h₂ h₃
    exact
      { known := fun _ => ⟨h₁, h₂, h₃⟩
        half := fun h => by cases h
        early := fun _ => rfl
        late := fun h => by cases h
        quiet := fun hown _ => h.ready.quiet hown hne
        performing := fun _ => hidle.1
        creating := fun h => by rcases h with h | h <;> cases h
        direct := fun hcurrent => absurd (h.ready.direct hcurrent) (by rw [hstage]; simp) }
  have hturnstile : Turnstile .performing s.semaphore s.place :=
    h.turnstile.advance hne Stage.noConfusion
  cases way with
  | own => exact ⟨hturnstile, hready _ hrunloop hcf (hpthread Way.noConfusion)⟩
  | current => exact ⟨hturnstile, hready _ hrunloop hcf (hpthread Way.noConfusion)⟩
  | other => exact ⟨hturnstile, hready _ hrunloop hcf rfl⟩

theorem perform (h : Started way r s) (hidle : s.idle r) : Started way r (s.perform way r) := by
  rw [System.perform]
  split
  next => exact h
  next blocks hblocks =>
    have hne : s.stage ≠ .signalled := fun hsig =>
      h.ready.late hsig (hblocks ▸ List.mem_cons_self)
    have hearly := h.ready.early hne
    rw [hblocks] at hearly
    by_cases hqueued : s.stage = .queued
    · rw [if_pos hqueued] at hearly
      cases hearly
      exact h.performStart hqueued hidle
    · rw [if_neg hqueued] at hearly
      cases hearly
  next blocks hblocks =>
    have hsig : s.stage = .signalled := by
      by_contra hne
      have hearly := h.ready.early hne
      rw [hblocks] at hearly
      split at hearly <;> cases hearly
    exact
      { turnstile := h.turnstile
        ready :=
          { known := h.ready.known
            half := h.ready.half
            early := fun hne => absurd hsig hne
            late := fun _ hmem => h.ready.late hsig (hblocks ▸ List.mem_cons_of_mem _ hmem)
            quiet := fun _ hne => absurd hsig hne
            performing := fun hperf => by rw [hsig] at hperf; cases hperf
            creating := h.ready.creating
            direct := h.ready.direct } }

theorem signalStart (h : Started way r s) (hstage : s.stage = .performing) :
    Started way r { s with semaphore := s.semaphore + 1, stage := .signalled } := by
  have hne : s.stage ≠ .signalled := hstage.trans_ne Stage.noConfusion
  have hqueued : s.stage ≠ .queued := hstage.trans_ne Stage.noConfusion
  exact
    { turnstile := h.turnstile.start hne
      ready :=
        { known := fun _ => h.ready.known (.inl hstage)
          half := fun h => by cases h
          early := fun h => absurd rfl h
          late := by
            intro _
            show .start ∉ s.loop.blocks
            rw [h.ready.early hne, if_neg hqueued]
            exact List.not_mem_nil
          quiet := fun _ h => absurd rfl h
          performing := fun h => by cases h
          creating := fun h => by rcases h with h | h <;> cases h
          direct := fun _ => .inr rfl } }

/-- The run loop's timers, sources and callbacks come and go, on the scheduler's own
run loop once it has signalled. -/
theorem callbacks (h : Started way r s) (sources busy : Bool)
    (hown : way = .own → s.stage ≠ .signalled → sources = false ∧ busy = false)
    (hperforming : s.stage = .performing → busy = false) :
    Started way r { s with loop := { s.loop with sources, busy } } where
  turnstile := h.turnstile
  ready := { h.ready with quiet := hown, performing := hperforming }

/-- Who is past a wait finds everything known. -/
theorem known_of_past (h : Started way r s) {t : T} (ht : (s.place t).past = true) :
    s.ivars.runloop = some r ∧ s.ivars.cfRunLoop = some r ∧ s.ivars.pthread = some r :=
  h.ready.known (.inr (h.turnstile.past t ht))

variable [DecidableEq T]

theorem createThread (h : Started way r s) (hstage : s.stage = .dispatched) {t : T}
    (ht : s.place t = .outside) :
    Started way r ({ s with stage := .created }.setPlace t .startWaiting) := by
  have hne : s.stage ≠ .signalled := hstage.trans_ne Stage.noConfusion
  have hqueued : s.stage ≠ .queued := hstage.trans_ne Stage.noConfusion
  exact
    { turnstile := (h.turnstile.advance hne Stage.noConfusion).move (by rw [ht]; rfl)
        fun h => absurd h Bool.false_ne_true
      ready :=
        { known := fun h => by rcases h with h | h <;> cases h
          half := fun h => by cases h
          early := fun _ => (h.ready.early hne).trans (if_neg hqueued)
          late := fun h => by cases h
          quiet := fun hown _ => h.ready.quiet hown hne
          performing := fun h => by cases h
          creating := fun _ => h.ready.creating (.inl hstage)
          direct := fun hcurrent => by
            rw [h.ready.creating (.inl hstage)] at hcurrent
            cases hcurrent } }

theorem wake (h : Started way r s) {t : T} (hpos : 0 < s.semaphore) : Started way r (s.wake t) := by
  rw [System.wake]
  split
  next hplace => exact ⟨h.turnstile.wait hpos (by rw [hplace]; rfl) rfl, h.ready⟩
  next hplace => exact ⟨h.turnstile.wait hpos (by rw [hplace]; rfl) rfl, h.ready⟩
  next => exact h

theorem signal (h : Started way r s) {t : T} : Started way r (s.signal t) := by
  rw [System.signal]
  split
  next hplace => exact ⟨h.turnstile.signal (by rw [hplace]; rfl) rfl, h.ready⟩
  next hplace => exact ⟨h.turnstile.signal (by rw [hplace]; rfl) rfl, h.ready⟩
  next => exact h

/-- The assertions of the initialiser's block hold. -/
theorem check_eq (h : Started way r s) {t : T} (ht : s.place t = .startPassed) :
    s.check t = .ok (s.setPlace t .startChecked) := by
  obtain ⟨hrunloop, hcf, -⟩ := h.known_of_past (t := t) (by rw [ht]; rfl)
  rw [System.check, hcf, hrunloop, if_neg (Option.some_ne_none r), if_neg (Option.some_ne_none r)]

/-- What a method leaves on the run loop is not the start-up block. -/
theorem start_mem_useLoop {t : T} {method : Method} (h : .start ∈ (s.useLoop t method).blocks) :
    .start ∈ s.loop.blocks := by
  cases method with
  | schedule =>
      change .start ∈ (if _ then s.loop else s.loop.performBlock .caller).blocks at h
      split at h
      · exact h
      · rcases List.mem_append.mp h with h | h
        · exact h
        · cases List.mem_singleton.mp h
  | after | afterRepeating =>
      change .start ∈ (if _ then s.loop else { s.loop with sources := true }).blocks at h
      split at h <;> exact h

theorem finish (h : Started way r s) {t : T} : Started way r (s.finish t) := by
  rw [System.finish]
  split
  next method hplace =>
    have hsig : s.stage = .signalled := h.turnstile.past t (by rw [hplace]; rfl)
    exact
      { turnstile := h.turnstile.move (by rw [hplace]; rfl) fun h => absurd h Bool.false_ne_true
        ready :=
          { known := h.ready.known
            half := h.ready.half
            early := fun hne => absurd hsig hne
            late := fun hsig hmem => h.ready.late hsig (start_mem_useLoop hmem)
            quiet := fun _ hne => absurd hsig hne
            performing := fun hperf => by rw [show s.stage = _ from hsig] at hperf; cases hperf
            creating := h.ready.creating
            direct := h.ready.direct } }
  next => exact h

theorem step (h : Started way r s) {a : Action T} (hen : s.enabled r a)
    (hstep : s.step way r a = .ok s') : Started way r s' := by
  cases a with
  | initWithName => cases hstep; exact h.initWithName hen
  | createThread t created =>
      rw [System.step] at hstep
      split at hstep
      next => cases hstep; exact h.createThread hen.1 hen.2.1
      next => cases hstep
  | entry => cases hstep; exact h.entry hen
  | perform => cases hstep; exact h.perform hen.1
  | signalStart => cases hstep; exact h.signalStart hen
  | fire =>
      cases hstep
      refine h.callbacks s.loop.sources true (fun hown hne => ?_) fun hperf => ?_
      · exact absurd hen.2 (by rw [(h.ready.quiet hown hne).1]; exact Bool.false_ne_true)
      · exact absurd hperf hen.1.2.2
  | addSource =>
      cases hstep
      refine h.callbacks true s.loop.busy (fun hown hne => ?_) h.ready.performing
      exact absurd hen.1 (by rw [(h.ready.quiet hown hne).2]; exact Bool.false_ne_true)
  | ret =>
      cases hstep
      exact h.callbacks s.loop.sources false
        (fun hown hne => ⟨(h.ready.quiet hown hne).1, rfl⟩) fun _ => rfl
  | call t method =>
      cases hstep
      exact ⟨h.turnstile.move (by rw [hen.2.1]; rfl) fun h => absurd h Bool.false_ne_true, h.ready⟩
  | wake t => cases hstep; exact h.wake hen.2
  | check t =>
      rw [System.step, h.check_eq hen] at hstep
      cases hstep
      have hsig : s.stage = .signalled := h.turnstile.past t (by rw [show s.place t = _ from hen]; rfl)
      exact ⟨h.turnstile.move (by rw [show s.place t = _ from hen]; rfl) fun _ => hsig, h.ready⟩
  | signal t => cases hstep; exact h.signal
  | finish t => cases hstep; exact h.finish

theorem of_reachable (h : (machine way r).Reachable s) : Started way r s :=
  h.invariant init fun _ _ _ hs hen hstep => hs.step hen hstep

end Started

variable [DecidableEq T]

/-- No token before the start-up has signalled and one afterwards; and whoever is
past a wait finds the run loop and the thread. -/
theorem one_token {s : System T} (h : (machine way r).Reachable s) :
    (holders s.place Place.between).Finite ∧
      s.semaphore + (holders s.place Place.between).ncard =
        (if s.stage = .signalled then 1 else 0) ∧
      ∀ t, (s.place t).past = true →
        s.ivars.cfRunLoop = some r ∧ s.ivars.runloop = some r ∧ s.ivars.pthread = some r := by
  have hs := Started.of_reachable h
  refine ⟨hs.turnstile.tokens.finite, hs.turnstile.tokens.sum, fun t ht => ?_⟩
  obtain ⟨hrunloop, hcf, hpthread⟩ := hs.known_of_past ht
  exact ⟨hcf, hrunloop, hpthread⟩

theorem one_token_schedule :
    ∃ s : System Nat, s.semaphore = 0 ∧ s.stage = .signalled ∧
      (s.place 1).past = true ∧ s.ivars.pthread = some 0 := by
  have hrun : (machine .other 0).Run Machine.anyAction
      [.initWithName, .call 1 .schedule, .perform, .signalStart, .wake 1] _ :=
    Machine.run_of_exec rfl
  exact ⟨_, rfl, rfl, rfl, ((one_token ⟨_, hrun⟩).2.2 1 rfl).2.2⟩

/-! ## No deadlock, unless the run loop's thread calls too early -/

/-- A thread is in its wait, and all that would signal is the block queued on a run
loop whose thread is in its wait too. -/
def System.Deadlocked (r : T) (s : System T) : Prop :=
  (∃ t, (s.place t).waits = true) ∧ s.semaphore = 0 ∧ (∀ t, (s.place t).between = false) ∧
    .start ∈ s.loop.blocks ∧ (s.place r).waits = true

/-- The run loop's own thread calls once the start-up has signalled. -/
def afterSignal (r : T) (s : System T) : Action T → Prop
  | .call t _ => t = r → s.stage = .signalled
  | _ => True

instance (s : System T) : DecidablePred (afterSignal r s)
  | .call t _ => inferInstanceAs (Decidable (t = r → s.stage = .signalled))
  | .initWithName | .createThread _ _ | .entry | .perform | .signalStart | .fire | .addSource
  | .ret | .wake _ | .check _ | .signal _ | .finish _ => inferInstanceAs (Decidable True)

/-- The run loop's thread is in no method before the start-up has signalled. -/
def Outside (r : T) (s : System T) : Prop := s.stage ≠ .signalled → s.place r = .outside

theorem Outside.setPlace {s : System T} (h : Outside r s) {t : T} {p : Place}
    (ht : t = r → s.stage = .signalled) : Outside r (s.setPlace t p) := by
  intro hne
  have htr : r ≠ t := fun heq => hne (ht heq.symm)
  exact (Function.update_of_ne htr ..).trans (h hne)

omit [DecidableEq T] in
/-- A thread that is in a method is not the run loop's, or the start-up has signalled. -/
theorem Outside.signalled {s : System T} (h : Outside r s) {t : T} (ht : s.place t ≠ .outside) :
    t = r → s.stage = .signalled := by
  rintro rfl
  by_contra hne
  exact ht (h hne)

theorem Outside.step {s s' : System T} (h : Outside r s) (hs : Started way r s) {a : Action T}
    (hen : s.enabled r a) (hgood : afterSignal r s a) (hstep : s.step way r a = .ok s') :
    Outside r s' := by
  cases a with
  | initWithName =>
      cases hstep
      have hne : s.stage ≠ .signalled := (show s.stage = _ from hen).trans_ne Stage.noConfusion
      cases way <;> exact fun _ => h hne
  | createThread t created =>
      rw [System.step] at hstep
      split at hstep
      next =>
        cases hstep
        have hne : s.stage ≠ .signalled := hen.1.trans_ne Stage.noConfusion
        exact fun _ => (Function.update_of_ne (Ne.symm hen.2.2) ..).trans (h hne)
      next => cases hstep
  | entry =>
      cases hstep
      have hne : s.stage ≠ .signalled := (show s.stage = _ from hen).trans_ne Stage.noConfusion
      exact fun _ => h hne
  | perform =>
      cases hstep
      intro _
      have hplace : (s.perform way r).place = s.place := by
        rw [System.perform]
        split
        · rfl
        · cases way <;> rfl
        · rfl
      rw [hplace]
      exact hen.1.2.1
  | signalStart => cases hstep; exact fun hne => absurd rfl hne
  | fire => cases hstep; exact h
  | addSource => cases hstep; exact h
  | ret => cases hstep; exact h
  | call t method => cases hstep; exact h.setPlace hgood
  | wake t =>
      cases hstep
      have hsig : s.stage = .signalled := Stage.eq_of_tokens (hs.turnstile.tokens.pos_of_value hen.2)
      have hstage : (s.wake t).stage = s.stage := by rw [System.wake]; split <;> rfl
      exact fun hne => absurd (hstage.trans hsig) hne
  | check t =>
      rw [System.step, hs.check_eq hen] at hstep
      cases hstep
      exact h.setPlace (h.signalled ((show s.place t = _ from hen).trans_ne Place.noConfusion))
  | signal t =>
      cases hstep
      rw [System.signal]
      split
      next hplace =>
        exact Outside.setPlace (s := { s with semaphore := _ }) h
          (h.signalled (hplace.trans_ne Place.noConfusion))
      next hplace =>
        exact Outside.setPlace (s := { s with semaphore := _ }) h
          (h.signalled (hplace.trans_ne Place.noConfusion))
      next => exact h
  | finish t =>
      cases hstep
      rw [System.finish]
      split
      next hplace =>
        exact Outside.setPlace (s := { s with loop := _ }) h
          (h.signalled (hplace.trans_ne Place.noConfusion))
      next => exact h

theorem outside_of_run {as : List (Action T)} {s : System T}
    (h : (machine way r).Run (afterSignal r) as s) : Started way r s ∧ Outside r s := by
  refine h.invariant (I := fun s => Started way r s ∧ Outside r s) ⟨.init, fun _ => rfl⟩
    fun s a s' hs hen hgood hstep => ?_
  exact ⟨hs.1.step hen hstep, hs.2.step hs.1 hen hgood hstep⟩

omit [DecidableEq T] in
/-- A call that comes too early is one from a callback on another thread's run loop,
while the start-up block is queued there. -/
theorem Started.early_call {s : System T} (hs : Started way r s) {a : Action T}
    (hen : s.enabled r a) (hearly : ¬ afterSignal r s a) :
    ∃ method, a = .call r method ∧ s.stage = .queued ∧ way = .other := by
  cases a with
  | call t method =>
      obtain ⟨rfl, hne⟩ := Classical.not_imp.mp hearly
      have hbusy : s.loop.busy = true := hen.2.2 rfl
      have hown : way ≠ .own := by
        intro hown
        rw [(hs.ready.quiet hown hne).2] at hbusy
        cases hbusy
      have hqueued : s.stage = .queued := by
        cases hstage : s.stage with
        | queued => rfl
        | starting => exact absurd hstage hen.1
        | dispatched => exact absurd (hs.ready.creating (.inl hstage)) hown
        | created => exact absurd (hs.ready.creating (.inr hstage)) hown
        | performing =>
            rw [hs.ready.performing hstage] at hbusy
            cases hbusy
        | signalled => exact absurd hstage hne
      refine ⟨method, rfl, hqueued, ?_⟩
      cases way with
      | other => rfl
      | own => exact absurd rfl hown
      | current => exact absurd (hs.ready.direct rfl) (by rw [hqueued]; simp)
  | _ => exact absurd trivial hearly

/-- It waits for the block behind it. -/
theorem Started.deadlocked_of_call {s : System T} (hs : Started way r s) (hstage : s.stage = .queued)
    (method : Method) : (s.setPlace r (.waiting method)).Deadlocked r := by
  have hne : s.stage ≠ .signalled := hstage.trans_ne Stage.noConfusion
  have hwaits : ((s.setPlace r (.waiting method)).place r).waits = true := by
    show (Function.update s.place r _ r).waits = true
    rw [Function.update_self]
    rfl
  have htokens := hs.turnstile.tokens
  rw [Stage.tokens_of_ne hne] at htokens
  obtain ⟨hzero, hnone⟩ := htokens.eq_zero
  refine ⟨⟨r, hwaits⟩, hzero, fun t => ?_, ?_, hwaits⟩
  · show (Function.update s.place r _ t).between = false
    by_cases htr : t = r
    · rw [htr, Function.update_self]
      rfl
    · rw [Function.update_of_ne htr, ← Bool.not_eq_true]
      exact fun hbetween => Set.eq_empty_iff_forall_notMem.mp hnone t hbetween
  · show .start ∈ s.loop.blocks
    rw [hs.ready.early hne, if_pos hstage]
    exact List.mem_singleton_self _

/-- While the run loop's own thread waits for the start-up there is no deadlock, and
where it does not, there is one.  It always does, except on another thread's run loop. -/
theorem deadlock_iff_call (way : Way) (r : T) :
    (∀ as s, (machine way r).Run (afterSignal r) as s → ¬ s.Deadlocked r) ∧
      (∀ s a s', (machine way r).Reachable s → s.enabled r a → s.step way r a = .ok s' →
        ¬ afterSignal r s a → s'.Deadlocked r) ∧
      (way ≠ .other → ∀ s a, (machine way r).Reachable s → s.enabled r a → afterSignal r s a) := by
  refine ⟨fun as s hrun => ?_, fun s a s' hreach hen hstep hearly => ?_,
    fun hway s a hreach hen => ?_⟩
  · rintro ⟨-, -, -, hstart, hwaits⟩
    obtain ⟨hs, houtside⟩ := outside_of_run hrun
    have hne : s.stage ≠ .signalled := fun hsig => hs.ready.late hsig hstart
    rw [houtside hne] at hwaits
    cases hwaits
  · have hs := Started.of_reachable hreach
    obtain ⟨method, rfl, hqueued, -⟩ := hs.early_call hen hearly
    cases hstep
    exact hs.deadlocked_of_call hqueued method
  · by_contra hearly
    obtain ⟨-, -, -, hother⟩ := (Started.of_reachable hreach).early_call hen hearly
    exact hway hother

theorem deadlock_iff_call_signalled :
    ∃ s : System Nat, (s.place 0).waits = true ∧ ¬ s.Deadlocked 0 := by
  have hrun : (machine .other 0).Run (afterSignal 0)
      [.initWithName, .perform, .signalStart, .fire, .call 0 .schedule] _ := Machine.run_of_exec rfl
  exact ⟨_, rfl, (deadlock_iff_call .other 0).1 _ _ hrun⟩

/-- A callback on the other thread calls before its run loop has performed the block. -/
theorem deadlock_reached :
    ∃ s : System Nat, (machine .other 0).Reachable s ∧ s.Deadlocked 0 := by
  have hqueued : (machine .other 0).Run Machine.anyAction [.initWithName, .fire] _ :=
    Machine.run_of_exec rfl
  have hcall : (machine .other 0).Run Machine.anyAction [.initWithName, .fire, .call 0 .schedule] _ :=
    Machine.run_of_exec rfl
  exact ⟨_, ⟨_, hcall⟩, (Started.of_reachable ⟨_, hqueued⟩).deadlocked_of_call rfl .schedule⟩

end RxRunLoopScheduler

end Rx
