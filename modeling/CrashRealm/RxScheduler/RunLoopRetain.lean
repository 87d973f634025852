/-
# `RxScheduler.RunLoopRetain` — who retains the run loop, and who releases it

Counts every `CFRetain` and `CFRelease` made on the run loop over a scheduler's
life: the initialiser or the thread's entry retains it for `_cfRunLoop`, `schedule:`
retains it for as long as it uses it, `dealloc` gives up `_cfRunLoop`, and keeps the
run loop once more until a block on the main queue has woken it.

Two releases are missing.  `schedule:` has its own on the branch that queues the
block, and none where the block is performed in place; and `dealloc` gives up
`_cfRunLoop` only where there is a wake-up source, which only the scheduler's own
thread makes.  So what is left over is one retain for a run loop that was given, and
one for each `schedule:` from the run loop's own thread (`Ledger.balance`).
-/
import CrashRealm.RxScheduler.RunLoopSchedulerSpec
import Mathlib.Data.Fintype.Basic

namespace Rx

namespace RxRunLoopScheduler

variable {T : Type} [DecidableEq T]

/-- A scheduler from its initialiser to the end, with what it does to its run loop. -/
structure Life (T : Type) where
  system : System T
  /-- `_wakeupSource` is set -/
  wakeupSource : Bool
  retains : Nat
  releases : Nat
  /-- blocks `dealloc` left on the main queue -/
  later : Nat
  deallocated : Bool

inductive LifeAction (T : Type) where
  | scheduler (a : Action T)
  /-- the last reference goes away on thread `t` -/
  | dealloc (t : T)
  /-- the main queue runs the block that wakes the run loop -/
  | later
  deriving DecidableEq, Repr

/-- The retains and releases of `schedule:`, once it is past its signal. -/
def System.scheduleLedger (s : System T) (t : T) : Nat × Nat :=
  match s.place t with
  | .turned .schedule =>
      if s.ivars.cfRunLoop = none then (0, 0)
      else if s.ivars.pthread = some t then (1, 0)
      else (1, 1)
  | _ => (0, 0)

/-- The retains and releases of an action. -/
def System.ledger (way : Way) (s : System T) : Action T → Nat × Nat
  | .initWithName =>
      match way with
      | .own => (0, 0)
      | .current | .other => (1, 0)
  | .entry => (1, 0)
  | .finish t => s.scheduleLedger t
  | _ => (0, 0)

namespace Life

def init (way : Way) : Life T where
  system := .init way
  wakeupSource := false
  retains := 0
  releases := 0
  later := 0
  deallocated := false

/-- A caller has a reference, and so has a block on the run loop; the last one goes
away when there are none of these. -/
def unreferenced (l : Life T) : Prop :=
  l.system.stage = .signalled ∧ (∀ t, l.system.place t = .outside) ∧ l.system.loop.blocks = []

/-- `dealloc`, between its wait and signal and its end. -/
def dealloc (l : Life T) (t : T) : Life T :=
  if l.wakeupSource then
    let l := { l with wakeupSource := false }
    let l :=
      if l.system.ivars.pthread = some t then l
      else { l with retains := l.retains + 1, later := l.later + 1 }
    { l with
      releases := l.releases + 1
      system := { l.system with ivars := .nil }
      deallocated := true }
  else
    { l with
      system := { l.system with ivars := { Ivars.nil with cfRunLoop := l.system.ivars.cfRunLoop } }
      deallocated := true }

def enabled (r : T) (l : Life T) : LifeAction T → Prop
  | .scheduler a => l.deallocated = false ∧ l.system.enabled r a
  | .dealloc t => l.deallocated = false ∧ l.unreferenced ∧ 0 < l.system.semaphore ∧
      (t = r → l.system.loop.busy = true)
  | .later => 0 < l.later

instance [Fintype T] (l : Life T) : Decidable l.unreferenced :=
  inferInstanceAs (Decidable (_ ∧ _ ∧ _))

instance [Fintype T] (r : T) (l : Life T) : DecidablePred (l.enabled r)
  | .scheduler a => inferInstanceAs (Decidable (_ ∧ l.system.enabled r a))
  | .dealloc t => inferInstanceAs (Decidable (_ ∧ l.unreferenced ∧ _ ∧ (t = r → _)))
  | .later => inferInstanceAs (Decidable (0 < l.later))

def step (way : Way) (r : T) (l : Life T) : LifeAction T → Except Fault (Life T)
  | .scheduler a => do
      let system ← l.system.step way r a
      return { l with
        system
        wakeupSource := l.wakeupSource || a == .entry
        retains := l.retains + (l.system.ledger way a).1
        releases := l.releases + (l.system.ledger way a).2 }
  | .dealloc t => .ok (l.dealloc t)
  | .later => .ok { l with releases := l.releases + 1, later := l.later - 1 }

/-- The scheduler is gone and all blocks have run. -/
def Over (l : Life T) : Prop := l.deallocated = true ∧ l.later = 0

end Life

/-- One scheduler, initialised in one of the three ways, until all is over. -/
def lifeMachine (way : Way) (r : T) : Machine (Life T) (LifeAction T) Fault where
  start := .init way
  enabled := Life.enabled r
  step := Life.step way r

instance [Fintype T] (way : Way) (r : T) (l : Life T) (a : LifeAction T) :
    Decidable ((lifeMachine way r).enabled l a) :=
  inferInstanceAs (Decidable (l.enabled r a))

/-! ## What one action retains -/

/-- The run loop is not known yet. -/
def Stage.blank : Stage → Bool
  | starting | dispatched | created => true
  | queued | performing | signalled => false

/-- The retain for `_cfRunLoop`. -/
def Stage.kept (stage : Stage) : Nat := if stage.blank then 0 else 1

/-- `initWithName:runloop:` with a run loop and the thread's entry are where the run
loop becomes known. -/
def Action.blankAfter (way : Way) (blank : Bool) : Action T → Bool
  | .initWithName => decide (way = .own)
  | .entry => false
  | _ => blank

/-- In a call of `schedule:`. -/
def Place.inSchedule : Place → Nat
  | waiting .schedule | passed .schedule | turned .schedule => 1
  | _ => 0

section

variable {way : Way} {r : T} {s s' : System T} {a : Action T}

omit [DecidableEq T] in
/-- Where there is a block to perform, the run loop is known. -/
theorem Started.not_blank (hs : Started way r s) (hblocks : s.loop.blocks ≠ []) :
    s.stage.blank = false := by
  by_cases hsig : s.stage = .signalled
  · rw [hsig]
    rfl
  · have hearly := hs.ready.early hsig
    split at hearly
    next hqueued =>
      rw [hqueued]
      rfl
    next => exact absurd hearly hblocks

theorem Started.step_blank (hs : Started way r s) (hen : s.enabled r a)
    (hstep : s.step way r a = .ok s') : s'.stage.blank = a.blankAfter way s.stage.blank := by
  cases a with
  | initWithName => cases hstep; cases way <;> rfl
  | createThread t created =>
      rw [System.step] at hstep
      split at hstep <;> cases hstep
      show true = s.stage.blank
      rw [hen.1]
      rfl
  | perform =>
      cases hstep
      show (s.perform way r).stage.blank = s.stage.blank
      rw [hs.not_blank hen.2, System.perform]
      split
      next hnil => exact absurd hnil hen.2
      next => cases way <;> rfl
      next hblocks => exact hs.not_blank (by rw [hblocks]; exact List.cons_ne_nil _ _)
  | signalStart =>
      cases hstep
      show false = s.stage.blank
      rw [show s.stage = .performing from hen]
      rfl
  | wake t =>
      cases hstep
      show (s.wake t).stage.blank = s.stage.blank
      rw [System.wake]
      split <;> rfl
  | check t =>
      rw [System.step, hs.check_eq hen] at hstep
      cases hstep
      rfl
  | signal t =>
      cases hstep
      show (s.signal t).stage.blank = s.stage.blank
      rw [System.signal]
      split <;> rfl
  | finish t =>
      cases hstep
      show (s.finish t).stage.blank = s.stage.blank
      rw [System.finish]
      split <;> rfl
  | entry | fire | addSource | ret | call => cases hstep; rfl

/-- A thread that starts or ends no call of `schedule:`. -/
theorem inSchedule_update {place : T → Place} {t : T} {p : Place}
    (hp : p.inSchedule = (place t).inSchedule) :
    (Function.update place t p r).inSchedule = (place r).inSchedule := by
  by_cases htr : r = t
  · subst htr
    rw [Function.update_self, hp]
  · rw [Function.update_of_ne htr]

/-- The end of a method leaves a retain behind if it was `schedule:` on the run
loop's own thread. -/
theorem Started.finish_ledger (hs : Started way r s) {t : T}
    (hen : (s.place t).pastSignal = true) :
    (s.scheduleLedger t).1 + ((s.finish t).place r).inSchedule =
      (s.scheduleLedger t).2 + (s.place r).inSchedule := by
  cases hplace : s.place t with
  | turned method =>
      have hfinish : (s.finish t).place = Function.update s.place t .outside := by
        rw [System.finish, hplace]
        rfl
      obtain ⟨-, hcf, hpthread⟩ := hs.known_of_past (t := t) (by rw [hplace]; rfl)
      rw [System.scheduleLedger, hplace, hfinish, hcf, hpthread]
      cases method with
      | after | afterRepeating =>
          rw [inSchedule_update (by rw [hplace]; rfl)]
      | schedule =>
          by_cases htr : r = t
          · subst htr
            rw [Function.update_self, hplace]
            simp [Place.inSchedule]
          · rw [Function.update_of_ne htr]
            simp [htr]
  | _ =>
      rw [hplace] at hen
      cases hen

/-- What an action retains more than it releases is kept for `_cfRunLoop`, or for a
call of `schedule:` on the run loop's own thread. -/
theorem Started.step_ledger (hs : Started way r s) (hen : s.enabled r a)
    (hstep : s.step way r a = .ok s') :
    (s.ledger way a).1 + (s'.place r).inSchedule + s.stage.kept =
      (s.ledger way a).2 + (s.place r).inSchedule + s'.stage.kept +
        if a = .call r .schedule then 1 else 0 := by
  have hkept : s'.stage.kept = if a.blankAfter way s.stage.blank then 0 else 1 := by
    rw [Stage.kept, hs.step_blank hen hstep]
  -- most actions retain nothing, and start or end no call of `schedule:`
  have hquiet : s.ledger way a = (0, 0) → (s'.place r).inSchedule = (s.place r).inSchedule →
      a.blankAfter way s.stage.blank = s.stage.blank → a ≠ .call r .schedule →
      (s.ledger way a).1 + (s'.place r).inSchedule + s.stage.kept =
        (s.ledger way a).2 + (s.place r).inSchedule + s'.stage.kept +
          if a = .call r .schedule then 1 else 0 := by
    intro hledger hplace hblank hne
    rw [hledger, hplace, hkept, hblank, if_neg hne]
    rfl
  cases a with
  | initWithName =>
      cases hstep
      have hblank : s.stage.kept = 0 := by rw [show s.stage = .starting from hen]; rfl
      rw [hkept, hblank]
      cases way <;> simp [System.ledger, System.initWithName, Action.blankAfter, Nat.add_comm]
  | entry =>
      cases hstep
      have hblank : s.stage.kept = 0 := by rw [show s.stage = .created from hen]; rfl
      rw [hkept, hblank]
      simp [System.ledger, System.entry, Action.blankAfter, Nat.add_comm]
  | finish t =>
      cases hstep
      have hledger := hs.finish_ledger hen
      rw [hkept]
      show (s.scheduleLedger t).1 + ((s.finish t).place r).inSchedule + s.stage.kept =
        (s.scheduleLedger t).2 + (s.place r).inSchedule + s.stage.kept + 0
      rw [hledger, Nat.add_zero]
  | call t method =>
      cases hstep
      by_cases hcall : Action.call t method = .call r .schedule
      · cases hcall
        rw [hkept, if_pos rfl]
        show 0 + (Function.update s.place r _ r).inSchedule + s.stage.kept =
          0 + (s.place r).inSchedule + s.stage.kept + 1
        rw [Function.update_self, hen.2.1]
        simp [Place.inSchedule, Nat.add_comm]
      · refine hquiet rfl ?_ rfl hcall
        by_cases htr : r = t
        · subst htr
          show (Function.update s.place r _ r).inSchedule = _
          rw [Function.update_self, hen.2.1]
          cases method with
          | schedule => exact absurd rfl hcall
          | after | afterRepeating => rfl
        · show (Function.update s.place t _ r).inSchedule = _
          rw [Function.update_of_ne htr]
  | createThread t created =>
      rw [System.step] at hstep
      split at hstep <;> cases hstep
      exact hquiet rfl (inSchedule_update (by rw [hen.2.1]; rfl)) rfl (by simp)
  | perform =>
      cases hstep
      refine hquiet rfl ?_ rfl (by simp)
      show ((s.perform way r).place r).inSchedule = _
      rw [System.perform]
      split
      · rfl
      · cases way <;> rfl
      · rfl
  | wake t =>
      cases hstep
      refine hquiet rfl ?_ rfl (by simp)
      show ((s.wake t).place r).inSchedule = _
      rw [System.wake]
      split
      next hplace => exact inSchedule_update (by rw [hplace]; rfl)
      next method hplace => exact inSchedule_update (by rw [hplace]; cases method <;> rfl)
      next => rfl
  | check t =>
      rw [System.step, hs.check_eq hen] at hstep
      cases hstep
      exact hquiet rfl (inSchedule_update (by rw [show s.place t = _ from hen]; rfl)) rfl (by simp)
  | signal t =>
      cases hstep
      refine hquiet rfl ?_ rfl (by simp)
      show ((s.signal t).place r).inSchedule = _
      rw [System.signal]
      split
      next hplace => exact inSchedule_update (by rw [hplace]; rfl)
      next method hplace => exact inSchedule_update (by rw [hplace]; cases method <;> rfl)
      next => rfl
  | signalStart | fire | addSource | ret =>
      cases hstep
      exact hquiet rfl rfl rfl (by simp)

end

/-! ## Over a life -/

/-- What is left of the retain for `_cfRunLoop`. -/
def Life.kept (way : Way) (l : Life T) : Nat :=
  if l.deallocated then if way = .own then 0 else 1 else l.system.stage.kept

/-- The books of a scheduler after the actions `as`. -/
structure Ledger (way : Way) (r : T) (as : List (LifeAction T)) (l : Life T) : Prop where
  started : l.deallocated = false → Started way r l.system
  wakeup : l.deallocated = false →
    l.wakeupSource = (decide (way = .own) && !l.system.stage.blank)
  balance : l.retains + (l.system.place r).inSchedule =
    l.releases + l.later + l.kept way + as.count (.scheduler (.call r .schedule))
  outside : l.deallocated = true → l.system.place r = .outside

namespace Ledger

variable {way : Way} {r : T} {as : List (LifeAction T)} {l l' : Life T}

theorem init : Ledger way r [] (.init way) where
  started := fun _ => .init
  wakeup := fun _ => by
    show false = (decide (way = .own) && !true)
    rw [Bool.not_true, Bool.and_false]
  balance := rfl
  outside := fun h => absurd h Bool.false_ne_true

theorem scheduler (h : Ledger way r as l) {a : Action T} (hen : l.enabled r (.scheduler a))
    (hstep : l.step way r (.scheduler a) = .ok l') :
    Ledger way r (as ++ [.scheduler a]) l' := by
  obtain ⟨hlive, hen⟩ := hen
  obtain ⟨system, hsystem, hl'⟩ := bind_eq_ok.mp hstep
  cases hl'
  have hs := h.started hlive
  have hblank := hs.step_blank hen hsystem
  exact
    { started := fun _ => hs.step hen hsystem
      wakeup := by
        intro _
        show (l.wakeupSource || a == .entry) = (decide (way = .own) && !system.stage.blank)
        rw [h.wakeup hlive, hblank]
        cases a with
        | initWithName =>
            rw [show l.system.stage = .starting from hen]
            cases way <;> rfl
        | entry =>
            rw [show way = .own from hs.ready.creating (.inr hen)]
            exact Bool.or_true _
        | _ => exact Bool.or_false _
      balance := by
        have hledger := hs.step_ledger hen hsystem
        have hbalance := h.balance
        rw [Life.kept, if_neg (by rw [hlive]; exact Bool.false_ne_true)] at hbalance
        rw [Life.kept, if_neg (by rw [hlive]; exact Bool.false_ne_true), List.count_append,
          List.count_singleton]
        show l.retains + (l.system.ledger way a).1 + (system.place r).inSchedule =
          l.releases + (l.system.ledger way a).2 + l.later + system.stage.kept + _
        by_cases hcall : a = .call r .schedule
        · rw [if_pos hcall] at hledger
          rw [if_pos (by rw [hcall]; exact beq_self_eq_true _)]
          omega
        · rw [if_neg hcall] at hledger
          rw [if_neg fun heq => hcall (LifeAction.scheduler.inj (beq_iff_eq.mp heq))]
          omega
      outside := fun hdead => absurd (hlive.symm.trans hdead) Bool.false_ne_true }

theorem dealloc (h : Ledger way r as l) {t : T} (hlive : l.deallocated = false)
    (hrest : l.unreferenced) : Ledger way r (as ++ [.dealloc t]) (l.dealloc t) := by
  have hblank : l.system.stage.blank = false := by rw [hrest.1]; rfl
  have hwakeup := h.wakeup hlive
  rw [hblank, Bool.not_false, Bool.and_true] at hwakeup
  have hbalance := h.balance
  rw [Life.kept, if_neg (by rw [hlive]; exact Bool.false_ne_true), Stage.kept, hblank,
    if_neg Bool.false_ne_true] at hbalance
  have hcount : (as ++ [LifeAction.dealloc t]).count (.scheduler (.call r .schedule)) =
      as.count (.scheduler (.call r .schedule)) := by
    rw [List.count_append, List.count_singleton, if_neg (by simp), Nat.add_zero]
  by_cases hown : way = .own
  · rw [hown, decide_eq_true rfl] at hwakeup
    by_cases hself : l.system.ivars.pthread = some t
    · rw [Life.dealloc, if_pos hwakeup]
      simp only [if_pos hself]
      exact
        { started := nofun
          wakeup := nofun
          balance := by
            rw [hcount, Life.kept, if_pos rfl, if_pos hown]
            show l.retains + (l.system.place r).inSchedule = l.releases + 1 + l.later + 0 + _
            omega
          outside := fun _ => hrest.2.1 r }
    · rw [Life.dealloc, if_pos hwakeup]
      simp only [if_neg hself]
      exact
        { started := nofun
          wakeup := nofun
          balance := by
            rw [hcount, Life.kept, if_pos rfl, if_pos hown]
            show l.retains + 1 + (l.system.place r).inSchedule =
              l.releases + 1 + (l.later + 1) + 0 + _
            omega
          outside := fun _ => hrest.2.1 r }
  · rw [decide_eq_false hown] at hwakeup
    rw [Life.dealloc, if_neg (by rw [hwakeup]; exact Bool.false_ne_true)]
    exact
      { started := nofun
        wakeup := nofun
        balance := by
          rw [hcount, Life.kept, if_pos rfl, if_neg hown]
          exact hbalance
        outside := fun _ => hrest.2.1 r }

theorem later (h : Ledger way r as l) (hpos : 0 < l.later) :
    Ledger way r (as ++ [.later]) { l with releases := l.releases + 1, later := l.later - 1 } where
  started := h.started
  wakeup := h.wakeup
  balance := by
    have hbalance := h.balance
    rw [List.count_append, List.count_singleton, if_neg (by simp), Nat.add_zero]
    show l.retains + (l.system.place r).inSchedule =
      l.releases + 1 + (l.later - 1) + l.kept way + _
    omega
  outside := h.outside

theorem of_run (h : (lifeMachine way r).Run Machine.anyAction as l) : Ledger way r as l := by
  refine h.invariant_history init fun as l a l' hl hen _ hstep => ?_
  cases a with
  | scheduler a => exact hl.scheduler hen hstep
  | dealloc t => cases hstep; exact hl.dealloc hen.1 hen.2.1
  | later => cases hstep; exact hl.later hen

/-- Once all is over, what was retained and not released. -/
theorem unreleased (h : Ledger way r as l) (hover : l.Over) :
    l.retains = l.releases + (if way = .own then 0 else 1) +
      as.count (.scheduler (.call r .schedule)) := by
  have hbalance := h.balance
  rw [Life.kept, if_pos hover.1, h.outside hover.1, hover.2] at hbalance
  exact hbalance

end Ledger

/-- Once a scheduler is gone and all blocks have run, the run loop was retained and
released equally often exactly if no run loop was given and nobody called
`schedule:` on the run loop's own thread; each such call leaves a retain, and so
does a run loop that was given. -/
theorem retains_eq_releases_iff {way : Way} {r : T} {as : List (LifeAction T)} {l : Life T}
    (h : (lifeMachine way r).Run Machine.anyAction as l) (hover : l.Over) :
    (l.retains = l.releases ↔ way = .own ∧ .scheduler (.call r .schedule) ∉ as) ∧
      l.retains = l.releases + (if way = .own then 0 else 1) +
        as.count (.scheduler (.call r .schedule)) := by
  have hleft := (Ledger.of_run h).unreleased hover
  refine ⟨?_, hleft⟩
  rw [hleft, ← List.count_eq_zero]
  by_cases hown : way = .own
  · rw [if_pos hown, Nat.add_zero]
    simp [hown]
  · rw [if_neg hown]
    refine iff_of_false (by omega) fun hand => hown hand.1

/-- Its own thread, a call from another, and the last reference given up there. -/
theorem retains_eq_releases_own : ∃ l : Life Bool, l.Over ∧ l.retains = 3 ∧ l.releases = 3 := by
  have hrun : (lifeMachine .own true).Run Machine.anyAction
      [.scheduler .initWithName, .scheduler (.createThread false true), .scheduler .entry,
        .scheduler .perform, .scheduler .signalStart, .scheduler (.wake false),
        .scheduler (.check false), .scheduler (.signal false),
        .scheduler (.call false .schedule), .scheduler (.wake false), .scheduler (.signal false),
        .scheduler (.finish false), .scheduler .perform, .scheduler .ret, .dealloc false,
        .later] _ := Machine.run_of_exec rfl
  have hbalanced := (retains_eq_releases_iff hrun ⟨rfl, rfl⟩).1.mpr ⟨rfl, by decide⟩
  exact ⟨_, ⟨rfl, rfl⟩, rfl, hbalanced.symm.trans rfl⟩

/-- The current run loop, given and never called; and a call from the own thread. -/
theorem retains_ne_releases :
    (∃ l : Life Bool, (lifeMachine .current true).Reachable l ∧ l.Over ∧
      l.retains ≠ l.releases) ∧
      ∃ l : Life Bool, (lifeMachine .own true).Reachable l ∧ l.Over ∧ l.retains ≠ l.releases := by
  constructor
  · have hrun : (lifeMachine .current true).Run Machine.anyAction
        [.scheduler .initWithName, .dealloc true] _ := Machine.run_of_exec rfl
    exact ⟨_, ⟨_, hrun⟩, ⟨rfl, rfl⟩, by decide⟩
  · have hrun : (lifeMachine .own true).Run Machine.anyAction
        [.scheduler .initWithName, .scheduler (.createThread false true), .scheduler .entry,
          .scheduler .perform, .scheduler .signalStart, .scheduler (.wake false),
          .scheduler (.check false), .scheduler (.signal false),
          .scheduler (.call false .schedule), .scheduler (.wake false), .scheduler (.signal false),
          .scheduler (.finish false), .scheduler .perform,
          .scheduler (.call true .schedule), .scheduler (.wake true), .scheduler (.signal true),
          .scheduler (.finish true), .scheduler .ret, .dealloc false, .later] _ :=
      Machine.run_of_exec rfl
    exact ⟨_, ⟨_, hrun⟩, ⟨rfl, rfl⟩, by decide⟩

end RxRunLoopScheduler

end Rx
