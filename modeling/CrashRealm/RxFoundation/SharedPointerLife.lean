/-
# `RxFoundation.SharedPointerLife` — from construction to deletion

What happens at the address of a controller is construction, destruction of the object
and deletion, in turns.  `lifeOf` reads the stage off the events, and it is the one the
controller is in (`life_of_run`): so every object is destroyed once, and every
controller deleted once, and not before.

While no call is under way, the counts are the numbers of pointers, and what no pointer
refers to is gone (`counts_at_rest`).  An object that has expired stays so until its
controller is deleted (`expired_stays`).
-/
import CrashRealm.RxFoundation.SharedPointerSpec

namespace Rx

namespace SharedPointer

open Holders

variable {R K C : Type} [DecidableEq C]

/-! ## The life at an address -/

inductive Stage where
  | absent
  | alive
  | expired
  deriving DecidableEq, Repr

def Event.controller : Event C → C
  | .constructed c | .destroyed c | .deleted c => c

/-- The stage an event leads to, from the one stage it may happen in. -/
def Stage.after : Stage → Event C → Option Stage
  | .absent, .constructed _ => some .alive
  | .alive, .destroyed _ => some .expired
  | .expired, .deleted _ => some .absent
  | _, _ => none

/-- The stage that the events at an address lead to, if they come in turns. -/
def lifeOf (c : C) (log : List (Event C)) : Option Stage :=
  (log.filter fun e => e.controller = c).foldlM Stage.after .absent

def stageOf : Option ReferenceController → Stage
  | none => .absent
  | some x => if x.object then .alive else .expired

theorem lifeOf_append (c : C) (log events : List (Event C)) : lifeOf c (log ++ events) =
    (lifeOf c log).bind fun stage =>
      (events.filter fun e => e.controller = c).foldlM Stage.after stage := by
  rw [lifeOf, List.filter_append, List.foldlM_append]
  rfl

/-- In turns, the three kinds of events are equally many, up to the stage they lead to. -/
theorem count_of_life {c : C} (log : List (Event C)) {stage : Stage} (h : lifeOf c log = some stage) :
    log.count (.constructed c) = log.count (.destroyed c) + (if stage = .alive then 1 else 0) ∧
    log.count (.constructed c) = log.count (.deleted c) + (if stage = .absent then 0 else 1) := by
  induction log using List.reverseRecOn generalizing stage with
  | nil =>
      cases h
      exact ⟨rfl, rfl⟩
  | append_singleton log e ih =>
      rw [lifeOf_append] at h
      obtain ⟨before, hbefore, hafter⟩ := Option.bind_eq_some_iff.mp h
      have hcounts := ih hbefore
      by_cases he : e.controller = c
      · have hone : [e].filter (fun e => e.controller = c) = [e] := by simp [he]
        rw [hone] at hafter
        subst he
        cases e <;> cases before <;> cases hafter <;>
          simp [List.count_append, Event.controller] at hcounts ⊢ <;> omega
      · have hnone : [e].filter (fun e => e.controller = c) = [] := by simp [he]
        rw [hnone] at hafter
        cases hafter
        have hne : ∀ d, d.controller = c → [e].count d = 0 := by
          intro d hd
          refine List.count_eq_zero.mpr fun hmem => he ?_
          rw [← List.mem_singleton.mp hmem, hd]
        rw [List.count_append, List.count_append, List.count_append, hne (.constructed c) rfl,
          hne (.destroyed c) rfl, hne (.deleted c) rfl]
        exact hcounts

/-! ## What a call does at an address -/

/-- What becomes of a controller, with what is recorded of it. -/
inductive Change (c : C) : List (Event C) → Option ReferenceController →
    Option ReferenceController → Prop where
  | same {events : List (Event C)} {x : Option ReferenceController}
      (hother : ∀ e ∈ events, e.controller ≠ c) : Change c events x x
  /-- a count goes up or down, and not up from an expired object -/
  | count {x y : ReferenceController} (hobject : x.object = y.object)
      (hexpired : x.sharedReferenceCount = 0 → y.sharedReferenceCount = 0) :
      Change c [] (some x) (some y)
  | construct : Change c [.constructed c] none (some {})
  | destroy {x : ReferenceController} (hobject : x.object = true) :
      Change c [.destroyed c] (some x) (some { x with object := false })
  | delete {x : ReferenceController} (hobject : x.object = false) :
      Change c [.deleted c] (some x) none

theorem Change.stage {c : C} {events : List (Event C)} {x y : Option ReferenceController}
    (h : Change c events x y) :
    (events.filter fun e => e.controller = c).foldlM Stage.after (stageOf x) = some (stageOf y) := by
  cases h with
  | same hother =>
      have hnone : events.filter (fun e => e.controller = c) = [] := by
        refine List.filter_eq_nil_iff.mpr fun e he => ?_
        simp [hother e he]
      rw [hnone]
      rfl
  | count hobject hexpired =>
      show some _ = _
      rw [stageOf, stageOf, hobject]
  | construct => simp [Event.controller, stageOf, Stage.after]
  | destroy hobject => simp [Event.controller, stageOf, Stage.after, hobject]
  | delete hobject => simp [Event.controller, stageOf, Stage.after, hobject]

omit [DecidableEq C] in
/-- An object that has expired stays so, unless its controller is deleted. -/
theorem Change.expired {c : C} {events : List (Event C)} {x : ReferenceController}
    {o : Option ReferenceController} (h : Change c events (some x) o)
    (hzero : x.sharedReferenceCount = 0) (hdeleted : .deleted c ∉ events) :
    ∃ y, o = some y ∧ y.sharedReferenceCount = 0 := by
  cases h with
  | same hother => exact ⟨x, rfl, hzero⟩
  | count hobject hexpired => exact ⟨_, rfl, hexpired hzero⟩
  | destroy hobject => exact ⟨_, rfl, hzero⟩
  | delete hobject => exact absurd List.mem_cons_self hdeleted

theorem changes_set {h : Heap C} {events : List (Event C)} {c : C} {o : Option ReferenceController}
    (hother : ∀ e ∈ events, e.controller = c) (hc : Change c events (h c) o) (d : C) :
    Change d events (h d) (h.set c o d) := by
  by_cases hd : d = c
  · subst hd
    rw [Heap.set, Function.update_self]
    exact hc
  · rw [Heap.set, Function.update_of_ne hd]
    exact .same fun e he heq => hd (heq.symm.trans (hother e he))

omit [DecidableEq C] in
theorem changes_nothing (h : Heap C) (c : C) : Change c [] (h c) (h c) :=
  .same fun _ he => absurd he List.not_mem_nil

theorem changes_of_add {h h' : Heap C} {c : C} {x : ReferenceController} (hx : h c = some x)
    (hadd : addWeakReference h c = .ok h' ∨
      (addSharedReference h c = .ok h' ∧ x.sharedReferenceCount ≠ 0)) (d : C) :
    Change d [] (h d) (h' d) := by
  have hevents : ∀ e ∈ ([] : List (Event C)), e.controller = c := fun _ he =>
    absurd he List.not_mem_nil
  rcases hadd with hadd | ⟨hadd, hpos⟩
  · rw [addWeakReference, Heap.deref_some hx] at hadd
    cases hadd
    refine changes_set hevents ?_ d
    rw [hx]
    exact .count rfl id
  · rw [addSharedReference, Heap.deref_some hx] at hadd
    cases hadd
    refine changes_set hevents ?_ d
    rw [hx]
    exact .count rfl fun hzero => absurd hzero hpos

theorem Release.changes {h h' : Heap C} {t : C → Stake → Nat} (hbal : ∀ c, Balanced (h c) (t c))
    {todo : Release C} {todo' : Option (Release C)}
    (hheld : ∀ k, one (todo.staked k) todo.controller ≤ t todo.controller k)
    (hstep : todo.step h = .ok (h', todo')) (d : C) : Change d todo.events (h d) (h' d) := by
  have hpos : ∀ k, todo.staked k = some todo.controller → 0 < t todo.controller k := by
    intro k hk
    have := hheld k
    rw [hk, one_self] at this
    exact this
  cases todo with
  | checkShared c =>
      obtain ⟨x, hx, haccounts⟩ := (hbal c).exists (hpos .strong rfl)
      rw [step, Heap.deref_some hx, ok_bind] at hstep
      split at hstep <;> cases hstep
      exact changes_nothing h d
  | decrementShared c =>
      obtain ⟨x, hx, haccounts⟩ := (hbal c).exists (hpos .strong rfl)
      have hshared := haccounts.shared
      have hstrong : 0 < t c .strong := hpos .strong rfl
      rw [step, Heap.deref_some hx] at hstep
      cases hstep
      refine changes_set (fun _ he => absurd he List.not_mem_nil) ?_ d
      rw [hx]
      exact .count rfl fun hzero => by omega
  | destroyObject c =>
      obtain ⟨x, hx, haccounts⟩ := (hbal c).exists (hpos .destroying rfl)
      have hobject := haccounts.object_of_destroying (hpos .destroying rfl)
      rw [step, Heap.deref_some hx, ok_bind, if_pos hobject] at hstep
      cases hstep
      refine changes_set (fun e he => ?_) ?_ d
      · rw [List.mem_singleton.mp he]
        rfl
      · rw [hx]
        exact .destroy hobject
  | checkWeak c =>
      obtain ⟨x, hx, haccounts⟩ := (hbal c).exists (hpos .weak rfl)
      rw [step, Heap.deref_some hx, ok_bind] at hstep
      split at hstep <;> cases hstep
      exact changes_nothing h d
  | decrementWeak c =>
      obtain ⟨x, hx, haccounts⟩ := (hbal c).exists (hpos .weak rfl)
      rw [step, Heap.deref_some hx] at hstep
      cases hstep
      refine changes_set (fun _ he => absurd he List.not_mem_nil) ?_ d
      rw [hx]
      exact .count rfl id
  | delete c =>
      obtain ⟨x, hx, haccounts⟩ := (hbal c).exists (hpos .deleting rfl)
      rw [step, hx] at hstep
      cases hstep
      refine changes_set (fun e he => ?_) ?_ d
      · rw [List.mem_singleton.mp he]
        rfl
      · rw [hx]
        exact .delete (haccounts.object_of_deleting (hpos .deleting rfl))

omit [DecidableEq C] in
theorem changes_of_eq {h h' : Heap C} (hsame : h' = h) (c : C) : Change c [] (h c) (h' c) := by
  rw [hsame]
  exact changes_nothing h c

section Calls

variable [Fintype R] [Fintype K] [DecidableEq R] {s s' : System R K C}

/-- What a call does to the controllers is what it records. -/
def Recorded (s s' : System R K C) : Prop :=
  ∃ events, s'.log = s.log ++ events ∧ ∀ c, Change c events (s.controllers c) (s'.controllers c)

omit [DecidableEq C] [Fintype R] [Fintype K] [DecidableEq R] in
theorem recorded_of_eq (hlog : s'.log = s.log) (hcontrollers : s'.controllers = s.controllers) :
    Recorded s s' :=
  ⟨[], by rw [hlog, List.append_nil], changes_of_eq hcontrollers⟩

theorem Sound.recorded_proceed (h : Sound s) {r : R}
    (hstep : s.proceed r = .ok s') : Recorded s s' := by
  have hlent := h.tidy.lent r
  unfold System.proceed at hstep
  cases hr : s.cells r with
  | settled held =>
      rw [hr] at hstep
      cases hstep
      exact recorded_of_eq rfl rfl
  | addShared source new old object =>
      rw [hr] at hstep hlent
      obtain ⟨hshared, hnew⟩ := hlent source rfl
      obtain ⟨object', controller, hsource⟩ := cells_of_shared hshared
      rw [held_of_cells hsource] at hnew
      cases hnew
      obtain ⟨x, hx, haccounts⟩ := (h.balanced new).exists (strong_pos hsource)
      have hshared := haccounts.shared
      have hpos := strong_pos hsource
      obtain ⟨h', hadd, hrest⟩ := bind_eq_ok.mp hstep
      cases hrest
      exact ⟨[], (List.append_nil _).symm, changes_of_add hx (.inr ⟨hadd, by omega⟩)⟩
  | addWeak source new old object =>
      rw [hr] at hstep hlent
      obtain ⟨h', hadd, hrest⟩ := bind_eq_ok.mp hstep
      cases hrest
      obtain ⟨x, hx, -⟩ := bind_eq_ok.mp hadd
      have hcount := changes_of_add (Heap.eq_some_of_deref hx) (.inl hadd)
      exact ⟨[], (List.append_nil _).symm, hcount⟩
  | peek source c =>
      rw [hr] at hstep
      obtain ⟨x, -, hrest⟩ := bind_eq_ok.mp hstep
      split at hrest <;> cases hrest
      · exact recorded_of_eq rfl rfl
      · exact recorded_of_eq rfl rfl
  | compareExchange source c originalCount =>
      rw [hr] at hstep hlent
      obtain ⟨-, -, hnonzero⟩ := hlent source rfl
      change (if originalCount = maxCount then _ else _) = _ at hstep
      split at hstep
      next => cases hstep
      next =>
        obtain ⟨x, hx, hrest⟩ := bind_eq_ok.mp hstep
        split at hrest <;> cases hrest
        next hsame =>
          refine ⟨[], (List.append_nil _).symm, changes_set (fun _ he => ?_) ?_⟩
          · exact absurd he List.not_mem_nil
          · rw [Heap.eq_some_of_deref hx]
            exact .count rfl fun hzero => absurd (hsame.symm.trans hzero) hnonzero
        next => exact recorded_of_eq rfl rfl
  | release todo next =>
      rw [hr] at hstep
      obtain ⟨⟨h', todo'⟩, hrelease, hrest⟩ := bind_eq_ok.mp hstep
      cases hrest
      have hheld : ∀ k, one (todo.staked k) todo.controller ≤ s.stakes todo.controller k := by
        intro k
        have hle := stakes_le s r todo.controller k
        rw [hr] at hle
        exact Nat.le_trans (Nat.le_add_right _ _) hle
      exact ⟨todo.events, rfl, Release.changes h.balanced hheld hrelease⟩

omit [DecidableEq R] in
theorem Sound.recorded_unwind [DecidableEq K] (h : Sound s) {f : K}
    (hstep : s.unwind f = .ok s') : Recorded s s' := by
  unfold System.unwind at hstep
  cases hf : s.frames f with
  | none =>
      rw [hf] at hstep
      cases hstep
      exact recorded_of_eq rfl rfl
  | some todo =>
      rw [hf] at hstep
      obtain ⟨⟨h', todo'⟩, hrelease, hrest⟩ := bind_eq_ok.mp hstep
      cases hrest
      have hheld : ∀ k, one (todo.staked k) todo.controller ≤ s.stakes todo.controller k := by
        intro k
        have hle := remaining_le s f todo.controller k
        rw [hf] at hle
        exact hle
      exact ⟨todo.events, rfl, Release.changes h.balanced hheld hrelease⟩

theorem Sound.recorded [DecidableEq K] (h : Sound s) {a : Action R K C} (hen : s.enabled a)
    (hstep : s.step a = .ok s') : Recorded s s' := by
  cases a with
  | newShared r c object =>
      cases hstep
      refine ⟨[.constructed c], rfl, changes_set (fun e he => ?_) ?_⟩
      · rw [List.mem_singleton.mp he]
        rfl
      · rw [hen.2]
        exact .construct
  | copyShared r source cast =>
      cases hstep
      refine recorded_of_eq ?_ ?_ <;> unfold System.copyShared <;>
        cases (s.held source).controller <;> rfl
  | pin r source =>
      cases hstep
      refine recorded_of_eq ?_ ?_ <;> unfold System.pin <;> split <;> rfl
  | destroyShared r =>
      cases hstep
      refine recorded_of_eq ?_ ?_ <;> unfold System.destroyShared <;> split <;> rfl
  | moveAssignShared k r source =>
      cases hstep
      have hsame : (s.moveAssignShared k r source).log = s.log ∧
          (s.moveAssignShared k r source).controllers = s.controllers := by
        unfold System.moveAssignShared
        split
        · exact ⟨rfl, rfl⟩
        · dsimp only
          split <;> exact ⟨rfl, rfl⟩
      exact recorded_of_eq hsame.1 hsame.2
  | copyWeak r source =>
      cases hstep
      refine recorded_of_eq ?_ ?_ <;> unfold System.copyWeak <;> split <;> rfl
  | destroyWeak r =>
      cases hstep
      refine recorded_of_eq ?_ ?_ <;> unfold System.destroyWeak <;> split <;> rfl
  | moveAssignWeak k r source =>
      cases hstep
      refine recorded_of_eq ?_ ?_ <;> unfold System.moveAssignWeak <;> split <;> rfl
  | proceed r => exact h.recorded_proceed hstep
  | unwind k => exact h.recorded_unwind hstep
  | _ =>
      cases hstep
      exact recorded_of_eq rfl rfl

/-! ## Every run -/

section Runs

variable [DecidableEq K] {as bs : List (Action R K C)} {c : C}

/-- What has happened at an address leads to the stage its controller is in. -/
theorem life_of_run (hrun : (machine R K C).Run System.Roomy as s) (c : C) :
    lifeOf c s.log = some (stageOf (s.controllers c)) := by
  have hboth : Sound s ∧ lifeOf c s.log = some (stageOf (s.controllers c)) := by
    refine hrun.invariant (I := fun s => Sound s ∧ lifeOf c s.log = some (stageOf (s.controllers c)))
      ⟨Sound.start, rfl⟩ fun s a s' h hen hroom hstep => ?_
    obtain ⟨s₁, hok, hsound⟩ := h.1.step hen hroom
    cases hstep.symm.trans hok
    obtain ⟨events, hlog, hchange⟩ := h.1.recorded hen hstep
    refine ⟨hsound, ?_⟩
    rw [hlog, lifeOf_append, h.2, Option.bind_some]
    exact (hchange c).stage
  exact hboth.2

/-- Construction, destruction and deletion come in turns at every address.  As many objects
have been destroyed there as constructed, but for one that is alive, and as many
controllers deleted, but for one that exists. -/
theorem destroyed_once (hrun : (machine R K C).Run System.Roomy as s) (c : C) :
    lifeOf c s.log = some (stageOf (s.controllers c)) ∧
    s.log.count (.constructed c) = s.log.count (.destroyed c) +
      (if stageOf (s.controllers c) = .alive then 1 else 0) ∧
    s.log.count (.constructed c) = s.log.count (.deleted c) +
      (if stageOf (s.controllers c) = .absent then 0 else 1) := by
  have hlife := life_of_run hrun c
  obtain ⟨hdestroyed, hdeleted⟩ := count_of_life s.log hlife
  exact ⟨hlife, hdestroyed, hdeleted⟩

/-- A pointer is copied, and both are destroyed while a third watches. -/
def watched : List (Action (Fin 5) (Fin 1) Nat) :=
  [.newShared 0 7 true, .copyWeak 1 0, .proceed 1, .copyShared 2 0 true, .proceed 2,
    .destroyShared 0, .proceed 0, .proceed 0, .destroyShared 2, .proceed 2, .proceed 2, .proceed 2,
    .proceed 2, .proceed 2]

theorem destroyed_once_watched : ∃ s, (machine (Fin 5) (Fin 1) Nat).Run System.Roomy watched s ∧
    s.log.count (.constructed 7) = s.log.count (.destroyed 7) + 0 ∧
    s.log.count (.constructed 7) = s.log.count (.deleted 7) + 1 := by
  have hrun : (machine (Fin 5) (Fin 1) Nat).Run System.Roomy watched _ := Machine.run_of_exec rfl
  exact ⟨_, hrun, (destroyed_once hrun 7).2⟩

/-! ## At rest -/

/-- No call is under way. -/
def AtRest (s : System R K C) : Prop :=
  (∀ r, (s.cells r).isBusy = false) ∧ ∀ k, s.frames k = none

/-- An object that has expired is not held by any `SharedPtr` again, whatever is pinned,
before its controller is deleted. -/
theorem expired_stays (hrun : (machine R K C).Run System.Roomy as s)
    {x : ReferenceController} (hx : s.controllers c = some x) (hzero : x.sharedReferenceCount = 0)
    (hpath : (machine R K C).Path System.Roomy s bs s') :
    ∃ events, s'.log = s.log ++ events ∧ (.deleted c ∉ events →
      (∃ y, s'.controllers c = some y ∧ y.sharedReferenceCount = 0) ∧
      ∀ r object, s'.cells r ≠ .settled (.shared object (some c))) := by
  have hinv : Sound s' ∧ ∃ events, s'.log = s.log ++ events ∧ (.deleted c ∉ events →
      ∃ y, s'.controllers c = some y ∧ y.sharedReferenceCount = 0) := by
    refine hpath.invariant (I := fun s' => Sound s' ∧ ∃ events, s'.log = s.log ++ events ∧
      (.deleted c ∉ events → ∃ y, s'.controllers c = some y ∧ y.sharedReferenceCount = 0)) ?_ ?_
    · exact ⟨sound_of_run hrun, [], (List.append_nil _).symm, fun _ => ⟨x, hx, hzero⟩⟩
    · rintro s₁ a s₂ ⟨hsound, events, hlog, hexpired⟩ hen hroom hstep
      obtain ⟨s₃, hok, hsound'⟩ := hsound.step hen hroom
      cases hstep.symm.trans hok
      obtain ⟨more, hmore, hchange⟩ := hsound.recorded hen hstep
      refine ⟨hsound', events ++ more, ?_, fun hnot => ?_⟩
      · rw [hmore, hlog, List.append_assoc]
      · rw [List.mem_append, not_or] at hnot
        obtain ⟨y, hy, hcount⟩ := hexpired hnot.1
        have hc := hchange c
        rw [hy] at hc
        exact hc.expired hcount hnot.2
  obtain ⟨hsound, events, hlog, hexpired⟩ := hinv
  refine ⟨events, hlog, fun hnot => ⟨hexpired hnot, fun r object hr => ?_⟩⟩
  obtain ⟨y, hy, hcount⟩ := hexpired hnot
  obtain ⟨z, hz, haccounts⟩ := (hsound.balanced c).exists (strong_pos hr)
  cases hy.symm.trans hz
  have hshared := haccounts.shared
  have hpos := strong_pos hr
  omega

/-- Two more pins, and then nobody watches. -/
theorem expired_stays_watched : ∃ s s', (machine (Fin 5) (Fin 1) Nat).Run System.Roomy watched s ∧
    (machine (Fin 5) (Fin 1) Nat).Path System.Roomy s
      [.pin 0 1, .pin 2 1, .proceed 2, .proceed 0, .destroyShared 2] s' ∧
    ∀ r object, s'.cells r ≠ .settled (.shared object (some 7)) := by
  obtain ⟨s, s', hexec, hx, hexec', hlog'⟩ : ∃ s s',
      (machine (Fin 5) (Fin 1) Nat).exec System.Roomy (machine (Fin 5) (Fin 1) Nat).start watched
        = some s ∧ s.controllers 7 = some ⟨0, 1, false⟩ ∧
      (machine (Fin 5) (Fin 1) Nat).exec System.Roomy s
        [.pin 0 1, .pin 2 1, .proceed 2, .proceed 0, .destroyShared 2] = some s' ∧
      s'.log = s.log := ⟨_, _, rfl, rfl, rfl, rfl⟩
  have hrun := Machine.run_of_exec hexec
  have hpath := Machine.path_of_exec hexec'
  obtain ⟨events, hevents, h⟩ := expired_stays hrun hx rfl hpath
  have hnone : events = [] := by
    rw [hlog'] at hevents
    simpa using hevents.symm
  exact ⟨s, s', hrun, hpath, (h (by simp [hnone])).2⟩

end Runs

end Calls

end SharedPointer

end Rx
