/-
# `RxFoundation.SharedPointerSpec` — no pointer outlives what it points to

Whatever the calls do and however they interleave, each controller's accounts are
those of the stakes in it (`Sound.step`).  So no access is to a controller that has
been deleted, no check fails, and nothing is destroyed or deleted twice (`pointers_safe`).
-/
import CrashRealm.RxFoundation.SharedPointerBalance

namespace Rx

namespace SharedPointer

open Holders

variable {R K C : Type}

/-! ## Pointers that are read, and what they point to -/

/-- The pointer a call is reading has not changed since the call looked at it. -/
def Cell.Backed (lender : Held C) : Cell R C → Prop
  | .addShared _ new _ _ => lender.isShared = true ∧ lender.controller = some new
  | .addWeak _ new _ _ => lender.controller = some new
  | .peek _ c => lender.isWeak = true ∧ lender.controller = some c
  | .compareExchange _ c originalCount =>
      lender.isWeak = true ∧ lender.controller = some c ∧ originalCount ≠ 0
  | _ => True

/-- An `Object` is the one of the controller. -/
def Held.Pointed (held : Held C) : Prop := ∀ o ∈ held.object, held.controller = some o

def Cell.Pointed : Cell R C → Prop
  | .settled held => held.Pointed
  | .addShared _ new _ object => ∀ o ∈ object, o = new
  | .addWeak _ new _ object => ∀ o ∈ object, o = new
  | .release _ next => next.Pointed
  | _ => True

structure Tidy (s : System R K C) : Prop where
  lent : ∀ r q, (s.cells r).source = some q → (s.cells r).Backed (s.held q)
  pointed : ∀ r, (s.cells r).Pointed

section Places

variable {s s' : System R K C} {r q source : R}

theorem Tidy.congr (h : Tidy s) (hcells : s'.cells = s.cells) : Tidy s' where
  lent := by
    rw [hcells]
    intro r q hq
    rw [System.held, hcells]
    exact h.lent r q hq
  pointed := by
    rw [hcells]
    exact h.pointed

/-- A place without a pointer is not read. -/
theorem Tidy.not_lent (h : Tidy s) (hr : s.held r = .nothing) : ¬ s.Lent r := by
  rintro ⟨q, hq⟩
  have hbacked := h.lent q r hq
  rw [hr] at hbacked
  revert hq hbacked
  cases s.cells q <;> simp [Cell.source, Cell.Backed, Held.isShared, Held.isWeak, Held.controller]

theorem held_of_free (hr : s.Free r) : s.held r = .nothing := by
  rw [System.held, hr]
  rfl

theorem held_of_busy (hr : (s.cells r).isBusy = true) : s.held r = .nothing := by
  rw [System.held]
  revert hr
  cases s.cells r with
  | settled held =>
      intro h
      cases h
  | _ => exact fun _ => rfl

theorem cells_of_shared (hr : s.Shared r) :
    ∃ object controller, s.cells r = .settled (.shared object controller) := by
  rw [System.Shared, System.held] at hr
  revert hr
  cases s.cells r with
  | settled held =>
      cases held with
      | shared object controller => exact fun _ => ⟨object, controller, rfl⟩
      | nothing =>
          intro h
          cases h
      | weak object controller =>
          intro h
          cases h
  | _ =>
      intro h
      cases h

theorem cells_of_weak (hr : s.Weak r) :
    ∃ object controller, s.cells r = .settled (.weak object controller) := by
  rw [System.Weak, System.held] at hr
  revert hr
  cases s.cells r with
  | settled held =>
      cases held with
      | weak object controller => exact fun _ => ⟨object, controller, rfl⟩
      | nothing =>
          intro h
          cases h
      | shared object controller =>
          intro h
          cases h
  | _ =>
      intro h
      cases h

theorem cells_of_readable (hr : s.Shared r ∨ s.Weak r) : ∃ held, s.cells r = .settled held := by
  rcases hr with hr | hr
  · obtain ⟨object, controller, hcell⟩ := cells_of_shared hr
    exact ⟨_, hcell⟩
  · obtain ⟨object, controller, hcell⟩ := cells_of_weak hr
    exact ⟨_, hcell⟩

theorem ne_of_free (hr : s.Free r) (hsource : s.Shared source ∨ s.Weak source) : source ≠ r := by
  rintro rfl
  rw [System.Shared, System.Weak, held_of_free hr] at hsource
  rcases hsource with h | h <;> cases h

theorem held_of_cells {held : Held C} (hr : s.cells r = .settled held) : s.held r = held := by
  rw [System.held, hr]
  rfl

variable [DecidableEq R] [DecidableEq K] [DecidableEq C]

omit [DecidableEq K] [DecidableEq C] in
theorem cells_setCell_self (s : System R K C) (r : R) (cell : Cell R C) :
    (s.setCell r cell).cells r = cell := Function.update_self _ _ _

omit [DecidableEq K] [DecidableEq C] in
theorem cells_setCell_of_ne (hq : q ≠ r) (s : System R K C) (cell : Cell R C) :
    (s.setCell r cell).cells q = s.cells q := Function.update_of_ne hq _ _

omit [DecidableEq K] [DecidableEq C] in
theorem Tidy.setCell (h : Tidy s) (hr : ¬ s.Lent r) {cell : Cell R C}
    (hsource : ∀ q, cell.source = some q → q ≠ r ∧ cell.Backed (s.held q))
    (hpointed : cell.Pointed) : Tidy (s.setCell r cell) where
  lent := by
    have hheld : ∀ q, q ≠ r → (s.setCell r cell).held q = s.held q := by
      intro q hq
      rw [System.held, cells_setCell_of_ne hq, System.held]
    intro p q hq
    by_cases hp : p = r
    · subst hp
      rw [cells_setCell_self] at hq
      rw [hheld q (hsource q hq).1, cells_setCell_self]
      exact (hsource q hq).2
    · rw [cells_setCell_of_ne hp] at hq
      have hne : q ≠ r := fun heq => hr ⟨p, by rw [hq, heq]⟩
      rw [hheld q hne, cells_setCell_of_ne hp]
      exact h.lent p q hq
  pointed := by
    intro p
    by_cases hp : p = r
    · subst hp
      rw [cells_setCell_self]
      exact hpointed
    · rw [cells_setCell_of_ne hp]
      exact h.pointed p

omit [DecidableEq K] [DecidableEq C] in
theorem Tidy.settle (h : Tidy s) (hr : ¬ s.Lent r) {held : Held C} (hpointed : held.Pointed) :
    Tidy (s.settle r held) := by
  refine h.setCell hr (fun q hq => ?_) hpointed
  cases hq

omit [DecidableEq K] [DecidableEq C] in
theorem not_lent_settle (hq : ¬ s.Lent q) (held : Held C) : ¬ (s.settle r held).Lent q := by
  rintro ⟨p, hp⟩
  rw [System.settle] at hp
  by_cases hpr : p = r
  · subst hpr
    rw [cells_setCell_self] at hp
    cases hp
  · rw [cells_setCell_of_ne hpr] at hp
    exact hq ⟨p, hp⟩

end Places

/-! ## All stakes -/

section Stakes

variable [Fintype R] [Fintype K] [DecidableEq C]

/-- The stakes in a controller. -/
def System.stakes (s : System R K C) (c : C) (k : Stake) : Nat :=
  Census.total (fun r => (s.cells r).stakes k c) + Census.total (fun f => remaining k c (s.frames f))

/-- Every controller's accounts are right, and so is what the pointers say. -/
structure Sound (s : System R K C) : Prop where
  balanced : ∀ c, Balanced (s.controllers c) (s.stakes c)
  tidy : Tidy s

variable {s : System R K C} {r source : R} {f : K} {c : C}

theorem stakes_le (s : System R K C) (r : R) (c : C) (k : Stake) :
    (s.cells r).stakes k c ≤ s.stakes c k :=
  Nat.le_trans (Census.le_total (fun r => (s.cells r).stakes k c) r) (Nat.le_add_right _ _)

theorem remaining_le (s : System R K C) (f : K) (c : C) (k : Stake) :
    remaining k c (s.frames f) ≤ s.stakes c k :=
  Nat.le_trans (Census.le_total (fun f => remaining k c (s.frames f)) f) (Nat.le_add_left _ _)

variable [DecidableEq R] [DecidableEq K]

omit [DecidableEq K] in
theorem stakes_setCell (s : System R K C) (r : R) (cell : Cell R C) (c : C) (k : Stake) :
    (s.setCell r cell).stakes c k + (s.cells r).stakes k c = s.stakes c k + cell.stakes k c := by
  have := Census.total_update s.cells (fun x => x.stakes k c) r cell
  simp only [System.stakes, System.setCell]
  omega

omit [DecidableEq R] in
theorem stakes_setFrame (s : System R K C) (f : K) (todo : Option (Release C)) (c : C) (k : Stake) :
    (s.setFrame f todo).stakes c k + remaining k c (s.frames f) =
      s.stakes c k + remaining k c todo := by
  have := Census.total_update s.frames (fun x => remaining k c x) f todo
  simp only [System.stakes, System.setFrame]
  omega

omit [DecidableEq R] [DecidableEq K] in
/-- What changes no controller and no stake. -/
theorem Sound.of_stakes {s' : System R K C} (h : Sound s) (hcontrollers : s'.controllers = s.controllers)
    (hstakes : ∀ c k, s'.stakes c k = s.stakes c k) (htidy : Tidy s') : Sound s' where
  balanced := by
    intro c
    rw [hcontrollers, funext (hstakes c)]
    exact h.balanced c
  tidy := htidy

omit [DecidableEq K] in
/-- A call that begins, or a pointer without a controller. -/
theorem Sound.setCell (h : Sound s) (hr : ¬ s.Lent r) {cell : Cell R C}
    (hstakes : ∀ k c, cell.stakes k c = (s.cells r).stakes k c)
    (hsource : ∀ q, cell.source = some q → q ≠ r ∧ cell.Backed (s.held q))
    (hpointed : cell.Pointed) : Sound (s.setCell r cell) := by
  refine h.of_stakes rfl (fun c k => ?_) (h.tidy.setCell hr hsource hpointed)
  have := stakes_setCell s r cell c k
  rw [hstakes] at this
  omega

omit [DecidableEq K] in
theorem stakes_exchange (s : System R K C) (hne : source ≠ r) (x y : Held C) (c : C) (k : Stake) :
    ((s.settle r x).settle source y).stakes c k
        + ((s.cells r).stakes k c + (s.cells source).stakes k c) =
      s.stakes c k + (one (x.staked k) c + one (y.staked k) c) := by
  have hfirst := stakes_setCell s r (.settled x) c k
  have hsecond := stakes_setCell (s.settle r x) source (.settled y) c k
  rw [System.settle, cells_setCell_of_ne hne] at hsecond
  simp only [Cell.stakes, System.settle] at *
  omega

omit [DecidableEq K] in
/-- Two pointers exchange what they hold. -/
theorem Sound.exchange (h : Sound s) (hne : source ≠ r) (hr : ¬ s.Lent r) (hs : ¬ s.Lent source)
    {x y : Held C} (hstakes : ∀ k c, one (x.staked k) c + one (y.staked k) c =
      (s.cells r).stakes k c + (s.cells source).stakes k c)
    (hx : x.Pointed) (hy : y.Pointed) : Sound ((s.settle r x).settle source y) := by
  refine h.of_stakes rfl (fun c k => ?_) ((h.tidy.settle hr hx).settle (not_lent_settle hs x) hy)
  have := stakes_exchange s hne x y c k
  rw [hstakes] at this
  omega

/-- A pointer gives what it holds to another, and a frame what the other held. -/
theorem Sound.transfer (h : Sound s) (hne : source ≠ r) (hr : ¬ s.Lent r) (hs : ¬ s.Lent source)
    {x y : Held C} {todo : Option (Release C)} (hf : s.frames f = none)
    (hstakes : ∀ k c, one (x.staked k) c + one (y.staked k) c + remaining k c todo =
      (s.cells r).stakes k c + (s.cells source).stakes k c)
    (hx : x.Pointed) (hy : y.Pointed) :
    Sound (((s.settle r x).settle source y).setFrame f todo) := by
  have htidy : Tidy ((s.settle r x).settle source y) :=
    (h.tidy.settle hr hx).settle (not_lent_settle hs x) hy
  refine h.of_stakes rfl (fun c k => ?_) (htidy.congr rfl)
  have hcells := stakes_exchange s hne x y c k
  have hframes := stakes_setFrame ((s.settle r x).settle source y) f todo c k
  have hnone : ((s.settle r x).settle source y).frames f = none := hf
  have hk := hstakes k c
  rw [hnone, remaining, Option.bind_none, one_none] at hframes
  omega

/-! ## The calls that begin -/

omit [DecidableEq K] in
theorem Sound.nullShared (h : Sound s) (hr : s.Free r) : Sound (s.settle r (.shared none none)) := by
  refine h.setCell (h.tidy.not_lent (held_of_free hr)) (fun k c => ?_) (fun q hq => ?_) ?_
  · rw [hr]
    cases k <;> rfl
  · cases hq
  · intro o ho
    cases ho

omit [DecidableEq K] in
theorem Sound.nullWeak (h : Sound s) (hr : s.Free r) : Sound (s.settle r (.weak none none)) := by
  refine h.setCell (h.tidy.not_lent (held_of_free hr)) (fun k c => ?_) (fun q hq => ?_) ?_
  · rw [hr]
    cases k <;> rfl
  · cases hq
  · intro o ho
    cases ho

omit [DecidableEq K] in
theorem Sound.copyShared (h : Sound s) (hr : s.Free r) (hsource : s.Shared source) (cast : Bool) :
    Sound (s.copyShared r source cast) := by
  obtain ⟨object, controller, hcell⟩ := cells_of_shared hsource
  have hne : source ≠ r := ne_of_free hr (.inl hsource)
  have hpointed := h.tidy.pointed source
  rw [hcell] at hpointed
  have hobject : ∀ o ∈ (if cast then object else none), controller = some o := by
    intro o ho
    split at ho
    · exact hpointed o ho
    · cases ho
  rw [System.copyShared, held_of_cells hcell]
  cases controller with
  | none =>
      refine h.setCell (h.tidy.not_lent (held_of_free hr)) (fun k c => ?_) (fun q hq => ?_) hobject
      · rw [hr]
        cases k <;> rfl
      · cases hq
  | some c =>
      refine h.setCell (h.tidy.not_lent (held_of_free hr)) (fun k d => ?_) (fun q hq => ?_) ?_
      · rw [hr]
        cases k <;> rfl
      · cases hq
        rw [held_of_cells hcell]
        exact ⟨hne, rfl, rfl⟩
      · exact fun o ho => (Option.some.inj (hobject o ho)).symm

omit [DecidableEq K] in
theorem Sound.copyWeak (h : Sound s) (hr : s.Free r) (hsource : s.Shared source ∨ s.Weak source) :
    Sound (s.copyWeak r source) := by
  obtain ⟨held, hcell⟩ := cells_of_readable hsource
  have hne : source ≠ r := ne_of_free hr hsource
  have hpointed := h.tidy.pointed source
  rw [hcell] at hpointed
  rw [System.copyWeak, held_of_cells hcell]
  cases hcontroller : held.controller with
  | none =>
      refine h.setCell (h.tidy.not_lent (held_of_free hr)) (fun k c => ?_) (fun q hq => ?_) ?_
      · rw [hr]
        cases k <;> rfl
      · cases hq
      · intro o ho
        rw [← hcontroller]
        exact hpointed o ho
  | some c =>
      refine h.setCell (h.tidy.not_lent (held_of_free hr)) (fun k d => ?_) (fun q hq => ?_) ?_
      · rw [hr]
        cases k <;> rfl
      · cases hq
        rw [held_of_cells hcell]
        exact ⟨hne, hcontroller⟩
      · exact fun o ho => (Option.some.inj (hcontroller.symm.trans (hpointed o ho))).symm

omit [DecidableEq K] in
theorem Sound.pin (h : Sound s) (hr : s.Free r) (hsource : s.Weak source) :
    Sound (s.pin r source) := by
  obtain ⟨object, controller, hcell⟩ := cells_of_weak hsource
  have hne : source ≠ r := ne_of_free hr (.inr hsource)
  rw [System.pin, held_of_cells hcell]
  cases controller with
  | none => exact h.nullShared hr
  | some c =>
      refine h.setCell (h.tidy.not_lent (held_of_free hr)) (fun k d => ?_) (fun q hq => ?_) trivial
      · rw [hr]
        cases k <;> rfl
      · cases hq
        rw [held_of_cells hcell]
        exact ⟨hne, rfl, rfl⟩

omit [DecidableEq K] in
theorem Sound.destroyShared (h : Sound s) (hr : s.OwnShared r) : Sound (s.destroyShared r) := by
  obtain ⟨object, controller, hcell⟩ := cells_of_shared hr.1
  rw [System.destroyShared, held_of_cells hcell]
  cases controller with
  | none =>
      refine h.setCell hr.2 (fun k c => ?_) (fun q hq => ?_) (fun o ho => ?_)
      · rw [hcell]
        cases k <;> rfl
      · cases hq
      · cases ho
  | some c =>
      refine h.setCell hr.2 (fun k d => ?_) (fun q hq => ?_) (fun o ho => ?_)
      · rw [hcell]
        cases k <;> rfl
      · cases hq
      · cases ho

omit [DecidableEq K] in
theorem Sound.destroyWeak (h : Sound s) (hr : s.OwnWeak r) : Sound (s.destroyWeak r) := by
  obtain ⟨object, controller, hcell⟩ := cells_of_weak hr.1
  rw [System.destroyWeak, held_of_cells hcell]
  cases controller with
  | none =>
      refine h.setCell hr.2 (fun k c => ?_) (fun q hq => ?_) (fun o ho => ?_)
      · rw [hcell]
        cases k <;> rfl
      · cases hq
      · cases ho
  | some c =>
      refine h.setCell hr.2 (fun k d => ?_) (fun q hq => ?_) (fun o ho => ?_)
      · rw [hcell]
        cases k <;> rfl
      · cases hq
      · cases ho

omit [DecidableEq K] in
theorem Sound.assignShared (h : Sound s) (hr : s.OwnShared r) (hsource : s.Shared source) :
    Sound (s.assignShared r source) := by
  obtain ⟨object', old, hr'⟩ := cells_of_shared hr.1
  obtain ⟨object, new, hcell⟩ := cells_of_shared hsource
  have hpointed := h.tidy.pointed source
  rw [hcell] at hpointed
  rw [System.assignShared, held_of_cells hcell, held_of_cells hr']
  show Sound (s.setCell r (Cell.assignShared source old new object))
  unfold Cell.assignShared
  split
  next hsame =>
    refine h.setCell hr.2 (fun k c => ?_) (fun q hq => ?_) (fun o ho => ?_)
    · rw [hr']
      cases k <;> rfl
    · cases hq
    · exact hsame.symm.trans (hpointed o ho)
  next hne =>
    cases new with
    | some n =>
        refine h.setCell hr.2 (fun k c => ?_) (fun q hq => ?_) (fun o ho => ?_)
        · rw [hr']
          cases k <;> rfl
        · cases hq
          rw [held_of_cells hcell]
          refine ⟨?_, rfl, rfl⟩
          rintro rfl
          rw [hr'] at hcell
          cases hcell
          exact hne rfl
        · exact (Option.some.inj (hpointed o ho)).symm
    | none =>
        cases old with
        | none => exact absurd rfl hne
        | some c =>
            refine h.setCell hr.2 (fun k c => ?_) (fun q hq => ?_) hpointed
            · rw [hr']
              cases k <;> rfl
            · cases hq

omit [DecidableEq K] in
theorem Sound.assignWeak (h : Sound s) (hr : s.OwnWeak r)
    (hsource : s.Shared source ∨ s.Weak source) (pinned : Bool) :
    Sound (s.assignWeak r source pinned) := by
  obtain ⟨object', old, hr'⟩ := cells_of_weak hr.1
  obtain ⟨held, hcell⟩ := cells_of_readable hsource
  have hpointed := h.tidy.pointed source
  rw [hcell] at hpointed
  have hobject : ∀ o ∈ (if pinned then held.object else none), held.controller = some o := by
    intro o ho
    split at ho
    · exact hpointed o ho
    · cases ho
  rw [System.assignWeak, held_of_cells hcell, held_of_cells hr']
  generalize (if pinned then held.object else none) = object at hobject
  show Sound (s.setCell r (Cell.assignWeak source old held.controller object))
  unfold Cell.assignWeak
  split
  next hsame =>
    refine h.setCell hr.2 (fun k c => ?_) (fun q hq => ?_) (fun o ho => ?_)
    · rw [hr']
      cases k <;> rfl
    · cases hq
    · exact hsame.symm.trans (hobject o ho)
  next hne =>
    cases hcontroller : held.controller with
    | some n =>
        rw [hcontroller] at hobject
        refine h.setCell hr.2 (fun k c => ?_) (fun q hq => ?_) (fun o ho => ?_)
        · rw [hr']
          cases k <;> rfl
        · cases hq
          rw [held_of_cells hcell]
          refine ⟨?_, hcontroller⟩
          rintro rfl
          rw [hr'] at hcell
          cases hcell
          exact hne rfl
        · exact (Option.some.inj (hobject o ho)).symm
    | none =>
        rw [hcontroller] at hobject
        cases old with
        | none => exact absurd hcontroller hne
        | some c =>
            refine h.setCell hr.2 (fun k c => ?_) (fun q hq => ?_) hobject
            · rw [hr']
              cases k <;> rfl
            · cases hq

omit [DecidableEq K] in
theorem Sound.moveShared (h : Sound s) (hr : s.Free r) (hsource : s.OwnShared source) :
    Sound (s.moveShared r source) := by
  obtain ⟨object, controller, hcell⟩ := cells_of_shared hsource.1
  have hpointed := h.tidy.pointed source
  have hne : source ≠ r := ne_of_free hr (.inl hsource.1)
  rw [hcell] at hpointed
  rw [System.moveShared, held_of_cells hcell]
  refine h.exchange hne (h.tidy.not_lent (held_of_free hr)) hsource.2 (fun k c => ?_) hpointed
    fun o ho => ?_
  · rw [hr, hcell]
    cases k <;> simp [Cell.stakes, Held.staked]
  · cases ho

omit [DecidableEq K] in
theorem Sound.moveWeak (h : Sound s) (hr : s.Free r) (hsource : s.OwnWeak source) :
    Sound (s.moveWeak r source) := by
  obtain ⟨object, controller, hcell⟩ := cells_of_weak hsource.1
  have hpointed := h.tidy.pointed source
  have hne : source ≠ r := ne_of_free hr (.inr hsource.1)
  rw [hcell] at hpointed
  rw [System.moveWeak, held_of_cells hcell]
  refine h.exchange hne (h.tidy.not_lent (held_of_free hr)) hsource.2 (fun k c => ?_) hpointed
    fun o ho => ?_
  · rw [hr, hcell]
    cases k <;> simp [Cell.stakes, Held.staked]
  · cases ho

omit [DecidableEq K] in
theorem Sound.swapShared (h : Sound s) (hr : s.OwnShared r) (hsource : s.OwnShared source) :
    Sound (s.swapShared r source) := by
  obtain ⟨object', old, hr'⟩ := cells_of_shared hr.1
  obtain ⟨object, new, hcell⟩ := cells_of_shared hsource.1
  have hpointed := h.tidy.pointed source
  have hpointed' := h.tidy.pointed r
  rw [hcell] at hpointed
  rw [hr'] at hpointed'
  rw [System.swapShared, held_of_cells hcell, held_of_cells hr']
  by_cases hne : source = r
  · subst hne
    rw [hr'] at hcell
    cases hcell
    have hfirst : Sound (s.settle source (.shared object' old)) := by
      refine h.setCell hr.2 (fun k c => ?_) (fun q hq => ?_) hpointed'
      · rw [hr']
      · cases hq
    refine hfirst.setCell (not_lent_settle hr.2 _) (fun k c => ?_) (fun q hq => ?_) hpointed'
    · rw [System.settle, cells_setCell_self]
    · cases hq
  · refine h.exchange hne hr.2 hsource.2 (fun k c => ?_) hpointed hpointed'
    rw [hr', hcell]
    exact Nat.add_comm _ _

theorem Sound.moveAssignShared (h : Sound s) (hf : s.frames f = none) (hr : s.OwnShared r)
    (hsource : s.OwnShared source) : Sound (s.moveAssignShared f r source) := by
  rw [System.moveAssignShared]
  split
  · exact h
  next hself =>
    have hne : source ≠ r := fun heq => hself heq.symm
    obtain ⟨object', old, hr'⟩ := cells_of_shared hr.1
    obtain ⟨object, new, hcell⟩ := cells_of_shared hsource.1
    have hpointed := h.tidy.pointed source
    rw [hcell] at hpointed
    rw [held_of_cells hcell, held_of_cells hr']
    show Sound (if new = old then _ else _)
    split
    next hsame =>
      subst hsame
      refine h.exchange hne hr.2 hsource.2 (fun k c => ?_) hpointed fun o ho => ?_
      · rw [hr', hcell]
        cases k <;> rfl
      · cases ho
    next hother =>
      refine h.transfer hne hr.2 hsource.2 hf (fun k c => ?_) hpointed fun o ho => ?_
      · rw [hr', hcell]
        show _ + remaining k c (old.map .checkShared) = _
        cases old <;> cases k <;> simp [Cell.stakes, Held.staked, remaining, Release.staked,
          Nat.add_comm]
      · cases ho

theorem Sound.moveAssignWeak (h : Sound s) (hf : s.frames f = none) (hr : s.OwnWeak r)
    (hsource : s.OwnWeak source) : Sound (s.moveAssignWeak f r source) := by
  rw [System.moveAssignWeak]
  split
  · exact h
  next hself =>
    have hne : source ≠ r := fun heq => hself heq.symm
    obtain ⟨object', old, hr'⟩ := cells_of_weak hr.1
    obtain ⟨object, new, hcell⟩ := cells_of_weak hsource.1
    have hpointed := h.tidy.pointed source
    rw [hcell] at hpointed
    rw [held_of_cells hcell, held_of_cells hr']
    refine h.transfer hne hr.2 hsource.2 hf (fun k c => ?_) hpointed fun o ho => ?_
    · rw [hr', hcell]
      show _ + remaining k c (old.map .checkWeak) = _
      cases old <;> cases k <;> simp [Cell.stakes, Held.staked, remaining, Release.staked,
        Nat.add_comm]
    · cases ho

omit [DecidableEq K] in
theorem Sound.newShared (h : Sound s) (hr : s.Free r) (hc : s.controllers c = none) (object : Bool) :
    Sound (s.newShared r c object) := by
  have hnone : ∀ k, s.stakes c k = 0 := by
    have := h.balanced c
    rwa [hc] at this
  let held : Held C := .shared (if object then some c else none) (some c)
  have hheld : held.Pointed := by
    intro o ho
    change o ∈ (if object then some c else none) at ho
    split at ho
    · exact ho
    · cases ho
  have hstakes : ∀ d k, (s.settle r held).stakes d k =
      s.stakes d k + one ((Held.shared none (some c)).staked k) d := by
    intro d k
    have := stakes_setCell s r (.settled held) d k
    rw [hr] at this
    cases k <;> exact this
  refine ⟨?_, (h.tidy.settle (h.tidy.not_lent (held_of_free hr)) hheld).congr rfl⟩
  show ∀ d, Balanced (s.controllers.set c (some {}) d) ((s.settle r held).stakes d)
  refine balanced_set h.balanced (fun d hd k => ?_) ?_
  · rw [hstakes]
    cases k <;> simp [Held.staked, one, Ne.symm hd]
  · have ht : ∀ k, (s.settle r held).stakes c k = only .strong k := by
      intro k
      rw [hstakes, hnone]
      cases k <;> simp [Held.staked, only]
    have hs : (s.settle r held).stakes c .strong = 1 := ht .strong
    have hw : (s.settle r held).stakes c .weak = 0 := ht .weak
    have hd : (s.settle r held).stakes c .destroying = 0 := ht .destroying
    have hx : (s.settle r held).stakes c .deleting = 0 := ht .deleting
    constructor
    · rw [hs]
      rfl
    · rw [hs, hw, hd]
      rfl
    · rw [hs, hd]
      rfl
    · rw [hx]
      rfl
    · decide
    · decide

/-! ## The calls that go on -/

omit [Fintype R] [Fintype K] [DecidableEq R] [DecidableEq K] in
theorem stakes_afterAddShared (new : C) (old object : Option C) (k : Stake) (c : C) :
    (Cell.afterAddShared new old object : Cell R C).stakes k c =
      one ((Held.shared none old).staked k) c + one ((Held.shared none (some new)).staked k) c := by
  cases old <;> cases k <;>
    simp [Cell.afterAddShared, Cell.stakes, Held.staked, Release.staked]

omit [Fintype R] [Fintype K] [DecidableEq R] [DecidableEq K] in
theorem stakes_afterAddWeak (new : C) (old object : Option C) (k : Stake) (c : C) :
    (Cell.afterAddWeak new old object : Cell R C).stakes k c =
      one ((Held.weak none old).staked k) c + one ((Held.weak none (some new)).staked k) c := by
  cases old <;> cases k <;>
    simp [Cell.afterAddWeak, Cell.stakes, Held.staked, Release.staked]

omit [DecidableEq R] [DecidableEq K] in
theorem strong_pos {object : Option C} (hr : s.cells r = .settled (.shared object (some c))) :
    0 < s.stakes c .strong := by
  have hle := stakes_le s r c .strong
  rw [hr] at hle
  exact Nat.lt_of_lt_of_le (by simp [Cell.stakes, Held.staked]) hle

omit [DecidableEq R] [DecidableEq K] in
theorem weak_pos {object : Option C} (hr : s.cells r = .settled (.weak object (some c))) :
    0 < s.stakes c .weak := by
  have hle := stakes_le s r c .weak
  rw [hr] at hle
  exact Nat.lt_of_lt_of_le (by simp [Cell.stakes, Held.staked]) hle

omit [DecidableEq K] in
/-- `AddSharedReference`, in a copy or an assignment. -/
theorem Sound.addShared (h : Sound s) {new : C} {old object : Option C}
    (hr : s.cells r = .addShared source new old object)
    (hroom : ∀ n ∈ (s.cells r).raised s.controllers, n < maxCount) :
    ∃ s', s.proceed r = .ok s' ∧ Sound s' := by
  have hfree : ¬ s.Lent r := h.tidy.not_lent (held_of_busy (by rw [hr]; rfl))
  have hlent := h.tidy.lent r source
  have hpointed := h.tidy.pointed r
  rw [hr] at hlent hpointed hroom
  obtain ⟨hshared, hnew⟩ := hlent rfl
  obtain ⟨object', controller, hsource⟩ := cells_of_shared hshared
  rw [held_of_cells hsource] at hnew
  cases hnew
  have hcount : ∀ x ∈ s.controllers new, x.sharedReferenceCount < maxCount := fun x hx =>
    hroom _ (Option.mem_map_of_mem _ hx)
  let cell : Cell R C := Cell.afterAddShared new old object
  have hstakes : ∀ d k, (s.setCell r cell).stakes d k =
      s.stakes d k + one ((Held.shared none (some new)).staked k) d := by
    intro d k
    have := stakes_setCell s r cell d k
    rw [hr, stakes_afterAddShared] at this
    change _ + one _ _ = _ at this
    omega
  obtain ⟨h', hadd, hbal⟩ :=
    addSharedReference_spec h.balanced (strong_pos hsource) hcount hstakes
  refine ⟨(s.withControllers h').setCell r cell, ?_, hbal, ?_⟩
  · unfold System.proceed
    rw [hr]
    show (addSharedReference s.controllers new >>= _) = _
    rw [hadd]
    rfl
  · have htidy : Tidy (s.setCell r cell) := by
      refine h.tidy.setCell hfree (fun q hq => ?_) ?_
      · cases old <;> cases hq
      · cases old <;> exact fun o ho => congrArg some (hpointed o ho).symm
    exact htidy.congr rfl

omit [DecidableEq K] in
/-- `AddWeakReference`, in a copy or an assignment. -/
theorem Sound.addWeak (h : Sound s) {new : C} {old object : Option C}
    (hr : s.cells r = .addWeak source new old object)
    (hroom : ∀ n ∈ (s.cells r).raised s.controllers, n < maxCount) :
    ∃ s', s.proceed r = .ok s' ∧ Sound s' := by
  have hfree : ¬ s.Lent r := h.tidy.not_lent (held_of_busy (by rw [hr]; rfl))
  have hlent := h.tidy.lent r source
  have hpointed := h.tidy.pointed r
  rw [hr] at hlent hpointed hroom
  have hnew : (s.held source).controller = some new := hlent rfl
  have hpos : 0 < s.stakes new .strong ∨ 0 < s.stakes new .weak := by
    cases hsource : s.cells source with
    | settled held =>
        rw [held_of_cells hsource] at hnew
        cases held with
        | nothing => cases hnew
        | shared object' controller =>
            cases hnew
            exact .inl (strong_pos hsource)
        | weak object' controller =>
            cases hnew
            exact .inr (weak_pos hsource)
    | _ =>
        rw [System.held, hsource] at hnew
        cases hnew
  have hcount : ∀ x ∈ s.controllers new, x.weakReferenceCount < maxCount := fun x hx =>
    hroom _ (Option.mem_map_of_mem _ hx)
  let cell : Cell R C := Cell.afterAddWeak new old object
  have hstakes : ∀ d k, (s.setCell r cell).stakes d k =
      s.stakes d k + one ((Held.weak none (some new)).staked k) d := by
    intro d k
    have := stakes_setCell s r cell d k
    rw [hr, stakes_afterAddWeak] at this
    change _ + one _ _ = _ at this
    omega
  obtain ⟨h', hadd, hbal⟩ := addWeakReference_spec h.balanced hpos hcount hstakes
  refine ⟨(s.withControllers h').setCell r cell, ?_, hbal, ?_⟩
  · unfold System.proceed
    rw [hr]
    show (addWeakReference s.controllers new >>= _) = _
    rw [hadd]
    rfl
  · have htidy : Tidy (s.setCell r cell) := by
      refine h.tidy.setCell hfree (fun q hq => ?_) ?_
      · cases old <;> cases hq
      · cases old <;> exact fun o ho => congrArg some (hpointed o ho).symm
    exact htidy.congr rfl

omit [DecidableEq K] in
/-- The look at the count in `ConditionallyAddSharedReference`. -/
theorem Sound.peek (h : Sound s) (hr : s.cells r = .peek source c) :
    ∃ s', s.proceed r = .ok s' ∧ Sound s' := by
  have hfree : ¬ s.Lent r := h.tidy.not_lent (held_of_busy (by rw [hr]; rfl))
  have hlent := h.tidy.lent r source
  rw [hr] at hlent
  obtain ⟨hweak, hc⟩ := hlent rfl
  obtain ⟨object, controller, hsource⟩ := cells_of_weak hweak
  have hne : source ≠ r := by
    rintro rfl
    rw [hr] at hsource
    cases hsource
  rw [held_of_cells hsource] at hc
  cases hc
  obtain ⟨x, hx, -⟩ := (h.balanced c).exists (weak_pos hsource)
  unfold System.proceed
  rw [hr]
  show ∃ s', (s.controllers.deref c >>= _) = .ok s' ∧ _
  rw [Heap.deref_some hx, ok_bind]
  split
  next hzero =>
    refine ⟨_, rfl, h.setCell hfree (fun k d => ?_) (fun q hq => ?_) (fun o ho => ?_)⟩
    · rw [hr]
      cases k <;> rfl
    · cases hq
    · cases ho
  next hpos =>
    refine ⟨_, rfl, h.setCell hfree (fun k d => ?_) (fun q hq => ?_) trivial⟩
    · rw [hr]
      rfl
    · cases hq
      rw [held_of_cells hsource]
      exact ⟨hne, rfl, rfl, hpos⟩

omit [DecidableEq K] in
/-- `InterlockedCompareExchange` in `ConditionallyAddSharedReference`. -/
theorem Sound.compareExchange (h : Sound s) {originalCount : Int}
    (hr : s.cells r = .compareExchange source c originalCount)
    (hroom : ∀ n ∈ (s.cells r).raised s.controllers, n < maxCount) :
    ∃ s', s.proceed r = .ok s' ∧ Sound s' := by
  have hfree : ¬ s.Lent r := h.tidy.not_lent (held_of_busy (by rw [hr]; rfl))
  have hlent := h.tidy.lent r source
  rw [hr] at hlent hroom
  obtain ⟨hweak, hc, hnonzero⟩ := hlent rfl
  have hlt : originalCount < maxCount := hroom _ rfl
  obtain ⟨object, controller, hsource⟩ := cells_of_weak hweak
  have hne : source ≠ r := by
    rintro rfl
    rw [hr] at hsource
    cases hsource
  rw [held_of_cells hsource] at hc
  cases hc
  obtain ⟨x, hx, haccounts⟩ := (h.balanced c).exists (weak_pos hsource)
  unfold System.proceed
  rw [hr]
  show ∃ s', (if originalCount = maxCount then _ else s.controllers.deref c >>= _) = .ok s' ∧ _
  rw [if_neg (Int.ne_of_lt hlt), Heap.deref_some hx, ok_bind]
  split
  next hsame =>
    -- the count is not zero, so the object has not expired
    have hpos : 0 < s.stakes c .strong := by
      have hshared := haccounts.shared
      omega
    let held : Held C := .shared (s.held source).object (some c)
    have hheld : held.Pointed := by
      have hpointed := h.tidy.pointed source
      rw [hsource] at hpointed
      show ∀ o ∈ (s.held source).object, some c = some o
      rw [held_of_cells hsource]
      exact hpointed
    have hstakes : ∀ d k, (s.settle r held).stakes d k =
        s.stakes d k + one ((Held.shared none (some c)).staked k) d := by
      intro d k
      have := stakes_setCell s r (.settled held) d k
      rw [hr] at this
      cases k <;> exact this
    refine ⟨_, rfl, ?_, (h.tidy.settle hfree hheld).congr rfl⟩
    refine balanced_set h.balanced (fun d hd k => ?_) ?_
    · show (s.settle r held).stakes d k = _
      rw [hstakes]
      cases k <;> simp [Held.staked, one, Ne.symm hd]
    · rw [← hsame]
      refine haccounts.addShared hpos (by omega) fun k => ?_
      show (s.settle r held).stakes c k = _
      rw [hstakes]
      cases k <;> simp [Held.staked, only]
  next hother =>
    refine ⟨_, rfl, h.setCell hfree (fun k d => ?_) (fun q hq => ?_) trivial⟩
    · rw [hr]
      rfl
    · cases hq
      rw [held_of_cells hsource]
      exact ⟨hne, rfl, rfl⟩

omit [DecidableEq K] in
/-- An access of a release at a place. -/
theorem Sound.release (h : Sound s) {todo : Release C} {next : Held C}
    (hr : s.cells r = .release todo next) : ∃ s', s.proceed r = .ok s' ∧ Sound s' := by
  have hfree : ¬ s.Lent r := h.tidy.not_lent (held_of_busy (by rw [hr]; rfl))
  have hpointed := h.tidy.pointed r
  rw [hr] at hpointed
  have hheld : ∀ k, one (todo.staked k) todo.controller ≤ s.stakes todo.controller k := by
    intro k
    have hle := stakes_le s r todo.controller k
    rw [hr] at hle
    exact Nat.le_trans (Nat.le_add_right _ _) hle
  obtain ⟨h', todo', hstep, hbal⟩ := Release.step_spec h.balanced todo hheld
  let cell : Cell R C := Cell.afterRelease todo' next
  have hcell : ∀ k c, cell.stakes k c = remaining k c todo' + one (next.staked k) c := by
    intro k c
    cases todo' with
    | none => simp [cell, Cell.afterRelease, Cell.stakes, remaining]
    | some todo => rfl
  refine ⟨((s.withControllers h').setCell r cell).record todo.events, ?_, ?_, ?_⟩
  · unfold System.proceed
    rw [hr]
    show (todo.step s.controllers >>= _) = _
    rw [hstep]
    rfl
  · refine hbal (s.setCell r cell).stakes fun c k => ?_
    have := stakes_setCell s r cell c k
    rw [hr, hcell] at this
    simp only [Cell.stakes] at this
    omega
  · have htidy : Tidy (s.setCell r cell) := by
      refine h.tidy.setCell hfree (fun q hq => ?_) ?_
      · cases todo' <;> cases hq
      · cases todo' <;> exact hpointed
    exact htidy.congr rfl

omit [DecidableEq K] in
theorem Sound.proceed (h : Sound s) (hr : (s.cells r).isBusy = true)
    (hroom : ∀ n ∈ (s.cells r).raised s.controllers, n < maxCount) :
    ∃ s', s.proceed r = .ok s' ∧ Sound s' := by
  cases hcell : s.cells r with
  | settled held =>
      rw [hcell] at hr
      cases hr
  | addShared source new old object => exact h.addShared hcell hroom
  | addWeak source new old object => exact h.addWeak hcell hroom
  | peek source c => exact h.peek hcell
  | compareExchange source c originalCount => exact h.compareExchange hcell hroom
  | release todo next => exact h.release hcell

omit [DecidableEq R] in
/-- An access of a release in a frame. -/
theorem Sound.unwind (h : Sound s) (hf : (s.frames f).isSome = true) :
    ∃ s', s.unwind f = .ok s' ∧ Sound s' := by
  obtain ⟨todo, htodo⟩ := Option.isSome_iff_exists.mp hf
  have hheld : ∀ k, one (todo.staked k) todo.controller ≤ s.stakes todo.controller k := by
    intro k
    have hle := remaining_le s f todo.controller k
    rw [htodo] at hle
    exact hle
  obtain ⟨h', todo', hstep, hbal⟩ := Release.step_spec h.balanced todo hheld
  refine ⟨((s.withControllers h').setFrame f todo').record todo.events, ?_, ?_, ?_⟩
  · unfold System.unwind
    rw [htodo]
    show (todo.step s.controllers >>= _) = _
    rw [hstep]
    rfl
  · refine hbal (s.setFrame f todo').stakes fun c k => ?_
    have := stakes_setFrame s f todo' c k
    rw [htodo] at this
    exact this
  · exact h.tidy.congr rfl

/-! ## Any call -/

theorem Sound.step (h : Sound s) {a : Action R K C} (hen : s.enabled a) (hroom : s.Roomy a) :
    ∃ s', s.step a = .ok s' ∧ Sound s' := by
  cases a with
  | newShared r c object => exact ⟨_, rfl, h.newShared hen.1 hen.2 object⟩
  | nullShared r => exact ⟨_, rfl, h.nullShared hen⟩
  | copyShared r source cast => exact ⟨_, rfl, h.copyShared hen.1 hen.2 cast⟩
  | moveShared r source => exact ⟨_, rfl, h.moveShared hen.1 hen.2⟩
  | pin r source => exact ⟨_, rfl, h.pin hen.1 hen.2⟩
  | destroyShared r => exact ⟨_, rfl, h.destroyShared hen⟩
  | assignShared r source => exact ⟨_, rfl, h.assignShared hen.1 hen.2⟩
  | moveAssignShared k r source => exact ⟨_, rfl, h.moveAssignShared hen.1 hen.2.1 hen.2.2⟩
  | swapShared r source => exact ⟨_, rfl, h.swapShared hen.1 hen.2⟩
  | nullWeak r => exact ⟨_, rfl, h.nullWeak hen⟩
  | copyWeak r source => exact ⟨_, rfl, h.copyWeak hen.1 hen.2⟩
  | moveWeak r source => exact ⟨_, rfl, h.moveWeak hen.1 hen.2⟩
  | destroyWeak r => exact ⟨_, rfl, h.destroyWeak hen⟩
  | assignWeak r source pinned =>
      obtain ⟨hr, hsource⟩ := hen
      exact ⟨_, rfl, h.assignWeak hr (hsource.symm.imp And.left id) pinned⟩
  | moveAssignWeak k r source => exact ⟨_, rfl, h.moveAssignWeak hen.1 hen.2.1 hen.2.2⟩
  | proceed r => exact h.proceed hen (hroom r rfl)
  | unwind k => exact h.unwind hen

theorem Sound.start : Sound (machine R K C).start where
  balanced := by
    intro c k
    have hcells : Census.total (fun _ : R => (Cell.settled Held.nothing : Cell R C).stakes k c) = 0 :=
      Census.total_eq_zero.mpr fun _ => by cases k <;> rfl
    have hframes : Census.total (fun _ : K => remaining k c (none : Option (Release C))) = 0 :=
      Census.total_eq_zero.mpr fun _ => rfl
    show Census.total (fun _ : R => (Cell.settled Held.nothing : Cell R C).stakes k c) +
      Census.total (fun _ : K => remaining k c (none : Option (Release C))) = 0
    rw [hcells, hframes]
  tidy := {
    lent := by
      intro r q hq
      cases hq
    pointed := by
      intro r o ho
      cases ho }

theorem sound_of_run {as : List (Action R K C)}
    (hrun : (machine R K C).Run System.Roomy as s) : Sound s := by
  refine hrun.invariant Sound.start fun s a s' h hen hroom hstep => ?_
  obtain ⟨s₁, hok, hsound⟩ := h.step hen hroom
  cases hstep.symm.trans hok
  exact hsound

end Stakes

end SharedPointer

end Rx
