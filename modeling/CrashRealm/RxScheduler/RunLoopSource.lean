/-
# `RxScheduler.RunLoopSource` — the reference count of the wake-up source's info

The wake-up source of a run loop carries an info block with a reference count that
starts at zero; `CFRunLoopSourceCreate` makes the first retain.  A retain is one
atomic increment.  A release is two atomic operations: it compares the count with
one, and then either clears the weak worker and frees the block, or decrements.

Calls are made by any number of threads, and a release begins only if there are
more retains than releases.  Two releases that both compare before either
decrements find two, and leave a count of zero and a block nobody frees.
`freed_once_iff` says which interleavings free the block once, at the last release:
those in which no release decrements the last retain, none takes a wrapped count
for one, and nobody retains a block that a release has found to be its own.
-/
import CrashRealm.Lib.Machine
import CrashRealm.RxFoundation.Fault
import Mathlib.Data.Finset.Card
import Mathlib.Logic.Function.Basic
import Mathlib.Algebra.Group.Nat.Defs

namespace Rx

namespace RxRunLoopSchedulerSource

/-- `__RxRunLoopSchedulerSourceInfo`: an `atomic_int`, and whether the weak worker is set. -/
structure SourceInfo where
  rc : BitVec 32
  worker : Bool
  deriving DecidableEq, Repr

/-- Where a thread is in a call of `__RxRunLoopSchedulerSourceRelease`. -/
inductive Place where
  | outside
  /-- found a count other than one -/
  | unequal
  /-- found a count of one -/
  | equal
  /-- has cleared the worker -/
  | cleared
  deriving DecidableEq, Repr

/-- On the way to free the block. -/
def Place.frees : Place → Bool
  | equal | cleared => true
  | outside | unequal => false

/-- The info block, none once it is freed; where the threads are; how many calls of
retain were made, of release begun and of release ended, and how often the block
was freed. -/
structure Source (T : Type) where
  info : Option SourceInfo
  place : T → Place
  retains : Nat
  begun : Nat
  ended : Nat
  frees : Nat

inductive Action (T : Type) where
  /-- `rc++` of a retain -/
  | retain (t : T)
  /-- `rc == 1` of a release -/
  | compare (t : T)
  /-- `rc--` of a release -/
  | decrement (t : T)
  /-- `worker = nullptr` of a release -/
  | clearWorker (t : T)
  /-- `free` of a release -/
  | free (t : T)
  deriving DecidableEq, Repr

namespace Source

variable {T : Type}

/-- What `__RxRunLoopSchedulerCreateKeepAliveSource` hands to the source. -/
def create : Source T where
  info := some { rc := 0, worker := true }
  place := fun _ => .outside
  retains := 0
  begun := 0
  ended := 0
  frees := 0

/-- The retains no release has dropped yet. -/
def outstanding (s : Source T) : Nat := s.retains - s.ended

/-- An access to the block. -/
def touch (s : Source T) : Except Fault SourceInfo :=
  match s.info with
  | some info => .ok info
  | none => .error .dangling

/-- A release begins where a retain has not been matched yet. -/
def enabled (s : Source T) : Action T → Prop
  | .retain t => s.place t = .outside
  | .compare t => s.place t = .outside ∧ s.begun < s.retains
  | .decrement t => s.place t = .unequal
  | .clearWorker t => s.place t = .equal
  | .free t => s.place t = .cleared

instance (s : Source T) : DecidablePred s.enabled
  | .retain t => inferInstanceAs (Decidable (s.place t = .outside))
  | .compare t => inferInstanceAs (Decidable (s.place t = .outside ∧ _))
  | .decrement t => inferInstanceAs (Decidable (s.place t = .unequal))
  | .clearWorker t => inferInstanceAs (Decidable (s.place t = .equal))
  | .free t => inferInstanceAs (Decidable (s.place t = .cleared))

variable [DecidableEq T]

def step (s : Source T) : Action T → Except Fault (Source T)
  | .retain _ => do
      let info ← s.touch
      return { s with info := some { info with rc := info.rc + 1 }, retains := s.retains + 1 }
  | .compare t => do
      let info ← s.touch
      return { s with
        place := Function.update s.place t (if info.rc = 1 then .equal else .unequal)
        begun := s.begun + 1 }
  | .decrement t => do
      let info ← s.touch
      return { s with
        info := some { info with rc := info.rc - 1 }
        place := Function.update s.place t .outside
        ended := s.ended + 1 }
  | .clearWorker t => do
      let info ← s.touch
      return { s with
        info := some { info with worker := false }
        place := Function.update s.place t .cleared }
  | .free t =>
      match s.info with
      | some _ => .ok { s with
          info := none
          place := Function.update s.place t .outside
          ended := s.ended + 1
          frees := s.frees + 1 }
      | none => .error .badFree

end Source

/-- The calls of any number of threads on one info block. -/
def sourceMachine (T : Type) [DecidableEq T] : Machine (Source T) (Action T) Fault where
  start := .create
  enabled := Source.enabled
  step := Source.step

instance (T : Type) [DecidableEq T] (s : Source T) (a : Action T) :
    Decidable ((sourceMachine T).enabled s a) :=
  inferInstanceAs (Decidable (s.enabled a))

/-! ## What is promised -/

namespace Source

variable {T : Type}

/-- The block is freed once, by the release that drops the last retain. -/
structure FreedByLast (s : Source T) : Prop where
  once : s.frees ≤ 1
  after : s.frees = 1 → s.outstanding = 0
  last : ∀ t, (s.place t).frees = true → s.outstanding = 1
  freed : 0 < s.retains → s.outstanding = 0 → s.frees = 1

/-- No release decrements the last retain or takes a wrapped count for one, and
nobody retains a block that is being freed or is freed already. -/
def Sparing (s : Source T) : Action T → Prop
  | .retain _ => s.frees = 0 ∧ ∀ t, (s.place t).frees = false
  | .compare _ => s.outstanding % 2 ^ 32 = 1 → s.outstanding = 1
  | .decrement _ => s.outstanding ≠ 1
  | .clearWorker _ | .free _ => True

instance [Fintype T] (s : Source T) : DecidablePred s.Sparing
  | .retain _ => inferInstanceAs (Decidable (_ ∧ _))
  | .compare _ => inferInstanceAs (Decidable (_ → _))
  | .decrement _ => inferInstanceAs (Decidable (_ ≠ _))
  | .clearWorker _ => inferInstanceAs (Decidable True)
  | .free _ => inferInstanceAs (Decidable True)

end Source

/-! ## The count and the releases under way -/

/-- Some threads are in a release, and the count is that of the outstanding retains. -/
structure Counted {T : Type} (s : Source T) : Prop where
  inside : ∃ threads : Finset T, (∀ t, t ∈ threads ↔ s.place t ≠ .outside) ∧
    s.ended + threads.card = s.begun
  matched : s.begun ≤ s.retains
  last : ∀ t, (s.place t).frees = true → s.outstanding = 1
  live : ∀ info, s.info = some info →
    s.frees = 0 ∧ info.rc = BitVec.ofNat 32 s.outstanding ∧ (0 < s.retains → 0 < s.outstanding)
  gone : s.info = none → s.frees = 1 ∧ s.outstanding = 0

namespace Counted

variable {T : Type} {s : Source T} {t u : T}

theorem create : Counted (Source.create : Source T) where
  inside := ⟨∅, by simp [Source.create], rfl⟩
  matched := Nat.le_refl 0
  last := by simp [Source.create, Place.frees]
  live := by
    intro info hinfo
    cases hinfo
    exact ⟨rfl, rfl, fun h => h⟩
  gone := by simp [Source.create]

theorem freedByLast (h : Counted s) : s.FreedByLast := by
  cases hinfo : s.info with
  | none =>
      obtain ⟨hfrees, houtstanding⟩ := h.gone hinfo
      exact ⟨by omega, fun _ => houtstanding, h.last, fun _ _ => hfrees⟩
  | some info =>
      obtain ⟨hfrees, -, hpos⟩ := h.live info hinfo
      refine ⟨by omega, fun h => by omega, h.last, fun hretains hzero => ?_⟩
      have := hpos hretains
      omega

/-- A release under way has its own retain. -/
theorem outstanding_pos (h : Counted s) (ht : s.place t ≠ .outside) : 0 < s.outstanding := by
  obtain ⟨threads, hmem, hcard⟩ := h.inside
  have hpos : 0 < threads.card := Finset.card_pos.mpr ⟨t, (hmem t).mpr ht⟩
  have hmatched := h.matched
  simp only [Source.outstanding]
  omega

/-- Two releases under way have two. -/
theorem outstanding_two (h : Counted s) (ht : s.place t ≠ .outside) (hu : s.place u ≠ .outside)
    (htu : t ≠ u) : 2 ≤ s.outstanding := by
  obtain ⟨threads, hmem, hcard⟩ := h.inside
  have htwo : 1 < threads.card :=
    Finset.one_lt_card.mpr ⟨t, (hmem t).mpr ht, u, (hmem u).mpr hu, htu⟩
  have hmatched := h.matched
  simp only [Source.outstanding]
  omega

/-- Where a retain is outstanding, the block is there. -/
theorem exists_info (h : Counted s) (hpos : 0 < s.outstanding) : ∃ info, s.info = some info := by
  cases hinfo : s.info with
  | none =>
      have := (h.gone hinfo).2
      omega
  | some info => exact ⟨info, rfl⟩

theorem frees_of_ne {p : Place} (hp : p.frees = true) : p ≠ .outside := by
  intro h
  simp [h, Place.frees] at hp

/-- A release that ends drops one retain. -/
theorem outstanding_return (h : Counted s) (hin : s.place t ≠ .outside) :
    s.retains - (s.ended + 1) = s.outstanding - 1 := by
  have := h.outstanding_pos hin
  simp only [Source.outstanding]
  omega

section Threads

variable [DecidableEq T]

/-- A thread enters a release, or moves on in it. -/
theorem inside_enter {place : T → Place} {ended begun : Nat}
    (h : ∃ threads : Finset T, (∀ t, t ∈ threads ↔ place t ≠ .outside) ∧
      ended + threads.card = begun) {p : Place} (hp : p ≠ .outside) :
    ∃ threads : Finset T, (∀ u, u ∈ threads ↔ Function.update place t p u ≠ .outside) ∧
      ended + threads.card = begun + if place t = .outside then 1 else 0 := by
  obtain ⟨threads, hmem, hcard⟩ := h
  refine ⟨insert t threads, ?_, ?_⟩
  · intro u
    by_cases htu : u = t
    · simp [htu, hp]
    · simp [htu, hmem]
  · by_cases hout : place t = .outside
    · have hnot : t ∉ threads := by simp [hmem, hout]
      simp only [Finset.card_insert_of_notMem hnot, if_pos hout]
      omega
    · have hin : t ∈ threads := by simp [hmem, hout]
      simp only [Finset.insert_eq_of_mem hin, if_neg hout]
      omega

/-- A thread returns from a release. -/
theorem inside_return {place : T → Place} {ended begun : Nat}
    (h : ∃ threads : Finset T, (∀ t, t ∈ threads ↔ place t ≠ .outside) ∧
      ended + threads.card = begun) (hin : place t ≠ .outside) :
    ∃ threads : Finset T, (∀ u, u ∈ threads ↔ Function.update place t .outside u ≠ .outside) ∧
      ended + 1 + threads.card = begun := by
  obtain ⟨threads, hmem, hcard⟩ := h
  have ht : t ∈ threads := (hmem t).mpr hin
  refine ⟨threads.erase t, ?_, ?_⟩
  · intro u
    by_cases htu : u = t
    · simp [htu]
    · simp [htu, hmem]
  · have hpos : 0 < threads.card := Finset.card_pos.mpr ⟨t, ht⟩
    simp only [Finset.card_erase_of_mem ht]
    omega

theorem retain (h : Counted s) (hfrees : s.frees = 0)
    (hnone : ∀ u, (s.place u).frees = false) :
    ∃ s', s.step (.retain t) = .ok s' ∧ Counted s' := by
  cases hinfo : s.info with
  | none =>
      have := (h.gone hinfo).1
      omega
  | some info =>
      obtain ⟨-, hrc, -⟩ := h.live info hinfo
      have hended : s.ended ≤ s.begun := by
        obtain ⟨threads, -, hcard⟩ := h.inside
        omega
      have hmatched := h.matched
      have hnext : s.retains + 1 - s.ended = s.outstanding + 1 := by
        simp only [Source.outstanding]
        omega
      refine ⟨_, by rw [Source.step, Source.touch, hinfo]; rfl, ?_⟩
      exact
        { inside := h.inside
          matched := Nat.le_succ_of_le hmatched
          last := fun u hu => absurd hu (by simp [hnone u])
          live := by
            intro info' hinfo'
            cases hinfo'
            refine ⟨hfrees, ?_, fun _ => ?_⟩
            · simp only [Source.outstanding, hnext, hrc, BitVec.ofNat_add]
              rfl
            · simp only [Source.outstanding, hnext]
              omega
          gone := nofun }

/-- The others are not on the way to free, if the last retain is the own one. -/
theorem last_update {p : Place} {n : Nat} (hlast : ∀ u, (s.place u).frees = true → n = 1)
    (hp : p.frees = true → n = 1) :
    ∀ u, (Function.update s.place t p u).frees = true → n = 1 := by
  intro u hu
  by_cases htu : u = t
  · subst htu
    rw [Function.update_self] at hu
    exact hp hu
  · rw [Function.update_of_ne htu] at hu
    exact hlast u hu

theorem compare (h : Counted s) (hout : s.place t = .outside) (hfree : s.begun < s.retains)
    (hone : s.outstanding % 2 ^ 32 = 1 → s.outstanding = 1) :
    ∃ s', s.step (.compare t) = .ok s' ∧ Counted s' := by
  have hpos : 0 < s.outstanding := by
    obtain ⟨threads, -, hcard⟩ := h.inside
    simp only [Source.outstanding]
    omega
  obtain ⟨info, hinfo⟩ := h.exists_info hpos
  obtain ⟨-, hrc, -⟩ := h.live info hinfo
  have hequal : info.rc = 1 → s.outstanding = 1 := by
    intro h1
    refine hone ?_
    simpa [hrc] using congrArg BitVec.toNat h1
  have hplace : (if info.rc = 1 then Place.equal else .unequal) ≠ .outside := by
    split <;> simp
  have hinside := inside_enter (t := t) h.inside hplace
  rw [if_pos hout] at hinside
  refine ⟨_, by rw [Source.step, Source.touch, hinfo]; rfl, ?_⟩
  exact
    { inside := hinside
      matched := hfree
      last := by
        refine last_update h.last fun hp => ?_
        split at hp
        next h1 => exact hequal h1
        next => simp [Place.frees] at hp
      live := by
        intro info' hinfo'
        cases hinfo'
        exact h.live info hinfo
      gone := nofun }

theorem clearWorker (h : Counted s) (hequal : s.place t = .equal) :
    ∃ s', s.step (.clearWorker t) = .ok s' ∧ Counted s' := by
  have hout : s.place t ≠ .outside := by simp [hequal]
  obtain ⟨info, hinfo⟩ := h.exists_info (h.outstanding_pos hout)
  have hlast : s.outstanding = 1 := h.last t (by simp [hequal, Place.frees])
  have hinside := inside_enter (t := t) (p := .cleared) h.inside (by simp)
  rw [if_neg hout] at hinside
  refine ⟨_, by rw [Source.step, Source.touch, hinfo]; rfl, ?_⟩
  exact
    { inside := hinside
      matched := h.matched
      last := last_update h.last fun _ => hlast
      live := by
        intro info' hinfo'
        cases hinfo'
        exact h.live info hinfo
      gone := nofun }

/-- Whoever is on the way to free after a return was so before, and is another one. -/
theorem frees_return (hu : (Function.update s.place t .outside u).frees = true) :
    u ≠ t ∧ (s.place u).frees = true := by
  by_cases htu : u = t
  · simp [htu, Place.frees] at hu
  · rw [Function.update_of_ne htu] at hu
    exact ⟨htu, hu⟩

theorem free (h : Counted s) (hcleared : s.place t = .cleared) :
    ∃ s', s.step (.free t) = .ok s' ∧ Counted s' := by
  have hin : s.place t ≠ .outside := by simp [hcleared]
  have hlast : s.outstanding = 1 := h.last t (by simp [hcleared, Place.frees])
  have hreturn := h.outstanding_return hin
  obtain ⟨info, hinfo⟩ := h.exists_info (h.outstanding_pos hin)
  obtain ⟨hfrees, -, -⟩ := h.live info hinfo
  refine ⟨_, by rw [Source.step, hinfo], ?_⟩
  exact
    { inside := inside_return h.inside hin
      matched := h.matched
      last := by
        intro u hu
        obtain ⟨htu, hfree⟩ := frees_return hu
        have := h.outstanding_two hin (frees_of_ne hfree) (Ne.symm htu)
        omega
      live := nofun
      gone := by
        intro _
        simp only [Source.outstanding, hreturn]
        omega }

theorem decrement (h : Counted s) (hunequal : s.place t = .unequal) (hmore : s.outstanding ≠ 1) :
    ∃ s', s.step (.decrement t) = .ok s' ∧ Counted s' := by
  have hin : s.place t ≠ .outside := by simp [hunequal]
  have hpos := h.outstanding_pos hin
  have hreturn := h.outstanding_return hin
  obtain ⟨info, hinfo⟩ := h.exists_info hpos
  obtain ⟨hfrees, hrc, -⟩ := h.live info hinfo
  refine ⟨_, by rw [Source.step, Source.touch, hinfo]; rfl, ?_⟩
  exact
    { inside := inside_return h.inside hin
      matched := h.matched
      last := by
        intro u hu
        exact absurd (h.last u (frees_return hu).2) hmore
      live := by
        intro info' hinfo'
        cases hinfo'
        refine ⟨hfrees, ?_, fun _ => ?_⟩
        · have hless : BitVec.ofNat 32 (s.outstanding - 1) + 1 = info.rc := by
            rw [hrc, ← Nat.sub_add_cancel hpos, BitVec.ofNat_add, Nat.add_sub_cancel]
            rfl
          show info.rc - 1 = BitVec.ofNat 32 (s.retains - (s.ended + 1))
          rw [hreturn, ← hless, BitVec.add_sub_cancel]
        · simp only [Source.outstanding, hreturn]
          omega
      gone := nofun }

/-- A sparing action does not fail. -/
theorem step (h : Counted s) {a : Action T} (hen : s.enabled a) (ha : s.Sparing a) :
    ∃ s', s.step a = .ok s' ∧ Counted s' := by
  cases a with
  | retain t => exact h.retain ha.1 ha.2
  | compare t => exact h.compare hen.1 hen.2 ha
  | decrement t => exact h.decrement hen ha
  | clearWorker t => exact h.clearWorker hen
  | free t => exact h.free hen

/-- Any other fails or breaks the promise. -/
theorem step_broken (h : Counted s) {a : Action T} {s' : Source T} (hen : s.enabled a)
    (ha : ¬ s.Sparing a) (hstep : s.step a = .ok s') : ¬ s'.FreedByLast := by
  intro hfreed
  cases hinfo : s.info with
  | none =>
      -- the block is gone: only a retain comes, and it touches the block
      have hzero := (h.gone hinfo).2
      cases a with
      | retain t => simp [Source.step, Source.touch, hinfo] at hstep
      | compare t => simp [Source.step, Source.touch, hinfo] at hstep
      | decrement t => simp [Source.step, Source.touch, hinfo] at hstep
      | clearWorker t | free t => exact ha trivial
  | some info =>
      obtain ⟨hfrees, hrc, -⟩ := h.live info hinfo
      cases a with
      | retain t =>
          have hother : ¬ ∀ u, (s.place u).frees = false := fun hall => ha ⟨hfrees, hall⟩
          push Not at hother
          obtain ⟨u, hu⟩ := hother
          rw [Bool.ne_false_iff] at hu
          rw [Source.step, Source.touch, hinfo] at hstep
          cases hstep
          have hold := h.last u hu
          have hnew := hfreed.last u hu
          simp only [Source.outstanding] at hold hnew
          omega
      | compare t =>
          have hwrapped : s.outstanding % 2 ^ 32 = 1 ∧ s.outstanding ≠ 1 := by
            simpa [Source.Sparing] using ha
          have hone : info.rc = 1 := by
            rw [hrc]
            exact BitVec.eq_of_toNat_eq hwrapped.1
          rw [Source.step, Source.touch, hinfo] at hstep
          cases hstep
          refine hwrapped.2 (hfreed.last t ?_)
          simp [hone, Place.frees]
      | decrement t =>
          have hone : s.outstanding = 1 := by
            simpa [Source.Sparing] using ha
          have hin : s.place t ≠ .outside := by simp [show s.place t = .unequal from hen]
          have hreturn := h.outstanding_return hin
          rw [Source.step, Source.touch, hinfo] at hstep
          cases hstep
          have hretains : 0 < s.retains := by
            simp only [Source.outstanding] at hone
            omega
          have hfreed' := hfreed.freed hretains (by simp only [Source.outstanding]; omega)
          exact absurd (hfrees.symm.trans hfreed') (by decide)
      | clearWorker t | free t => exact ha trivial

end Threads

end Counted

/-- No action fails. -/
def never (_ : Fault) : Prop := False

/-- An interleaving frees the block once, by the release that drops the last retain,
and touches it no more, exactly if it is sparing. -/
theorem freed_once_iff (T : Type) [DecidableEq T] (as : List (Action T))
    (hlegal : (sourceMachine T).Legal .create as) :
    (sourceMachine T).Meets never Source.FreedByLast .create as ↔
      (sourceMachine T).Heeds Source.Sparing .create as := by
  refine Machine.meets_iff_heeds (fun s (hs : Counted s) => hs.freedByLast) ?_ ?_ as .create hlegal
  · intro s a hs hen ha
    obtain ⟨s₁, hstep₁, hs₁⟩ := hs.step hen ha
    refine ⟨fun e hstep => ?_, fun s' hstep => ?_⟩
    · cases hstep₁.symm.trans hstep
    · cases hstep₁.symm.trans hstep
      exact hs₁
  · intro s a hs hen ha
    exact ⟨fun _ _ h => h, fun s' hstep => hs.step_broken hen ha hstep⟩

/-- Two retains; one release decrements before the other compares. -/
theorem freed_once_iff_inTurn :
    (sourceMachine Bool).Meets never Source.FreedByLast .create
      [.retain false, .retain true, .compare false, .decrement false, .compare true,
        .clearWorker true, .free true] :=
  (freed_once_iff Bool _ (by decide)).mpr (by decide)

/-- Two releases compare before either decrements: both are over and nobody freed
the block. -/
theorem both_decrement :
    let as : List (Action Bool) := [.retain false, .retain true, .compare false, .compare true,
      .decrement false, .decrement true]
    (sourceMachine Bool).Legal .create as ∧
      ¬ (sourceMachine Bool).Meets never Source.FreedByLast .create as ∧
      ∃ s, (sourceMachine Bool).Reachable s ∧ s.retains = 2 ∧ s.ended = 2 ∧ s.frees = 0 := by
  intro as
  have hrun : (sourceMachine Bool).Run Machine.anyAction as _ := Machine.run_of_exec rfl
  refine ⟨by decide, fun hmeets => ?_, _, ⟨as, hrun⟩, rfl, rfl, rfl⟩
  obtain ⟨-, -, h₁⟩ := hmeets
  obtain ⟨-, -, h₂⟩ := h₁ _ rfl
  obtain ⟨-, -, h₃⟩ := h₂ _ rfl
  obtain ⟨-, -, h₄⟩ := h₃ _ rfl
  obtain ⟨-, -, h₅⟩ := h₄ _ rfl
  obtain ⟨-, -, h₆⟩ := h₅ _ rfl
  have hfreed : Source.FreedByLast _ := h₆ _ rfl
  exact absurd (hfreed.freed (by decide) (by decide)) (by decide)

end RxRunLoopSchedulerSource

end Rx
