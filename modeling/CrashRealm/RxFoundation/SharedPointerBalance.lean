/-
# `RxFoundation.SharedPointerBalance` — what each count is the number of

A pointer, and a call that is still to release one, has a stake in a controller.
A strong stake keeps the object and a weak one the controller, and all strong stakes
together count as one weak one, which the call that destroys the object takes over.
The call that is to delete the controller has a stake of its own kind.

`Accounts` says what a controller's fields are in terms of the stakes in it.  Each
access of a call exchanges stakes and keeps the accounts: `addSharedReference_spec`,
`addWeakReference_spec` and `Release.step_spec`.
-/
import CrashRealm.RxFoundation.SharedPointer

namespace Rx

namespace SharedPointer

open Holders

variable {C : Type}

/-! ## Stakes -/

/-- The kinds of stakes in a controller. -/
inductive Stake where
  | strong
  | weak
  /-- is about to destroy the object -/
  | destroying
  /-- is about to delete the controller -/
  | deleting
  deriving DecidableEq, Repr

/-- The controller that a pointer has a stake in. -/
def Held.staked (k : Stake) (held : Held C) : Option C :=
  match k, held with
  | .strong, .shared _ controller => controller
  | .weak, .weak _ controller => controller
  | _, _ => none

/-- The controller that a release has a stake in. -/
def Release.staked (k : Stake) (todo : Release C) : Option C :=
  match k, todo with
  | .strong, .checkShared c => some c
  | .strong, .decrementShared c => some c
  | .weak, .checkWeak c => some c
  | .weak, .decrementWeak c => some c
  | .destroying, .destroyObject c => some c
  | .deleting, .delete c => some c
  | _, _ => none

def Release.controller : Release C → C
  | .checkShared c | .decrementShared c | .destroyObject c => c
  | .checkWeak c | .decrementWeak c | .delete c => c

section Stakes

variable [DecidableEq C]

/-- The stakes of a release that may be over. -/
def remaining (k : Stake) (c : C) (todo : Option (Release C)) : Nat := one (todo.bind (·.staked k)) c

/-- The stakes of a place. -/
def Cell.stakes {R : Type} (k : Stake) (c : C) : Cell R C → Nat
  | .settled held => one (held.staked k) c
  | .addShared _ _ old _ => one ((Held.shared none old).staked k) c
  | .addWeak _ _ old _ => one ((Held.weak none old).staked k) c
  | .release todo next => one (todo.staked k) c + one (next.staked k) c
  | _ => 0

/-- A release has no stake but in its controller. -/
theorem Release.staked_of_ne {todo : Release C} {c : C} (hc : c ≠ todo.controller) (k : Stake) :
    one (todo.staked k) c = 0 := by
  refine one_of_ne fun h => hc ?_
  cases k <;> cases todo <;> cases h <;> rfl

end Stakes

/-! ## Accounts -/

/-- All strong stakes together are one weak stake. -/
def collective (strong : Nat) : Nat := if 0 < strong then 1 else 0

/-- A controller, and how many stakes of each kind there are in it. -/
structure Accounts (x : ReferenceController) (t : Stake → Nat) : Prop where
  shared : x.sharedReferenceCount = t .strong
  weak : x.weakReferenceCount = t .weak + t .destroying + collective (t .strong)
  object : x.object.toNat = collective (t .strong) + t .destroying
  deleting : t .deleting = if x.weakReferenceCount = 0 then 1 else 0
  shared_le : x.sharedReferenceCount ≤ maxCount
  weak_le : x.weakReferenceCount ≤ maxCount

/-- Nobody has a stake where there is no controller. -/
def Balanced : Option ReferenceController → (Stake → Nat) → Prop
  | none, t => ∀ k, t k = 0
  | some x, t => Accounts x t

theorem Balanced.exists {o : Option ReferenceController} {t : Stake → Nat} (h : Balanced o t)
    {k : Stake} (hk : 0 < t k) : ∃ x, o = some x ∧ Accounts x t := by
  cases o with
  | none => exact absurd (h k) (Nat.ne_of_gt hk)
  | some x => exact ⟨x, rfl, h⟩

theorem interlockedIncrement_eq {n : Int} (h₀ : 0 ≤ n) (hn : n < maxCount) :
    interlockedIncrement n = n + 1 := by
  rw [maxCount] at hn
  exact Int.bmod_eq_of_le (by omega) (by omega)

theorem interlockedDecrement_eq {n : Int} (h₀ : 0 < n) (hn : n ≤ maxCount) :
    interlockedDecrement n = n - 1 := by
  rw [maxCount] at hn
  exact Int.bmod_eq_of_le (by omega) (by omega)

/-! ## What an access does to the accounts -/

section Accesses

variable {x : ReferenceController} {t t' : Stake → Nat}

/-- Stakes of one kind and no other. -/
def only (k : Stake) (j : Stake) : Nat := if j = k then 1 else 0

theorem Accounts.addShared (h : Accounts x t) (hpos : 0 < t .strong)
    (hroom : x.sharedReferenceCount < maxCount) (ht : ∀ k, t' k = t k + only .strong k) :
    Accounts { x with sharedReferenceCount := x.sharedReferenceCount + 1 } t' := by
  have hcollective : collective (t .strong + 1) = collective (t .strong) := by
    rw [collective, collective, if_pos hpos, if_pos (Nat.succ_pos _)]
  have hshared := h.shared
  have hs : t' .strong = t .strong + 1 := ht .strong
  have hw : t' .weak = t .weak := ht .weak
  have hd : t' .destroying = t .destroying := ht .destroying
  have hx : t' .deleting = t .deleting := ht .deleting
  constructor
  · rw [hs]
    show x.sharedReferenceCount + 1 = _
    omega
  · rw [hs, hw, hd, hcollective]
    exact h.weak
  · rw [hs, hd, hcollective]
    exact h.object
  · rw [hx]
    exact h.deleting
  · show x.sharedReferenceCount + 1 ≤ maxCount
    omega
  · exact h.weak_le

theorem Accounts.addWeak (h : Accounts x t) (hpos : 0 < t .strong ∨ 0 < t .weak)
    (hroom : x.weakReferenceCount < maxCount) (ht : ∀ k, t' k = t k + only .weak k) :
    Accounts { x with weakReferenceCount := x.weakReferenceCount + 1 } t' := by
  have hweak := h.weak
  have hpositive : 0 < x.weakReferenceCount := by
    rw [hweak, collective]
    split <;> omega
  have hs : t' .strong = t .strong := ht .strong
  have hw : t' .weak = t .weak + 1 := ht .weak
  have hd : t' .destroying = t .destroying := ht .destroying
  have hx : t' .deleting = t .deleting := ht .deleting
  constructor
  · rw [hs]
    exact h.shared
  · rw [hs, hw, hd]
    show x.weakReferenceCount + 1 = _
    omega
  · rw [hs, hd]
    exact h.object
  · show t' .deleting = if x.weakReferenceCount + 1 = 0 then 1 else 0
    rw [hx, h.deleting, if_neg (by omega), if_neg (by omega)]
  · exact h.shared_le
  · show x.weakReferenceCount + 1 ≤ maxCount
    omega

/-- The last strong stake becomes that of the call that destroys the object. -/
theorem Accounts.decrementShared (h : Accounts x t) (hpos : 0 < t .strong)
    (ht : ∀ k, t' k + only .strong k = t k +
      if x.sharedReferenceCount = 1 then only .destroying k else 0) :
    Accounts { x with sharedReferenceCount := x.sharedReferenceCount - 1 } t' := by
  have hshared := h.shared
  have hweak := h.weak
  have hobject := h.object
  have hs : t' .strong + 1 = t .strong := by
    have := ht .strong
    simp only [only, reduceCtorEq, if_true, if_false, ite_self] at this
    exact this
  have hw : t' .weak = t .weak := by
    have := ht .weak
    simp only [only, reduceCtorEq, if_false, ite_self] at this
    exact this
  have hd := ht .destroying
  have hx : t' .deleting = t .deleting := by
    have := ht .deleting
    simp only [only, reduceCtorEq, if_false, ite_self] at this
    exact this
  simp only [only, reduceCtorEq, if_true, if_false] at hd
  rw [collective, if_pos hpos] at hweak hobject
  -- what the strong stakes count as goes over to the call
  have hmoved : t' .destroying + collective (t' .strong) = t .destroying + 1 := by
    by_cases hlast : x.sharedReferenceCount = 1
    · rw [if_pos hlast] at hd
      rw [collective, if_neg (by omega)]
      exact hd
    · rw [if_neg hlast] at hd
      rw [collective, if_pos (by omega)]
      omega
  constructor
  · show x.sharedReferenceCount - 1 = _
    omega
  · show x.weakReferenceCount = _
    omega
  · show x.object.toNat = _
    omega
  · rw [hx]
    exact h.deleting
  · have := h.shared_le
    show x.sharedReferenceCount - 1 ≤ maxCount
    omega
  · exact h.weak_le

theorem Accounts.object_of_destroying (h : Accounts x t) (hpos : 0 < t .destroying) :
    x.object = true := by
  have hobject := h.object
  cases hx : x.object with
  | true => rfl
  | false =>
      rw [hx] at hobject
      simp only [Bool.toNat_false] at hobject
      omega

theorem Accounts.destroyObject (h : Accounts x t) (hpos : 0 < t .destroying)
    (ht : ∀ k, t' k + only .destroying k = t k + only .weak k) :
    Accounts { x with object := false } t' := by
  have hobject := h.object
  rw [h.object_of_destroying hpos, Bool.toNat_true] at hobject
  have hweak := h.weak
  have hs : t' .strong = t .strong := ht .strong
  have hw : t' .weak = t .weak + 1 := ht .weak
  have hd : t' .destroying + 1 = t .destroying := ht .destroying
  have hx : t' .deleting = t .deleting := ht .deleting
  constructor
  · rw [hs]
    exact h.shared
  · rw [hs]
    show x.weakReferenceCount = _
    omega
  · rw [hs]
    show 0 = _
    omega
  · rw [hx]
    exact h.deleting
  · exact h.shared_le
  · exact h.weak_le

/-- The last weak stake becomes that of the call that deletes the controller. -/
theorem Accounts.decrementWeak (h : Accounts x t) (hpos : 0 < t .weak)
    (ht : ∀ k, t' k + only .weak k = t k +
      if x.weakReferenceCount = 1 then only .deleting k else 0) :
    Accounts { x with weakReferenceCount := x.weakReferenceCount - 1 } t' := by
  have hweak := h.weak
  have hs : t' .strong = t .strong := by
    have := ht .strong
    simp only [only, reduceCtorEq, if_false, ite_self] at this
    exact this
  have hw : t' .weak + 1 = t .weak := by
    have := ht .weak
    simp only [only, reduceCtorEq, if_true, if_false, ite_self] at this
    exact this
  have hd : t' .destroying = t .destroying := by
    have := ht .destroying
    simp only [only, reduceCtorEq, if_false, ite_self] at this
    exact this
  have hx := ht .deleting
  simp only [only, reduceCtorEq, if_true, if_false] at hx
  have hdeleting := h.deleting
  rw [if_neg (by omega)] at hdeleting
  constructor
  · rw [hs]
    exact h.shared
  · rw [hs, hd]
    show x.weakReferenceCount - 1 = _
    omega
  · rw [hs, hd]
    exact h.object
  · show t' .deleting = if x.weakReferenceCount - 1 = 0 then 1 else 0
    split at hx
    next hone => rw [if_pos (by omega)]; omega
    next hne => rw [if_neg (by omega)]; omega
  · exact h.shared_le
  · have := h.weak_le
    show x.weakReferenceCount - 1 ≤ maxCount
    omega

/-- Nobody else has a stake where the controller is deleted. -/
theorem Accounts.forsaken (h : Accounts x t) (hpos : 0 < t .deleting) :
    t .strong = 0 ∧ t .weak = 0 ∧ t .destroying = 0 ∧ t .deleting = 1 := by
  have hdeleting := h.deleting
  have hweak := h.weak
  have hzero : x.weakReferenceCount = 0 := by
    by_contra hne
    rw [if_neg hne] at hdeleting
    omega
  rw [if_pos hzero] at hdeleting
  have hcollective : collective (t .strong) = 0 := by omega
  have hstrong : t .strong = 0 := by
    rw [collective] at hcollective
    split at hcollective <;> omega
  exact ⟨hstrong, by omega, by omega, hdeleting⟩

theorem Accounts.object_of_deleting (h : Accounts x t) (hpos : 0 < t .deleting) :
    x.object = false := by
  obtain ⟨hstrong, -, hdestroying, -⟩ := h.forsaken hpos
  have hobject := h.object
  rw [hstrong, hdestroying] at hobject
  cases hx : x.object with
  | false => rfl
  | true =>
      rw [hx] at hobject
      cases hobject

theorem Accounts.delete (h : Accounts x t) (hpos : 0 < t .deleting)
    (ht : ∀ k, t' k + only .deleting k = t k) : ∀ k, t' k = 0 := by
  obtain ⟨hstrong, hweak, hdestroying, hdeleting⟩ := h.forsaken hpos
  intro k
  have hk := ht k
  cases k <;> simp only [only, reduceCtorEq, if_true, if_false] at hk <;> omega

end Accesses

section Specs

variable {h : Heap C} {t t' : C → Stake → Nat} {c : C}

theorem Heap.deref_some {x : ReferenceController} (hx : h c = some x) : h.deref c = .ok x := by
  rw [Heap.deref, hx]

theorem Heap.eq_some_of_deref {x : ReferenceController} (hx : h.deref c = .ok x) : h c = some x := by
  rw [Heap.deref] at hx
  cases hc : h c with
  | none =>
      rw [hc] at hx
      cases hx
  | some y =>
      rw [hc] at hx
      exact congrArg some (Except.ok.inj hx)

variable [DecidableEq C]

theorem balanced_set (hbal : ∀ c, Balanced (h c) (t c)) {x : Option ReferenceController}
    (hother : ∀ d, d ≠ c → ∀ k, t' d k = t d k) (hc : Balanced x (t' c)) (d : C) :
    Balanced (h.set c x d) (t' d) := by
  by_cases hd : d = c
  · subst hd
    rw [Heap.set, Function.update_self]
    exact hc
  · rw [Heap.set, Function.update_of_ne hd, funext (hother d hd)]
    exact hbal d

theorem addSharedReference_spec (hbal : ∀ c, Balanced (h c) (t c)) (hpos : 0 < t c .strong)
    (hroom : ∀ x ∈ h c, x.sharedReferenceCount < maxCount)
    (ht : ∀ d k, t' d k = t d k + one ((Held.shared none (some c)).staked k) d) :
    ∃ h', addSharedReference h c = .ok h' ∧ ∀ d, Balanced (h' d) (t' d) := by
  obtain ⟨x, hx, haccounts⟩ := (hbal c).exists hpos
  have hnonneg : 0 ≤ x.sharedReferenceCount := by
    rw [haccounts.shared]
    exact Int.natCast_nonneg _
  refine ⟨_, by rw [addSharedReference, Heap.deref_some hx]; rfl, fun d => ?_⟩
  refine balanced_set hbal (fun d hd k => ?_) ?_ d
  · rw [ht]
    cases k <;> simp [Held.staked, one, Ne.symm hd]
  · rw [interlockedIncrement_eq hnonneg (hroom x hx)]
    refine haccounts.addShared hpos (hroom x hx) fun k => ?_
    rw [ht]
    cases k <;> simp [Held.staked, one, only]

theorem addWeakReference_spec (hbal : ∀ c, Balanced (h c) (t c))
    (hpos : 0 < t c .strong ∨ 0 < t c .weak)
    (hroom : ∀ x ∈ h c, x.weakReferenceCount < maxCount)
    (ht : ∀ d k, t' d k = t d k + one ((Held.weak none (some c)).staked k) d) :
    ∃ h', addWeakReference h c = .ok h' ∧ ∀ d, Balanced (h' d) (t' d) := by
  obtain ⟨x, hx, haccounts⟩ : ∃ x, h c = some x ∧ Accounts x (t c) := by
    rcases hpos with hpos | hpos
    · exact (hbal c).exists hpos
    · exact (hbal c).exists hpos
  have hnonneg : 0 ≤ x.weakReferenceCount := by
    rw [haccounts.weak]
    omega
  refine ⟨_, by rw [addWeakReference, Heap.deref_some hx]; rfl, fun d => ?_⟩
  refine balanced_set hbal (fun d hd k => ?_) ?_ d
  · rw [ht]
    cases k <;> simp [Held.staked, one, Ne.symm hd]
  · rw [interlockedIncrement_eq hnonneg (hroom x hx)]
    refine haccounts.addWeak hpos (hroom x hx) fun k => ?_
    rw [ht]
    cases k <;> simp [Held.staked, one, only]

/-- An access of a release that has its stake goes through, and exchanges it for the stake
of what is left to do. -/
theorem Release.step_spec (hbal : ∀ c, Balanced (h c) (t c)) (todo : Release C)
    (hheld : ∀ k, one (todo.staked k) todo.controller ≤ t todo.controller k) :
    ∃ h' todo', todo.step h = .ok (h', todo') ∧
      ∀ t' : C → Stake → Nat, (∀ c k, t' c k + one (todo.staked k) c = t c k + remaining k c todo') →
        ∀ c, Balanced (h' c) (t' c) := by
  cases todo with
  | checkShared c =>
      have hpos : 0 < t c .strong := Nat.lt_of_lt_of_le (by simp [staked, controller]) (hheld .strong)
      obtain ⟨x, hx, haccounts⟩ := (hbal c).exists hpos
      have hcount : 0 < x.sharedReferenceCount := by
        rw [haccounts.shared]
        exact Int.natCast_pos.mpr hpos
      refine ⟨h, some (.decrementShared c), ?_, fun t' ht d => ?_⟩
      · rw [step, Heap.deref_some hx, ok_bind, if_pos hcount]
      · have hsame : t' d = t d := by
          funext k
          have := ht d k
          cases k <;> simpa [staked, remaining] using this
        rw [hsame]
        exact hbal d
  | decrementShared c =>
      have hpos : 0 < t c .strong := Nat.lt_of_lt_of_le (by simp [staked, controller]) (hheld .strong)
      obtain ⟨x, hx, haccounts⟩ := (hbal c).exists hpos
      have hcount : 0 < x.sharedReferenceCount := by
        rw [haccounts.shared]
        exact Int.natCast_pos.mpr hpos
      refine ⟨_, _, by rw [step, Heap.deref_some hx]; rfl, fun t' ht => ?_⟩
      rw [interlockedDecrement_eq hcount haccounts.shared_le] at ht ⊢
      refine balanced_set hbal (fun d hd k => ?_) ?_
      · have := ht d k
        split at this <;> cases k <;> simpa [staked, remaining, one, Ne.symm hd] using this
      · refine haccounts.decrementShared hpos fun k => ?_
        have := ht c k
        split at this
        next hzero =>
          rw [if_pos (by omega)]
          cases k <;> simpa [staked, remaining, only] using this
        next hne =>
          rw [if_neg (by omega)]
          cases k <;> simpa [staked, remaining, only] using this
  | destroyObject c =>
      have hpos : 0 < t c .destroying :=
        Nat.lt_of_lt_of_le (by simp [staked, controller]) (hheld .destroying)
      obtain ⟨x, hx, haccounts⟩ := (hbal c).exists hpos
      refine ⟨h.set c (some { x with object := false }), some (.checkWeak c), ?_, fun t' ht => ?_⟩
      · rw [step, Heap.deref_some hx, ok_bind, if_pos (haccounts.object_of_destroying hpos)]
      · refine balanced_set hbal (fun d hd k => ?_) ?_
        · have := ht d k
          cases k <;> simpa [staked, remaining, one, Ne.symm hd] using this
        · refine haccounts.destroyObject hpos fun k => ?_
          have := ht c k
          cases k <;> simpa [staked, remaining, only] using this
  | checkWeak c =>
      have hpos : 0 < t c .weak := Nat.lt_of_lt_of_le (by simp [staked, controller]) (hheld .weak)
      obtain ⟨x, hx, haccounts⟩ := (hbal c).exists hpos
      have hcount : 0 < x.weakReferenceCount := by
        rw [haccounts.weak]
        omega
      refine ⟨h, some (.decrementWeak c), ?_, fun t' ht d => ?_⟩
      · rw [step, Heap.deref_some hx, ok_bind, if_pos hcount]
      · have hsame : t' d = t d := by
          funext k
          have := ht d k
          cases k <;> simpa [staked, remaining] using this
        rw [hsame]
        exact hbal d
  | decrementWeak c =>
      have hpos : 0 < t c .weak := Nat.lt_of_lt_of_le (by simp [staked, controller]) (hheld .weak)
      obtain ⟨x, hx, haccounts⟩ := (hbal c).exists hpos
      have hcount : 0 < x.weakReferenceCount := by
        rw [haccounts.weak]
        omega
      refine ⟨_, _, by rw [step, Heap.deref_some hx]; rfl, fun t' ht => ?_⟩
      rw [interlockedDecrement_eq hcount haccounts.weak_le] at ht ⊢
      refine balanced_set hbal (fun d hd k => ?_) ?_
      · have := ht d k
        split at this <;> cases k <;> simpa [staked, remaining, one, Ne.symm hd] using this
      · refine haccounts.decrementWeak hpos fun k => ?_
        have := ht c k
        split at this
        next hzero =>
          rw [if_pos (by omega)]
          cases k <;> simpa [staked, remaining, only] using this
        next hne =>
          rw [if_neg (by omega)]
          cases k <;> simpa [staked, remaining, only] using this
  | delete c =>
      have hpos : 0 < t c .deleting :=
        Nat.lt_of_lt_of_le (by simp [staked, controller]) (hheld .deleting)
      obtain ⟨x, hx, haccounts⟩ := (hbal c).exists hpos
      refine ⟨h.set c none, none, ?_, fun t' ht => ?_⟩
      · rw [step, hx]
      · refine balanced_set hbal (fun d hd k => ?_) ?_
        · have := ht d k
          cases k <;> simpa [staked, remaining, one, Ne.symm hd] using this
        · refine haccounts.delete hpos fun k => ?_
          have := ht c k
          cases k <;> simpa [staked, remaining, only] using this

end Specs

end SharedPointer

end Rx
