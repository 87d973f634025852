/-
# `Lib.Semaphore` — tokens of a counting semaphore and who holds them

A semaphore's value and the parties between their wait and their signal together
are the tokens there are: `Tokens n holders k` says that `k` are.  A wait that
returns moves a token from the value to a holder (`wait`), its signal moves it back
(`signal`), and a signal by somebody who holds none makes a new one (`make`).

The parties are places in a state; `holders place inside` are those whose place is
inside, and the `holders_update` lemmas say how they change with one party's place.
-/
import Mathlib.Data.Set.Card

namespace Semaphore

universe u v

variable {P : Type u} {α : Type v}

/-- The value `n` and the holders are `k` tokens. -/
structure Tokens (n : Nat) (holders : Set P) (k : Nat) : Prop where
  finite : holders.Finite
  sum : n + holders.ncard = k

namespace Tokens

variable {n k : Nat} {holders : Set P} {p q : P}

theorem none : Tokens 0 (∅ : Set P) 0 := ⟨Set.finite_empty, by rw [Set.ncard_empty]⟩

theorem wait (h : Tokens n holders k) (hn : 0 < n) (hp : p ∉ holders) :
    Tokens (n - 1) (insert p holders) k where
  finite := h.finite.insert p
  sum := by
    rw [Set.ncard_insert_of_notMem hp h.finite, ← h.sum]
    omega

theorem signal (h : Tokens n holders k) (hp : p ∈ holders) :
    Tokens (n + 1) (holders \ {p}) k where
  finite := h.finite.sdiff
  sum := by
    have hpos : 0 < holders.ncard := (Set.ncard_pos h.finite).mpr ⟨p, hp⟩
    rw [Set.ncard_sdiff_singleton_of_mem hp, ← h.sum]
    omega

theorem make (h : Tokens n holders k) : Tokens (n + 1) holders (k + 1) where
  finite := h.finite
  sum := by rw [← h.sum, Nat.add_right_comm]

theorem pos_of_value (h : Tokens n holders k) (hn : 0 < n) : 0 < k :=
  h.sum ▸ Nat.add_pos_left hn _

theorem pos_of_holder (h : Tokens n holders k) (hp : p ∈ holders) : 0 < k :=
  h.sum ▸ Nat.add_pos_right n ((Set.ncard_pos h.finite).mpr ⟨p, hp⟩)

/-- Without tokens the value is zero and nobody holds one. -/
theorem eq_zero (h : Tokens n holders 0) : n = 0 ∧ holders = ∅ := by
  obtain ⟨hn, hcard⟩ := Nat.add_eq_zero_iff.mp h.sum
  exact ⟨hn, (Set.ncard_eq_zero h.finite).mp hcard⟩

end Tokens

/-- The parties whose place is inside. -/
def holders (place : P → α) (inside : α → Bool) : Set P := {p | inside (place p) = true}

variable [DecidableEq P] {place : P → α} {inside : α → Bool} {p : P} {x : α}

omit [DecidableEq P] in
theorem mem_holders : p ∈ holders place inside ↔ inside (place p) = true := Iff.rfl

/-- A party that stays inside, or stays outside. -/
theorem holders_update (h : inside x = inside (place p)) :
    holders (Function.update place p x) inside = holders place inside := by
  ext q
  rw [mem_holders, mem_holders]
  by_cases hq : q = p
  · subst hq
    rw [Function.update_self, h]
  · rw [Function.update_of_ne hq]

theorem holders_update_in (h : inside x = true) :
    holders (Function.update place p x) inside = insert p (holders place inside) := by
  ext q
  rw [Set.mem_insert_iff, mem_holders, mem_holders]
  by_cases hq : q = p
  · subst hq
    rw [Function.update_self, h]
    exact iff_of_true rfl (.inl rfl)
  · rw [Function.update_of_ne hq]
    exact (or_iff_right hq).symm

theorem holders_update_out (h : inside x = false) :
    holders (Function.update place p x) inside = holders place inside \ {p} := by
  ext q
  rw [Set.mem_sdiff_singleton, mem_holders, mem_holders]
  by_cases hq : q = p
  · subst hq
    rw [Function.update_self, h]
    exact iff_of_false Bool.false_ne_true fun hne => hne.2 rfl
  · rw [Function.update_of_ne hq]
    exact (and_iff_left hq).symm

end Semaphore
