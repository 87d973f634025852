/-
# `Lib.Census` — counting over finitely many parties

A shared counter is usually meant to be the sum of what the parties contribute
to it.  `total` is that sum.  When one party changes, the sum changes by that
party's difference (`total_update`); when every party changes but none in its
contribution, it stays (`total_congr`).  A sum of at most one leaves at most one
contributor (`eq_of_total_le_one`), and where no contribution exceeds one the sum
counts the contributors (`total_eq_card`).
-/
import Mathlib.Algebra.BigOperators.Group.Finset.Piecewise
import Mathlib.Algebra.Order.BigOperators.Group.Finset

namespace Census

universe u v

variable {P : Type u} [Fintype P] {α : Type v}

def total (f : P → Nat) : Nat := Finset.univ.sum f

theorem total_congr {f g : P → Nat} (h : ∀ p, f p = g p) : total f = total g :=
  congrArg total (funext h)

theorem le_total (f : P → Nat) (p : P) : f p ≤ total f :=
  Finset.single_le_sum (fun _ _ => Nat.zero_le _) (Finset.mem_univ p)

theorem total_eq_zero {f : P → Nat} : total f = 0 ↔ ∀ p, f p = 0 := by
  rw [total, Finset.sum_eq_zero_iff]
  exact ⟨fun h p => h p (Finset.mem_univ p), fun h p _ => h p⟩

/-- One party changes. -/
theorem total_update [DecidableEq P] (s : P → α) (f : α → Nat) (p : P) (x : α) :
    total (fun q => f (Function.update s p x q)) + f (s p) = total (fun q => f (s q)) + f x := by
  have hp : p ∈ Finset.univ := Finset.mem_univ p
  rw [total, total, ← Finset.add_sum_erase _ _ hp,
    ← Finset.add_sum_erase Finset.univ (fun q => f (s q)) hp]
  have hrest : (Finset.univ.erase p).sum (fun q => f (Function.update s p x q))
      = (Finset.univ.erase p).sum (fun q => f (s q)) := by
    refine Finset.sum_congr rfl fun q hq => ?_
    rw [Function.update_of_ne (Finset.ne_of_mem_erase hq)]
  rw [hrest, Function.update_self]
  omega

theorem eq_of_total_le_one [DecidableEq P] {f : P → Nat} (h : total f ≤ 1) {p q : P}
    (hp : 0 < f p) (hq : 0 < f q) : p = q := by
  by_contra hne
  have hsplit : f p + (Finset.univ.erase p).sum f = Finset.univ.sum f :=
    Finset.add_sum_erase Finset.univ f (Finset.mem_univ p)
  have hrest : f q ≤ (Finset.univ.erase p).sum f :=
    Finset.single_le_sum (fun _ _ => Nat.zero_le _)
      (Finset.mem_erase.mpr ⟨Ne.symm hne, Finset.mem_univ q⟩)
  rw [total] at h
  omega

/-- Contributions of at most one are counted by their sum. -/
theorem total_eq_card {f : P → Nat} (h : ∀ p, f p ≤ 1) :
    total f = (Finset.univ.filter fun p => 0 < f p).card := by
  rw [Finset.card_filter, total]
  refine Finset.sum_congr rfl fun p _ => ?_
  have := h p
  split <;> omega

end Census
