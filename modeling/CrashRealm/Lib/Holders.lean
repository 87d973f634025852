/-
# `Lib.Holders` — how many hold a thing

Finitely many holders hold one thing each, or none.  `number` counts the holders
of a thing.  A new holder adds one for what it holds (`number_insert`), one that
goes takes it away (`number_erase`), and one that changes over does both
(`number_update`).
-/
import Mathlib.Data.Finset.Card
import Mathlib.Data.Finset.Insert
import Mathlib.Logic.Function.Basic

universe u v

namespace Holders

variable {R : Type u} {O : Type v} [DecidableEq O]

/-- What a holder of `held` adds to the number of `o`. -/
def one (held : Option O) (o : O) : Nat := if held = some o then 1 else 0

@[simp] theorem one_none (o : O) : one none o = 0 := rfl

@[simp] theorem one_self (o : O) : one (some o) o = 1 := if_pos rfl

theorem one_of_ne {held : Option O} {o : O} (h : held ≠ some o) : one held o = 0 := if_neg h

/-- The holders of `o` among those that live. -/
def number (live : Finset R) (held : R → Option O) (o : O) : Nat :=
  (live.filter fun r => held r = some o).card

variable {live : Finset R} {held : R → Option O} {r : R}

theorem number_pos {o : O} (hr : r ∈ live) (ho : held r = some o) : 0 < number live held o :=
  Finset.card_pos.mpr ⟨r, Finset.mem_filter.mpr ⟨hr, ho⟩⟩

variable [DecidableEq R]

/-- What is written where nobody lives does not count. -/
theorem number_update_of_notMem (hr : r ∉ live) (value : Option O) (o : O) :
    number live (Function.update held r value) o = number live held o := by
  refine congrArg Finset.card (Finset.filter_congr fun q hq => ?_)
  have hne : q ≠ r := fun h => hr (h ▸ hq)
  rw [Function.update_of_ne hne]

theorem number_insert (hr : r ∉ live) (value : Option O) (o : O) :
    number (insert r live) (Function.update held r value) o = number live held o + one value o := by
  have hold : number live (Function.update held r value) o = number live held o :=
    number_update_of_notMem hr value o
  rw [number, Finset.filter_insert, Function.update_self]
  by_cases hvalue : value = some o
  · have hnew : r ∉ live.filter fun q => Function.update held r value q = some o := fun h =>
      hr (Finset.mem_filter.mp h).1
    rw [if_pos hvalue, Finset.card_insert_of_notMem hnew, one, if_pos hvalue, ← hold, number]
  · rw [if_neg hvalue, one_of_ne hvalue, ← hold, number, Nat.add_zero]

theorem number_erase (hr : r ∈ live) (o : O) :
    number (live.erase r) held o + one (held r) o = number live held o := by
  have hinsert : number (insert r (live.erase r)) (Function.update held r (held r)) o =
      number (live.erase r) held o + one (held r) o :=
    number_insert (Finset.notMem_erase r live) (held r) o
  rw [Finset.insert_erase hr, Function.update_eq_self] at hinsert
  exact hinsert.symm

theorem number_update (hr : r ∈ live) (value : Option O) (o : O) :
    number live (Function.update held r value) o + one (held r) o =
      number live held o + one value o := by
  have hinsert : number (insert r (live.erase r)) (Function.update held r value) o =
      number (live.erase r) held o + one value o :=
    number_insert (Finset.notMem_erase r live) value o
  rw [Finset.insert_erase hr] at hinsert
  rw [hinsert, ← number_erase hr o]
  exact Nat.add_right_comm _ _ _

end Holders
