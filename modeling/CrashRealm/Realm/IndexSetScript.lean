/-
# `Realm.IndexSetScript` — every set that the methods can make

A script says how a set is made from the empty one, by the methods of `IndexSet` and out
of other sets that are made so.  `run` makes it, `denote` says which indices it should
have: sets of numbers, into which positions are inserted and out of which they are taken.

`run_spec` is the refinement: every script runs to its end in every build, no assertion
fails on the way and no iterator leaves the ranges, `verify` holds of what it makes, and
this has the indices it should have.

`add_shifted_by` is not one of the steps: what it makes need not pass `verify`.
-/
import CrashRealm.Realm.IndexSetMerge
import CrashRealm.Realm.IndexSetRemove

namespace Realm

open Rx (Fault ok_bind)
open RangeList (toSet)
open Positions (spread insertAll moveAll eraseAll)

namespace IndexSet

open ChunkedRangeVector

/-- How a set is made.  `more` is the number of positions, less one. -/
inductive Script where
  | clear
  | set (len : Nat)
  | add (s : Script) (index : Nat)
  | addAll (s other : Script)
  | addShifted (s : Script) (index : Nat)
  | insertAt (s : Script) (index more : Nat)
  | insertAtAll (s positions : Script)
  | shiftForInsertAt (s : Script) (index more : Nat)
  | shiftForInsertAtAll (s values : Script)
  | eraseAt (s : Script) (index : Nat)
  | eraseAtAll (s positions : Script)
  | eraseOrUnshift (s : Script) (index : Nat)
  | remove (s : Script) (index more : Nat)
  | removeAll (s values : Script)

namespace Script

/-- The set is made, method by method. -/
def run (b : Build) : Script → Except Fault IndexSet
  | clear => .ok IndexSet.clear
  | set len => IndexSet.set b len
  | add s index => do IndexSet.add b (← s.run b) index
  | addAll s other => do IndexSet.addAll b (← s.run b) (← other.run b)
  | addShifted s index => do
      let (v, _) ← IndexSet.addShifted b (← s.run b) index
      .ok v
  | insertAt s index more => do IndexSet.insertAt b (← s.run b) index (more + 1)
  | insertAtAll s positions => do IndexSet.insertAtAll b (← s.run b) (← positions.run b)
  | shiftForInsertAt s index more => do IndexSet.shiftForInsertAt b (← s.run b) index (more + 1)
  | shiftForInsertAtAll s values => do IndexSet.shiftForInsertAtAll b (← s.run b) (← values.run b)
  | eraseAt s index => do IndexSet.eraseAt (← s.run b) index
  | eraseAtAll s positions => do IndexSet.eraseAtAll b (← s.run b) (← positions.run b)
  | eraseOrUnshift s index => do
      let (v, _) ← IndexSet.eraseOrUnshift (← s.run b) index
      .ok v
  | remove s index more => do IndexSet.remove b (← s.run b) index (more + 1)
  | removeAll s values => do IndexSet.removeAll b (← s.run b) (← values.run b)

/-- The indices the set should have. -/
noncomputable def denote : Script → Set Nat
  | clear => ∅
  | set len => Set.Iio len
  | add s index => insert index s.denote
  | addAll s other => s.denote ∪ other.denote
  | addShifted s index => insert (spread s.denote index) s.denote
  | insertAt s index more => insertAll s.denote (Set.Ico index (index + (more + 1)))
  | insertAtAll s positions => insertAll s.denote positions.denote
  | shiftForInsertAt s index more => moveAll s.denote (Set.Ico index (index + (more + 1)))
  | shiftForInsertAtAll s values => moveAll s.denote values.denote
  | eraseAt s index => eraseAll s.denote {index}
  | eraseAtAll s positions => eraseAll s.denote positions.denote
  | eraseOrUnshift s index => eraseAll s.denote {index}
  | remove s index more => s.denote \ Set.Ico index (index + (more + 1))
  | removeAll s values => s.denote \ values.denote

variable {b : Build} {s other : Script}

/-- The script has made a valid set with the indices it should have. -/
def Makes (b : Build) (s : Script) (result : Except Fault IndexSet) : Prop :=
  ∃ v, result = .ok v ∧ Valid b v ∧ members v = s.denote

/-- One method, on a set that was made. -/
theorem Makes.step {s' : Script} {f : IndexSet → Except Fault IndexSet} (h : Makes b s (s.run b))
    (hf : ∀ v, Valid b v → members v = s.denote → Makes b s' (f v)) :
    Makes b s' (s.run b >>= f) := by
  obtain ⟨v, hrun, hv, hmembers⟩ := h
  rw [hrun, ok_bind]
  exact hf v hv hmembers

/-- One method, on two sets that were made. -/
theorem Makes.step₂ {s' : Script} {f : IndexSet → IndexSet → Except Fault IndexSet}
    (h : Makes b s (s.run b)) (hother : Makes b other (other.run b))
    (hf : ∀ v w, Valid b v → members v = s.denote → Valid b w → members w = other.denote →
      Makes b s' (f v w)) :
    Makes b s' (s.run b >>= fun v => other.run b >>= f v) :=
  h.step fun v hv hmembers => hother.step fun w hw hmembersw => hf v w hv hmembers hw hmembersw

theorem makes (b : Build) (s : Script) : Makes b s (s.run b) := by
  induction s with
  | clear =>
      refine ⟨IndexSet.clear, rfl, ⟨fun _ h => absurd h List.not_mem_nil, RangeList.separated_nil⟩, ?_⟩
      exact RangeList.toSet_nil
  | set len => exact set_spec b len
  | add s index ih =>
      refine ih.step fun v hv hmembers => ?_
      obtain ⟨v', hadd, hv', hmembers'⟩ := add_spec hv index
      exact ⟨v', hadd, hv', by rw [hmembers', hmembers, denote]⟩
  | addAll s other ih ihother =>
      refine ih.step₂ ihother fun v w hv hmembers hw hmembersw => ?_
      obtain ⟨v', hadd, hv', hmembers'⟩ := addAll_spec hv hw
      exact ⟨v', hadd, hv', by rw [hmembers', hmembers, hmembersw, denote]⟩
  | addShifted s index ih =>
      refine ih.step fun v hv hmembers => ?_
      obtain ⟨v', hadd, hv', hmembers'⟩ := addShifted_spec hv index
      rw [hadd, ok_bind]
      exact ⟨v', rfl, hv', by rw [hmembers', hmembers, denote]⟩
  | insertAt s index more ih =>
      refine ih.step fun v hv hmembers => ?_
      obtain ⟨v', hinsert, hv', hmembers'⟩ := insertAt_spec hv index (Nat.succ_pos more)
      exact ⟨v', hinsert, hv', by rw [hmembers', hmembers, denote]⟩
  | insertAtAll s positions ih ihpositions =>
      refine ih.step₂ ihpositions fun v w hv hmembers hw hmembersw => ?_
      obtain ⟨v', hinsert, hv', hmembers'⟩ := insertAtAll_spec hv hw
      exact ⟨v', hinsert, hv', by rw [hmembers', hmembers, hmembersw, denote]⟩
  | shiftForInsertAt s index more ih =>
      refine ih.step fun v hv hmembers => ?_
      obtain ⟨v', hshift, hv', hmembers'⟩ := shiftForInsertAt_spec hv index (Nat.succ_pos more)
      exact ⟨v', hshift, hv', by rw [hmembers', hmembers, denote]⟩
  | shiftForInsertAtAll s values ih ihvalues =>
      refine ih.step₂ ihvalues fun v w hv hmembers hw hmembersw => ?_
      obtain ⟨v', hshift, hv', hmembers'⟩ := shiftForInsertAtAll_spec hv hw
      exact ⟨v', hshift, hv', by rw [hmembers', hmembers, hmembersw, denote]⟩
  | eraseAt s index ih =>
      refine ih.step fun v hv hmembers => ?_
      obtain ⟨v', herase, hv', hmembers'⟩ := eraseAt_spec hv index
      exact ⟨v', herase, hv', by rw [hmembers', hmembers, denote]⟩
  | eraseAtAll s positions ih ihpositions =>
      refine ih.step₂ ihpositions fun v w hv hmembers hw hmembersw => ?_
      obtain ⟨v', herase, hv', hmembers'⟩ := eraseAtAll_spec hv hw
      exact ⟨v', herase, hv', by rw [hmembers', hmembers, hmembersw, denote]⟩
  | eraseOrUnshift s index ih =>
      refine ih.step fun v hv hmembers => ?_
      obtain ⟨v', herase, hv', hmembers'⟩ := eraseOrUnshift_spec hv index
      rw [herase, ok_bind]
      exact ⟨v', rfl, hv', by rw [hmembers', hmembers, denote]⟩
  | remove s index more ih =>
      refine ih.step fun v hv hmembers => ?_
      obtain ⟨v', hremove, hv', hmembers'⟩ := remove_spec hv index (Nat.succ_pos more)
      exact ⟨v', hremove, hv', by rw [hmembers', hmembers, denote]⟩
  | removeAll s values ih ihvalues =>
      refine ih.step₂ ihvalues fun v w hv hmembers hw hmembersw => ?_
      obtain ⟨v', hremove, hv', hmembers'⟩ := removeAll_spec hv hw
      exact ⟨v', hremove, hv', by rw [hmembers', hmembers, hmembersw, denote]⟩

/-- Every script runs to its end and makes a set that `verify` accepts, with the indices it
should have; `contains` tells which they are. -/
theorem run_spec (b : Build) (s : Script) : ∃ v, s.run b = .ok v ∧ verify v = .ok () ∧
    (∀ chunk ∈ v, chunk.data.length ≤ b.maxSize) ∧ members v = s.denote ∧
    ∀ index, ∃ answer, contains v index = .ok answer ∧ (answer = true ↔ index ∈ s.denote) := by
  obtain ⟨v, hrun, hv, hmembers⟩ := makes b s
  refine ⟨v, hrun, hv.verify_eq, fun chunk hmem => (hv.tidy chunk hmem).size_le, hmembers, ?_⟩
  intro index
  rw [← hmembers]
  exact contains_spec hv index

/-- Scripts that should make the same indices make the same ranges, in whatever build. -/
theorem run_ranges_eq (b b' : Build) {s t : Script} (h : s.denote = t.denote) :
    ∃ v w, s.run b = .ok v ∧ t.run b' = .ok w ∧ ranges v = ranges w := by
  obtain ⟨v, hrun, hv, hmembers⟩ := makes b s
  obtain ⟨w, hrun', hw, hmembers'⟩ := makes b' t
  refine ⟨v, w, hrun, hrun', hv.separated.ext hw.separated ?_⟩
  exact (hmembers.trans h).trans hmembers'.symm

theorem run_ranges_eq_two : ∃ v w, (add (add clear 1) 0).run .debug = .ok v ∧
    (set 2).run .release = .ok w ∧ ranges v = ranges w := by
  refine run_ranges_eq .debug .release ?_
  ext x
  constructor
  · rintro (rfl | rfl | h)
    · exact Nat.two_pos
    · exact Nat.one_lt_two
    · exact h.elim
  · intro h
    have h : x < 2 := h
    have htwo : x = 0 ∨ x = 1 := by omega
    rcases htwo with rfl | rfl
    · exact .inl rfl
    · exact .inr (.inl rfl)

end Script

end IndexSet

end Realm
