/-
# `Realm.IndexSetAddShiftedBy` — adding indices that were shifted by another set

`add_shifted_by` takes the indices of `values` that are not in `shifted_by`, takes the
positions of `shifted_by` out of them and inserts those of the set itself.  It goes
through the three sets at once, builds the old indices up to the last new one index by
index, and copies the old ranges behind it as they are.

The indices are right (`addShiftedBy_spec`).  The counts of the chunks are, unless one of
the copied ranges, of more than one index, begins a chunk for which none was prepared:
the builder then counts one index (`Miscounts`), and `verify` fails.
-/
import CrashRealm.Realm.IndexSetMerge

namespace Realm

open Rx (Fault ok_bind)
open RangeList (Range Separated Below Above toSet total width total_append total_cons indices)
open Positions (below spread rank insertAll moveAll eraseAll)

variable {b : Build}

namespace IndexSet

open ChunkedRangeVector
open IndexIterator (At)
open ChunkedRangeVectorBuilder (Built Builds Opens Pushed)

/-! ## The method -/

/-- `for (; shift_it != shift_end && shift_it->first <= index; ++shift_it)`, on `new_shift` and
`skip_until`. -/
def passShifted (index : Nat) :
    Nat → IndexSet → Iterator → Nat × Nat → Except Fault (Iterator × (Nat × Nat)) :=
  walk (fun _ r _ => r.first ≤ index) fun r x => (x.1 + (r.second - r.first), r.second)

/-- `for (size_t i = old_it->first; i < old_it->second; ++i) builder.push_back(i)` -/
def pushEach (b : Build) :
    List Nat → ChunkedRangeVectorBuilder → Except Fault ChunkedRangeVectorBuilder
  | [], builder => .ok builder
  | i :: l, builder => do pushEach b l (← builder.push b i)

/-- `for (; old_it != old_end && old_it->first <= place + old_shift; ++old_it)`, where `place`
is `index - new_shift`. -/
def pushOld (b : Build) (place : Nat) : Nat → IndexSet → Iterator → ChunkedRangeVectorBuilder →
    Nat → Except Fault (Iterator × ChunkedRangeVectorBuilder × Nat)
  | 0, _, _, _, _ => .error .spinning
  | k + 1, v, it, builder, oldShift => do
      match ← rangeAt v it with
      | none => .ok (it, builder, oldShift)
      | some r =>
          if r.first ≤ place + oldShift then do
            let builder ← pushEach b (List.range' r.first (r.second - r.first)) builder
            let it ← next v it
            pushOld b place k v it builder (oldShift + (r.second - r.first))
          else .ok (it, builder, oldShift)

/-- The variables of the loop over the values. -/
structure Adding where
  builder : ChunkedRangeVectorBuilder
  oldIt : Iterator
  shiftIt : Iterator
  skipUntil : Nat
  oldShift : Nat
  newShift : Nat

/-- `for (size_t index : values.as_indexes())` -/
def addValues (b : Build) (v shiftedBy values : IndexSet) :
    Nat → IndexIterator → Adding → Except Fault Adding
  | 0, _, _ => .error .spinning
  | k + 1, it, s =>
      if it.atEnd values then .ok s
      else do
        let index ← it.deref values
        let (shiftIt, newShift, skipUntil) ←
          passShifted index (rounds shiftedBy) shiftedBy s.shiftIt (s.newShift, s.skipUntil)
        let it ← it.next values
        if index < skipUntil then
          addValues b v shiftedBy values k it
            { s with shiftIt := shiftIt, newShift := newShift, skipUntil := skipUntil }
        else do
          let (oldIt, builder, oldShift) ←
            pushOld b (index - newShift) (rounds v) v s.oldIt s.builder s.oldShift
          realmAssert (index ≥ newShift) "index >= new_shift"
          let builder ← builder.push b (index - newShift + oldShift)
          addValues b v shiftedBy values k it
            { builder := builder, oldIt := oldIt, shiftIt := shiftIt, skipUntil := skipUntil
              oldShift := oldShift, newShift := newShift }

/-- `copy(old_it, old_end, std::back_inserter(builder))` -/
def copyRanges (b : Build) (v : IndexSet) : Nat → Iterator → ChunkedRangeVectorBuilder →
    Except Fault ChunkedRangeVectorBuilder
  | 0, _, _ => .error .spinning
  | k + 1, it, builder => do
      match ← rangeAt v it with
      | none => .ok builder
      | some r =>
          let builder ← builder.pushRange b r
          let it ← next v it
          copyRanges b v k it builder

/-- `for (auto index : values.as_indexes()) if (!shifted_by.contains(index)) ++expected` -/
def countExpected (shiftedBy : IndexSet) : List Nat → Nat → Except Fault Nat
  | [], expected => .ok expected
  | index :: l, expected => do
      let found ← contains shiftedBy index
      countExpected shiftedBy l (if found then expected else expected + 1)

/-- `add_shifted_by` -/
def addShiftedBy (b : Build) (v shiftedBy values : IndexSet) : Except Fault IndexSet :=
  if values = [] then .ok v
  else do
    let expected ← countExpected shiftedBy (indices (ranges values)) (indices (ranges v)).length
    let s ← addValues b v shiftedBy values (indexRounds values) .start ⟨.make b v, cbegin, cbegin, 0, 0, 0⟩
    let builder ← copyRanges b v (rounds v) s.oldIt s.builder
    let v' := builder.finalize
    realmAssert ((indices (ranges v')).length = expected)
      "std::distance(as_indexes().begin(), as_indexes().end()) == expected"
    .ok v'

end IndexSet

end Realm
