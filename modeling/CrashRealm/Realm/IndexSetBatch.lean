/-
# `Realm.IndexSetBatch` — sets of positions, inserted and erased at once

The methods of `IndexSet` that take another set go through both sets index by index and
build the new one from the front (`ChunkedRangeVectorBuilder`).  An `IndexIterator` is
at an index of a range; compared with `end()`, only the range counts.

`merge` is the loop of `insert_at`, `shift_for_insert_at` and `erase_at`, which differ in
what one of its rounds does with the indices at the two iterators.
-/
import CrashRealm.Realm.IndexSet

namespace Realm

open Rx (Fault)
open RangeList (Range)

/-- `IndexSet::IndexIterator` -/
structure IndexIterator where
  iterator : Iterator
  offset : Nat
  deriving DecidableEq, Repr

namespace IndexIterator

open ChunkedRangeVector

/-- `*it` -/
def deref (v : IndexSet) (it : IndexIterator) : Except Fault Nat := do
  let r ← ChunkedRangeVector.deref v it.iterator
  .ok (r.first + it.offset)

/-- `++it` -/
def next (v : IndexSet) (it : IndexIterator) : Except Fault IndexIterator := do
  let r ← ChunkedRangeVector.deref v it.iterator
  if r.first + (it.offset + 1) = r.second then do
    let iterator ← ChunkedRangeVector.next v it.iterator
    .ok ⟨iterator, 0⟩
  else .ok ⟨it.iterator, it.offset + 1⟩

/-- `cbegin()`, as an `IndexIterator`. -/
def start : IndexIterator := ⟨cbegin, 0⟩

/-- `it == end` -/
def atEnd (v : IndexSet) (it : IndexIterator) : Bool := it.iterator = cend v

end IndexIterator

/-! ## `ChunkedRangeVectorBuilder` -/

/-- `Chunk{}` -/
def Chunk.blank : Chunk := ⟨[], 0, 0, 0⟩

structure ChunkedRangeVectorBuilder where
  data : List Chunk
  outerPos : Nat
  deriving Repr

namespace ChunkedRangeVectorBuilder

open ChunkedRangeVector

/-- As many chunks as the ranges of the expected vector take, and one. -/
def make (b : Build) (expected : ChunkedRangeVector) : ChunkedRangeVectorBuilder where
  data := List.replicate ((ranges expected).length / b.maxSize + 1) .blank
  outerPos := 0

/-- `push_back(range)` -/
def pushRange (b : Build) (builder : ChunkedRangeVectorBuilder) (range : Range) :
    Except Fault ChunkedRangeVectorBuilder :=
  match builder.data[builder.outerPos]? with
  | none => .error .outOfBounds
  | some chunk =>
      match chunk.data.getLast? with
      | none =>
          .ok { builder with data := builder.data.set builder.outerPos { chunk with
            data := [range]
            count := range.second - range.first
            begin := range.first } }
      | some back =>
          if range.first = back.second then
            .ok { builder with data := builder.data.set builder.outerPos { chunk with
              data := chunk.data.dropLast ++ [⟨back.first, range.second⟩]
              count := chunk.count + (range.second - range.first) } }
          else if chunk.data.length < b.maxSize then
            .ok { builder with data := builder.data.set builder.outerPos { chunk with
              data := chunk.data ++ [range]
              count := chunk.count + (range.second - range.first) } }
          else
            let data := builder.data.set builder.outerPos { chunk with stop := back.second }
            let outerPos := builder.outerPos + 1
            match data[outerPos]? with
            | none => .ok ⟨data ++ [⟨[range], range.first, 0, 1⟩], outerPos⟩
            | some chunk =>
                .ok ⟨data.set outerPos { chunk with
                  data := chunk.data ++ [range]
                  begin := range.first
                  count := range.second - range.first }, outerPos⟩

/-- `push_back(index)` -/
def push (b : Build) (builder : ChunkedRangeVectorBuilder) (index : Nat) :
    Except Fault ChunkedRangeVectorBuilder :=
  builder.pushRange b ⟨index, index + 1⟩

/-- `finalize` -/
def finalize (builder : ChunkedRangeVectorBuilder) : ChunkedRangeVector :=
  let data := builder.data.take (builder.outerPos + 1)
  match data.getLast? with
  | none => data
  | some chunk =>
      match chunk.data.getLast? with
      | none => data.dropLast
      | some back => data.dropLast ++ [{ chunk with stop := back.second }]

end ChunkedRangeVectorBuilder

namespace IndexSet

open ChunkedRangeVector

/-! ## The loops over two sets -/

/-- `add(other)`: each index is found from where the last was added. -/
def addIndexes (b : Build) (other : IndexSet) : Nat → IndexSet → Iterator → IndexIterator →
    Except Fault IndexSet
  | 0, _, _, _ => .error .spinning
  | k + 1, v, it, index =>
      if index.atEnd other then .ok v
      else do
        let i ← index.deref other
        let found ← find v i it
        let (v, it) ← doAdd b v found i
        let index ← index.next other
        addIndexes b other k v it index

/-- How many rounds a loop over the indices of a set has. -/
def indexRounds (v : IndexSet) : Nat := RangeList.total (ranges v) + 1

/-- `add(other)` -/
def addAll (b : Build) (v other : IndexSet) : Except Fault IndexSet :=
  addIndexes b other (indexRounds other) v cbegin .start

/-- What a round of a loop over two sets does: what it pushes, what the shift is after it,
and which iterators go on. -/
structure Round where
  push : Option Nat
  shift : Nat
  next₁ : Bool
  next₂ : Bool

/-- `builder.push_back(index)`, if there is one. -/
def pushSome (b : Build) (builder : ChunkedRangeVectorBuilder) :
    Option Nat → Except Fault ChunkedRangeVectorBuilder
  | none => .ok builder
  | some index => builder.push b index

/-- `++it`, if it goes on. -/
def nextIf (v : IndexSet) (it : IndexIterator) (next : Bool) : Except Fault IndexIterator :=
  if next then it.next v else .ok it

/-- `while (begin1 != end1 && begin2 != end2)` -/
def merge (b : Build) (round : Nat → Nat → Nat → Round) (v₁ v₂ : IndexSet) : Nat →
    IndexIterator → IndexIterator → ChunkedRangeVectorBuilder → Nat →
    Except Fault (IndexIterator × IndexIterator × ChunkedRangeVectorBuilder × Nat)
  | 0, _, _, _, _ => .error .spinning
  | k + 1, begin₁, begin₂, builder, shift =>
      if begin₁.atEnd v₁ ∨ begin₂.atEnd v₂ then .ok (begin₁, begin₂, builder, shift)
      else do
        let i₁ ← begin₁.deref v₁
        let i₂ ← begin₂.deref v₂
        let done := round i₁ i₂ shift
        let builder ← pushSome b builder done.push
        let begin₁ ← nextIf v₁ begin₁ done.next₁
        let begin₂ ← nextIf v₂ begin₂ done.next₂
        merge b round v₁ v₂ k begin₁ begin₂ builder done.shift

/-- `for (; begin != end; ++begin) builder.push_back(f(*begin))` -/
def pushRest (b : Build) (f : Nat → Nat) (v : IndexSet) : Nat → IndexIterator →
    ChunkedRangeVectorBuilder → Except Fault ChunkedRangeVectorBuilder
  | 0, _, _ => .error .spinning
  | k + 1, begin, builder =>
      if begin.atEnd v then .ok builder
      else do
        let i ← begin.deref v
        let builder ← builder.push b (f i)
        let begin ← begin.next v
        pushRest b f v k begin builder

/-- One round of `insert_at(positions)` -/
def insertRound (i₁ i₂ shift : Nat) : Round :=
  if i₁ + shift < i₂ then ⟨some (i₁ + shift), shift, true, false⟩
  else ⟨some i₂, shift + 1, false, true⟩

/-- One round of `shift_for_insert_at(values)` -/
def shiftRound (i₁ i₂ shift : Nat) : Round :=
  if i₁ + shift < i₂ then ⟨some (i₁ + shift), shift, true, false⟩
  else ⟨none, shift + 1, false, true⟩

/-- One round of `erase_at(positions)` -/
def eraseRound (i₁ i₂ shift : Nat) : Round :=
  if i₁ < i₂ then ⟨some (i₁ - shift), shift, true, false⟩
  else if i₁ = i₂ then ⟨none, shift + 1, true, true⟩
  else ⟨none, shift + 1, false, true⟩

/-- `insert_at(positions)` -/
def insertAtAll (b : Build) (v positions : IndexSet) : Except Fault IndexSet :=
  if positions = [] then .ok v
  else if v = [] then .ok positions
  else do
    let (begin₁, begin₂, builder, shift) ← merge b insertRound v positions
      (indexRounds v + indexRounds positions) .start .start (.make b v) 0
    let builder ← pushRest b (fun i => i + shift) v (indexRounds v) begin₁ builder
    let builder ← pushRest b (fun i => i) positions (indexRounds positions) begin₂ builder
    .ok builder.finalize

/-- `shift_for_insert_at(values)` -/
def shiftForInsertAtAll (b : Build) (v values : IndexSet) : Except Fault IndexSet :=
  match values.head?, v.getLast? with
  | some front, some back =>
      if front.begin ≥ back.stop then .ok v
      else do
        let (begin₁, _, builder, shift) ← merge b shiftRound v values
          (indexRounds v + indexRounds values) .start .start (.make b v) 0
        let builder ← pushRest b (fun i => i + shift) v (indexRounds v) begin₁ builder
        .ok builder.finalize
  | _, _ => .ok v

/-- `erase_at(positions)` -/
def eraseAtAll (b : Build) (v positions : IndexSet) : Except Fault IndexSet :=
  if v = [] ∨ positions = [] then .ok v
  else do
    let (begin₁, _, builder, shift) ← merge b eraseRound v positions
      (indexRounds v + indexRounds positions) .start .start (.make b v) 0
    let builder ← pushRest b (fun i => i - shift) v (indexRounds v) begin₁ builder
    .ok builder.finalize

end IndexSet

end Realm
