/-
# `Realm.IndexSet` — a set of indices, edited one position at a time

`IndexSet` is a `ChunkedRangeVector`.  Its methods find the range for an index, edit it
and its neighbours, and shift the ranges behind it; some skip whole chunks on the way,
by what the chunk knows of its ranges.

An index is a `Nat`: no method is called with indices near the end of `size_t`.  The
loops have as many rounds as there are ranges, and one.  `npos`, which
`erase_or_unshift` may return, is `none`.
-/
import CrashRealm.Realm.ChunkedRangeVector

namespace Realm

open Rx (Fault)
open RangeList (Range)

abbrev IndexSet := ChunkedRangeVector

namespace IndexSet

open ChunkedRangeVector

/-- How many rounds a loop over the ranges has. -/
def rounds (v : IndexSet) : Nat := (ranges v).length + 1

/-- `clear` -/
def clear : IndexSet := []

/-! ## Looking up -/

/-- `std::lower_bound` on what the comparison partitions: the first place it fails. -/
def lowerBound (comp : Range → Bool) (l : List Range) : Nat := l.findIdx fun r => !comp r

/-- `find(index, begin)`: the range that has the index, or the first after it;
`find(index)` is `find(index, begin())`. -/
def find (v : IndexSet) (index : Nat) (begin : Iterator) : Except Fault Iterator :=
  let outer := begin.outer + (v.drop begin.outer).findIdx fun chunk => index < chunk.stop
  match v[outer]? with
  | none => .ok (cend v)
  | some chunk =>
      if index < chunk.begin then .ok ⟨outer, 0⟩
      else do
        let innerBegin := if outer = begin.outer then begin.offset else 0
        let inner := innerBegin + lowerBound (fun r => r.second ≤ index) (chunk.data.drop innerBegin)
        realmAssert (inner ≠ chunk.data.length) "inner != it->data.end()"
        .ok ⟨outer, inner⟩

/-- `*it`, where `it` is not `end()`. -/
def rangeAt (v : IndexSet) (it : Iterator) : Except Fault (Option Range) :=
  if it = cend v then .ok none else some <$> deref v it

/-- `*std::prev(it)`, where `it` is not `begin()`. -/
def rangeBefore (v : IndexSet) (it : Iterator) : Except Fault (Option Range) :=
  if it = cbegin then .ok none
  else do
    let it ← prev v it
    some <$> deref v it

/-- `contains` -/
def contains (v : IndexSet) (index : Nat) : Except Fault Bool := do
  let it ← find v index cbegin
  let range ← rangeAt v it
  .ok (range.any fun r => r.first ≤ index)

/-! ## Adding -/

/-- `do_add(it, index)` where the index is immediately after an existing range. -/
def addAfter (v : IndexSet) (it : Iterator) (current : Option Range) (index : Nat) :
    Except Fault (IndexSet × Iterator) := do
  let last ← prev v it
  let v ← last.adjust v 0 1
  match current with
  | some r =>
      if index + 1 = r.first then do
        -- index joins two existing ranges
        let v ← last.adjust v 0 (r.second - r.first : Nat)
        let (v, it) ← erase v it
        let it ← prev v it
        .ok (v, it)
      else .ok (v, last)
  | none => .ok (v, last)

/-- `do_add(it, index)` -/
def doAdd (b : Build) (v : IndexSet) (it : Iterator) (index : Nat) :
    Except Fault (IndexSet × Iterator) := do
  verify v
  let previous ← rangeBefore v it
  let current ← rangeAt v it
  realmAssert (∀ r ∈ previous, r.second ≤ index) "!more_before || index >= std::prev(it)->second"
  if current.any fun r => r.first ≤ index ∧ index < r.second then
    -- index is already in set
    .ok (v, it)
  else if previous.any fun r => r.second = index then addAfter v it current index
  else if current.any fun r => r.first = index + 1 then do
    -- index is immediately before an existing range
    let v ← it.adjust v (-1) 0
    .ok (v, it)
  else insert b v it ⟨index, index + 1⟩

/-- `add` -/
def add (b : Build) (v : IndexSet) (index : Nat) : Except Fault IndexSet := do
  let it ← find v index cbegin
  let (v, _) ← doAdd b v it index
  .ok v

/-- `set(len)` -/
def set (b : Build) (len : Nat) : Except Fault IndexSet :=
  if len = 0 then .ok clear else pushBack b clear ⟨0, len⟩

/-! ## Shifting -/

/-- `for (; it != end(); ++it) it.shift(distance)` -/
def shiftUntilEnd (distance : Int) : Nat → IndexSet → Iterator → Except Fault IndexSet
  | 0, _, _ => .error .spinning
  | k + 1, v, it =>
      if it = cend v then .ok v
      else do
        let v ← it.shift v distance
        let it ← next v it
        shiftUntilEnd distance k v it

/-- `for (size_t i = 0; i < count; ++i) pos = std::next(do_add(pos, index + i))` -/
def addFrom (b : Build) : Nat → IndexSet → Iterator → Nat → Except Fault IndexSet
  | 0, v, _, _ => .ok v
  | count + 1, v, pos, index => do
      let (v, pos) ← doAdd b v pos index
      let pos ← next v pos
      addFrom b count v pos (index + 1)

/-- `insert_at(index, count)` -/
def insertAt (b : Build) (v : IndexSet) (index count : Nat) : Except Fault IndexSet := do
  realmAssert (0 < count) "count > 0"
  let pos ← find v index cbegin
  let current ← rangeAt v pos
  let v ← match current with
    | none => addFrom b count v pos index
    | some r =>
        if r.first ≤ index then do
          let v ← pos.adjust v 0 count
          shiftUntilEnd count (rounds v) v (← next v pos)
        else do
          let v ← pos.shift v count
          let v ← shiftUntilEnd count (rounds v) v (← next v pos)
          addFrom b count v pos index
  verify v
  .ok v

/-- `shift_for_insert_at(index, count)` -/
def shiftForInsertAt (b : Build) (v : IndexSet) (index count : Nat) : Except Fault IndexSet := do
  realmAssert (0 < count) "count > 0"
  let it ← find v index cbegin
  if it = cend v then .ok v
  else do
    let v ← shiftUntilEnd count (rounds v) v it
    let range ← deref v it
    -- If the range contained the insertion point, split the range
    if range.first < index + count then do
      let v ← it.set v (range.first - count) index
      let (v, _) ← insert b v (← next v it) ⟨index + count, range.second⟩
      verify v
      .ok v
    else do
      verify v
      .ok v

/-! ## Erasing and removing -/

/-- `do_erase(it, index)` -/
def doErase (v : IndexSet) (it : Iterator) (index : Nat) : Except Fault IndexSet := do
  let range ← deref v it
  let previous ← rangeBefore v it
  if range.first ≤ index then
    if range.first + 1 = range.second then do
      let (v, it) ← erase v it
      shiftUntilEnd (-1) (rounds v) v it
    else do
      let v ← it.adjust v 0 (-1)
      shiftUntilEnd (-1) (rounds v) v (← next v it)
  else if previous.any fun r => r.second + 1 = range.first then do
    let v ← (← prev v it).adjust v 0 (range.second - range.first : Nat)
    let (v, it) ← erase v it
    shiftUntilEnd (-1) (rounds v) v it
  else shiftUntilEnd (-1) (rounds v) v it

/-- `erase_at` -/
def eraseAt (v : IndexSet) (index : Nat) : Except Fault IndexSet := do
  let it ← find v index cbegin
  if it = cend v then .ok v else doErase v it index

/-- `do_remove(it, begin, end)` -/
def doRemove (b : Build) : Nat → IndexSet → Iterator → Nat → Nat →
    Except Fault (IndexSet × Iterator)
  | 0, _, _, _, _ => .error .spinning
  | k + 1, v, it, begin, stop => do
      let it ← find v begin it
      match ← rangeAt v it with
      | none => .ok (v, it)
      | some r =>
          if stop ≤ r.first then .ok (v, it)
          else
            -- Trim off any part of the range to remove that's before the matching range
            let begin := max r.first begin
            if r.first < begin ∧ stop < r.second then do
              -- the matching range extends to both sides of the range to remove
              let v ← it.set v r.first begin
              let (v, it) ← insert b v (← next v it) ⟨stop, r.second⟩
              let it ← prev v it
              doRemove b k v it begin stop
            else if begin = r.first ∧ r.second ≤ stop then do
              let (v, it) ← erase v it
              doRemove b k v it begin stop
            else if begin = r.first then do
              let v ← it.set v stop r.second
              doRemove b k v it begin stop
            else do
              let v ← it.set v r.first begin
              doRemove b k v it begin stop

/-- `remove(index, count)` -/
def remove (b : Build) (v : IndexSet) (index count : Nat) : Except Fault IndexSet := do
  let it ← find v index cbegin
  let (v, _) ← doRemove b (rounds v) v it index (index + count)
  .ok v

/-- The loop of `remove(values)` over the ranges of the values. -/
def removeRanges (b : Build) : IndexSet → Iterator → List Range → Except Fault IndexSet
  | v, _, [] => .ok v
  | v, it, range :: ranges => do
      let (v, it) ← doRemove b (rounds v) v it range.first range.second
      if it = cend v then .ok v else removeRanges b v it ranges

/-- `remove(values)` -/
def removeAll (b : Build) (v values : IndexSet) : Except Fault IndexSet :=
  removeRanges b v cbegin (ranges values)

/-! ## Walking over what is passed -/

variable {α : Type}

/-- `for (; it != end() && more(it, x); ++it) x = step(*it, x)` -/
def walk (more : Iterator → Range → α → Bool) (step : Range → α → α) :
    Nat → IndexSet → Iterator → α → Except Fault (Iterator × α)
  | 0, _, _, _ => .error .spinning
  | k + 1, v, it, x => do
      match ← rangeAt v it with
      | none => .ok (it, x)
      | some r =>
          if more it r x then do
            let it ← next v it
            walk more step k v it (step r x)
          else .ok (it, x)

/-- `for (; it != end() && more(it.outer(), x); it.next_chunk()) x = step(it.outer(), x)`:
how many chunks are passed, and what `x` is then. -/
def walkChunks (more : Chunk → α → Bool) (step : Chunk → α → α) : List Chunk → α → Nat × α
  | [], x => (0, x)
  | chunk :: chunks, x =>
      if more chunk x then
        let (passed, x) := walkChunks more step chunks (step chunk x)
        (passed + 1, x)
      else (0, x)

/-! ## Shifting an index -/

/-- `shift(index)`: the ranges the index reaches are stepped over. -/
def shiftOver : List Range → Nat → Nat
  | [], index => index
  | r :: rest, index =>
      if r.first > index then index else shiftOver rest (index + (r.second - r.first))

/-- `shift` -/
def shift (v : IndexSet) (index : Nat) : Nat := shiftOver (ranges v) index

/-- `for (; it != end && it.outer()->end <= index; it.next_chunk()) index += it.outer()->count` -/
def overChunks : List Chunk → Nat → Nat × Nat :=
  walkChunks (fun chunk index => chunk.stop ≤ index) fun chunk index => index + chunk.count

/-- `for (; it != end && it->first <= index; ++it) index += it->second - it->first` -/
def overRanges : Nat → IndexSet → Iterator → Nat → Except Fault (Iterator × Nat) :=
  walk (fun _ r index => r.first ≤ index) fun r index => index + (r.second - r.first)

/-- `add_shifted` -/
def addShifted (b : Build) (v : IndexSet) (index : Nat) : Except Fault (IndexSet × Nat) := do
  -- Shift for any complete chunks before the target
  let (passed, index) := overChunks v index
  -- And any ranges within the last partial chunk
  let (it, index) ← overRanges (rounds v) v ⟨passed, 0⟩ index
  let (v, _) ← doAdd b v it index
  .ok (v, index)

/-- `for (; it != end && it.outer()->end <= index; it.next_chunk()) shifted -= it.outer()->count` -/
def chunksBelow (index : Nat) : List Chunk → Nat → Nat × Nat :=
  walkChunks (fun chunk _ => chunk.stop ≤ index) fun chunk shifted => shifted - chunk.count

/-- `for (; it != end && it->second <= index; ++it) shifted -= it->second - it->first` -/
def rangesBelow (index : Nat) : Nat → IndexSet → Iterator → Nat → Except Fault (Iterator × Nat) :=
  walk (fun _ r _ => r.second ≤ index) fun r shifted => shifted - (r.second - r.first)

/-- `erase_or_unshift` -/
def eraseOrUnshift (v : IndexSet) (index : Nat) : Except Fault (IndexSet × Option Nat) := do
  let (passed, shifted) := chunksBelow index v index
  let (it, shifted) ← rangesBelow index (rounds v) v ⟨passed, 0⟩ shifted
  match ← rangeAt v it with
  | none => .ok (v, some shifted)
  | some r =>
      let v ← doErase v it index
      .ok (v, if r.first ≤ index then none else some shifted)

/-! ## Counting -/

/-- `for (++it; it != end && it->second < end_index && it.offset() != 0; ++it)` -/
def restOfChunk (stop : Nat) : Nat → IndexSet → Iterator → Nat → Except Fault (Iterator × Nat) :=
  walk (fun it r _ => r.second < stop ∧ it.offset ≠ 0) fun r ret => ret + (r.second - r.first)

/-- `while (it != end && it.outer()->end <= end_index)` -/
def wholeChunks (stop : Nat) : List Chunk → Nat → Nat × Nat :=
  walkChunks (fun chunk _ => chunk.stop ≤ stop) fun chunk ret => ret + chunk.count

/-- `while (it != end && it->second <= end_index)` -/
def wholeRanges (stop : Nat) : Nat → IndexSet → Iterator → Nat → Except Fault (Iterator × Nat) :=
  walk (fun _ r _ => r.second ≤ stop) fun r ret => ret + (r.second - r.first)

/-- What `count` does from the start of a chunk on. -/
def countFrom (v : IndexSet) (it : Iterator) (stop ret : Nat) : Except Fault Nat := do
  -- Now count all complete chunks that fall within the range
  let (passed, ret) := wholeChunks stop (v.drop it.outer) ret
  realmAssert (passed ≠ 0 → it.offset = 0) "it.offset() == 0"
  let it := if passed = 0 then it else ⟨it.outer + passed, 0⟩
  -- Count all complete ranges within the last chunk
  let (it, ret) ← wholeRanges stop (rounds v) v it ret
  -- And finally add in the partial last range
  let last ← rangeAt v it
  .ok (last.elim ret fun r => if r.first < stop then ret + (stop - r.first) else ret)

/-- `count(start_index, end_index)` -/
def count (v : IndexSet) (start stop : Nat) : Except Fault Nat := do
  let it ← find v start cbegin
  match ← rangeAt v it with
  | none => .ok 0
  | some r =>
      if stop ≤ r.first then .ok 0
      else if stop ≤ r.second then .ok (min r.second stop - max r.first start)
      else if r.first < start ∨ it.offset ≠ 0 then do
        -- Start index is in the middle of a chunk, so start by counting the rest of that chunk
        let it ← next v it
        let (it, ret) ← restOfChunk stop (rounds v) v it (r.second - max r.first start)
        match ← rangeAt v it with
        | none => .ok ret
        | some r =>
            let ret := if r.first < stop ∧ it.offset ≠ 0 then ret + (stop - r.first) else ret
            if stop ≤ r.second then .ok ret else countFrom v it stop ret
      else countFrom v it stop 0

/-- `unshift` -/
def unshift (v : IndexSet) (index : Nat) : Except Fault Nat := do
  let found ← contains v index
  realmAssert (¬ found) "!contains(index)"
  let counted ← count v 0 index
  .ok (index - counted)

end IndexSet

end Realm
