/-
# `Realm.ChunkedRangeVector` — ranges in chunks, with what each chunk knows of its own

`_impl::ChunkedRangeVector` keeps its ranges in chunks of at most `max_size`.  A chunk
knows where its first range begins, where its last one ends and how many indices its
ranges have; everything that edits a range keeps this up to date.

An iterator is the place of a chunk and of a range in it; `end` is past the last chunk.
To dereference what is not there is a fault, and so is an assertion that fails: all of
them are checked here, as in a debug build, whose chunks are smaller.
-/
import CrashRealm.Lib.RangeList
import CrashRealm.RxFoundation.Fault

namespace Realm

open Rx (Fault)
open RangeList (Range)

/-- The builds of the library. -/
inductive Build where
  | debug
  | release
  deriving DecidableEq, Repr

/-- `max_size`; a range takes 16 bytes. -/
def Build.maxSize : Build → Nat
  | debug => 4
  | release => 4096 / 16

/-- `REALM_ASSERT` -/
def realmAssert (p : Prop) [Decidable p] (text : String) : Except Fault Unit :=
  if p then .ok () else .error (.assertion text)

/-- `ChunkedRangeVector::Chunk`, with `stop` for its `end`. -/
structure Chunk where
  data : List Range
  begin : Nat
  stop : Nat
  count : Nat
  deriving DecidableEq, Repr

/-- A `size_t` and a `ptrdiff_t`. -/
def plus (n : Nat) (d : Int) : Nat := ((n : Int) + d).toNat

namespace Chunk

/-- A range of the chunk is replaced, and the ends of the chunk follow it. -/
def replace (chunk : Chunk) (offset : Nat) (range : Range) (begin stop count : Nat) : Chunk where
  data := chunk.data.set offset range
  begin := if offset = 0 then begin else chunk.begin
  stop := if offset + 1 = chunk.data.length then stop else chunk.stop
  count := count

/-- A chunk of one range. -/
def single (value : Range) : Chunk :=
  ⟨[value], value.first, value.second, value.second - value.first⟩

/-- The half of a full chunk that is kept, and the half that is moved to a new one. -/
def split (b : Build) (chunk : Chunk) : Chunk × Chunk :=
  let toMove := b.maxSize / 2
  let moved := chunk.data.drop (chunk.data.length - toMove)
  let kept := chunk.data.take (chunk.data.length - toMove)
  let movedCount := (moved.map RangeList.width).sum
  ({ chunk with
      data := kept
      stop := (kept.getLast?.map Range.second).getD 0
      count := chunk.count - movedCount },
    { data := moved
      begin := (moved.head?.map Range.first).getD 0
      stop := (moved.getLast?.map Range.second).getD 0
      count := movedCount })

end Chunk

/-- `m_data` -/
abbrev ChunkedRangeVector := List Chunk

/-- `m_outer`, and the place of `m_inner` in its chunk. -/
structure Iterator where
  outer : Nat
  offset : Nat
  deriving DecidableEq, Repr

namespace ChunkedRangeVector

/-- All ranges, in order. -/
def ranges (v : ChunkedRangeVector) : List Range := v.flatMap Chunk.data

def cbegin : Iterator := ⟨0, 0⟩

def cend (v : ChunkedRangeVector) : Iterator := ⟨v.length, 0⟩

/-- `*it.outer()` -/
def outer (v : ChunkedRangeVector) (it : Iterator) : Except Fault Chunk :=
  match v[it.outer]? with
  | some chunk => .ok chunk
  | none => .error .dangling

/-- `*it` -/
def deref (v : ChunkedRangeVector) (it : Iterator) : Except Fault Range := do
  let chunk ← v.outer it
  match chunk.data[it.offset]? with
  | some range => .ok range
  | none => .error .outOfBounds

/-- `next_chunk` -/
def nextChunk (it : Iterator) : Iterator := ⟨it.outer + 1, 0⟩

/-- `++it` -/
def next (v : ChunkedRangeVector) (it : Iterator) : Except Fault Iterator := do
  let chunk ← v.outer it
  .ok (if it.offset + 1 = chunk.data.length then nextChunk it else ⟨it.outer, it.offset + 1⟩)

/-- `--it` -/
def prev (v : ChunkedRangeVector) (it : Iterator) : Except Fault Iterator :=
  match it.offset, it.outer with
  | offset + 1, outer => .ok ⟨outer, offset⟩
  | 0, 0 => .error .outOfBounds
  | 0, outer + 1 => do
      let chunk ← v.outer ⟨outer, 0⟩
      .ok ⟨outer, chunk.data.length - 1⟩

/-! ## What a mutable iterator does -/

end ChunkedRangeVector

namespace Iterator

/-- `set(front, back)` -/
def set (it : Iterator) (v : ChunkedRangeVector) (front back : Nat) :
    Except Fault ChunkedRangeVector := do
  let chunk ← v.outer it
  let range ← v.deref it
  .ok (List.set v it.outer (chunk.replace it.offset ⟨front, back⟩ front back
    (chunk.count - (range.second - range.first) + (back - front))))

/-- `adjust(front, back)` -/
def adjust (it : Iterator) (v : ChunkedRangeVector) (front back : Int) :
    Except Fault ChunkedRangeVector := do
  let chunk ← v.outer it
  let range ← v.deref it
  .ok (List.set v it.outer (chunk.replace it.offset ⟨plus range.first front, plus range.second back⟩
    (plus chunk.begin front) (plus chunk.stop back) (plus chunk.count (-front + back))))

/-- `shift(distance)` -/
def shift (it : Iterator) (v : ChunkedRangeVector) (distance : Int) :
    Except Fault ChunkedRangeVector := do
  let chunk ← v.outer it
  let range ← v.deref it
  .ok (List.set v it.outer
    (chunk.replace it.offset ⟨plus range.first distance, plus range.second distance⟩
      (plus chunk.begin distance) (plus chunk.stop distance) chunk.count))

end Iterator

namespace ChunkedRangeVector

/-! ## `verify` -/

/-- The loop over all ranges; `prevEnd` is `none` for `size_t(-1)`. -/
def verifyRanges : Option Nat → List Range → Except Fault Unit
  | _, [] => .ok ()
  | prevEnd, range :: ranges => do
      realmAssert (range.first < range.second) "range.first < range.second"
      realmAssert (∀ e ∈ prevEnd, e < range.first) "prev_end == size_t(-1) || range.first > prev_end"
      verifyRanges (some range.second) ranges

/-- The loop over the chunks. -/
def verifyChunk (chunk : Chunk) : Except Fault Unit := do
  realmAssert (chunk.data ≠ []) "!chunk.data.empty()"
  realmAssert (∀ range ∈ chunk.data.head?, range.first = chunk.begin)
    "chunk.data.front().first == chunk.begin"
  realmAssert (∀ range ∈ chunk.data.getLast?, range.second = chunk.stop)
    "chunk.data.back().second == chunk.end"
  realmAssert (chunk.count ≤ chunk.stop - chunk.begin) "chunk.count <= chunk.end - chunk.begin"
  realmAssert ((chunk.data.map RangeList.width).sum = chunk.count) "count == chunk.count"

def verify (v : ChunkedRangeVector) : Except Fault Unit := do
  verifyRanges none v.ranges
  v.forM verifyChunk

/-! ## Adding and removing ranges -/

/-- `push_back` -/
def pushBack (b : Build) (v : ChunkedRangeVector) (value : Range) :
    Except Fault ChunkedRangeVector := do
  let v' ← match v.getLast? with
    | none => .ok (v ++ [.single value])
    | some chunk =>
        if chunk.data.length < b.maxSize then do
          realmAssert (chunk.stop ≤ value.first) "range.end <= value.first"
          .ok (v.dropLast ++ [{ chunk with
            data := chunk.data ++ [value]
            count := chunk.count + (value.second - value.first)
            stop := value.second }])
        else .ok (v ++ [.single value])
  v'.verify
  .ok v'

/-- `ensure_space`: a full chunk is split in half. -/
def ensureSpace (b : Build) (v : ChunkedRangeVector) (it : Iterator) :
    Except Fault (ChunkedRangeVector × Iterator) := do
  let chunk ← v.outer it
  if chunk.data.length + 1 ≤ b.maxSize then .ok (v, it)
  else
    let toMove := b.maxSize / 2
    let (kept, moved) := chunk.split b
    let v' := v.take it.outer ++ kept :: moved :: v.drop (it.outer + 1)
    let it' : Iterator := if toMove ≤ it.offset then ⟨it.outer + 1, it.offset - toMove⟩ else it
    verify v'
    .ok (v', it')

/-- `insert` -/
def insert (b : Build) (v : ChunkedRangeVector) (it : Iterator) (value : Range) :
    Except Fault (ChunkedRangeVector × Iterator) := do
  if it.outer = v.length then
    let v' ← v.pushBack b value
    let it' ← v'.prev v'.cend
    .ok (v', it')
  else
    let (v, it) ← v.ensureSpace b it
    let chunk ← v.outer it
    let v' := List.set v it.outer {
      data := chunk.data.insertIdx it.offset value
      count := chunk.count + (value.second - value.first)
      begin := min chunk.begin value.first
      stop := max chunk.stop value.second }
    verify v'
    .ok (v', it)

/-- `erase` -/
def erase (v : ChunkedRangeVector) (it : Iterator) :
    Except Fault (ChunkedRangeVector × Iterator) := do
  let chunk ← v.outer it
  let range ← v.deref it
  let data := chunk.data.eraseIdx it.offset
  match data.head?, data.getLast? with
  | some front, some back =>
      let v' := List.set v it.outer
        ⟨data, front.first, back.second, chunk.count - (range.second - range.first)⟩
      let it' := if it.offset < data.length then it else nextChunk it
      verify v'
      .ok (v', it')
  | _, _ =>
      let v' := v.eraseIdx it.outer
      verify v'
      .ok (v', ⟨it.outer, 0⟩)

end ChunkedRangeVector

end Realm
