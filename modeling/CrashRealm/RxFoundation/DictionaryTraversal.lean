/-
# `RxFoundation.DictionaryTraversal` — iterating from `begin()` and from `find`

`operator++` moves the position by one and skips the buckets that are not live, as far
as the end stored in the iterator.  Keys that are not pointers iterate upwards, with the
end of the array stored.  Pointer keys iterate downwards: there `begin()` stores the
start of the array, and visits every entry once as well.

`find` and `insert` store the end of the array whichever the direction.  Iterating
upwards that is right.  Downwards, the first `operator++` fails the assertion
`_begin >= _end` of `retreatPastEmptyBuckets`.
-/
import CrashRealm.RxFoundation.DictionaryReserve

namespace Rx

open OpenAddressing BasicHashTable

variable {K V : Type} {T : TableType K V}

namespace Placed

/-! ## Moving an iterator -/

/-- The loop of `advancePastEmptyBuckets`, for at most `rounds` rounds. -/
def advanceLoop (T : TableType K V) (buckets : List (Bucket K V)) (stop : Nat) :
    (rounds position : Nat) → Except Fault Nat
  | 0, _ => .error .spinning
  | rounds + 1, position =>
      if position = stop then .ok position
      else
        match buckets[position]? with
        | none => .error .outOfBounds
        | some b =>
            if isLiveKey T b.key then .ok position
            else advanceLoop T buckets stop rounds (position + 1)

/-- The loop of `retreatPastEmptyBuckets`, for at most `rounds` rounds. -/
def retreatLoop (T : TableType K V) (buckets : List (Bucket K V)) (stop : Nat) :
    (rounds position : Nat) → Except Fault Nat
  | 0, _ => .error .spinning
  | rounds + 1, position =>
      if position = stop then .ok position
      else
        match position with
        | 0 => .error .outOfBounds
        | below + 1 =>
            match buckets[below]? with
            | none => .error .outOfBounds
            | some b =>
                if isLiveKey T b.key then .ok (below + 1)
                else retreatLoop T buckets stop rounds below

variable (reverse : Bool) (T : TableType K V)

/-- What every access through an iterator checks: its epoch, and that its array is there. -/
def checkHandle (p : Placed K V) (it : Iterator) : Except Fault Unit :=
  if p.table.epoch = it.epochAtCreation then
    if p.array = it.array then .ok () else .error .dangling
  else .error (.assertion "invalid iterator access!")

/-- `operator*`: the bucket, and where it is. -/
def entryAt (p : Placed K V) (it : Iterator) : Except Fault (Nat × Bucket K V) := do
  checkHandle p it
  if reverse then
    match it.position with
    | 0 => .error .outOfBounds
    | below + 1 => bucketAt p.table (some below)
  else bucketAt p.table (some it.position)

/-- `operator++`. -/
def increment (p : Placed K V) (it : Iterator) : Except Fault Iterator := do
  checkHandle p it
  if reverse then
    match it.position with
    | 0 => .error .outOfBounds
    | below + 1 =>
        if it.stop ≤ below then
          let position ← retreatLoop T p.table.buckets it.stop (p.getNumBuckets + 1) below
          .ok { it with position }
        else .error (.assertion "_begin >= _end")
  else if it.position < p.getNumBuckets then
    let position ← advanceLoop T p.table.buckets it.stop (p.getNumBuckets + 1) (it.position + 1)
    .ok { it with position }
  else .error .outOfBounds

/-- Incrementing until `end()`, for at most `rounds` rounds: the entries on the way. -/
def visit (i : Nat) (p : Placed K V) : Nat → Iterator → Except Fault (List (Nat × Bucket K V))
  | 0, _ => .error .spinning
  | rounds + 1, it =>
      if it.position = (p.endIterator reverse i).position then .ok []
      else do
        let entry ← entryAt reverse p it
        let it ← increment reverse T p it
        let rest ← visit i p rounds it
        .ok (entry :: rest)

/-- `for (; it != end(); ++it)`. -/
def iterate (i : Nat) (p : Placed K V) (it : Iterator) : Except Fault (List (Nat × Bucket K V)) :=
  visit reverse T i p (p.getNumBuckets + 1) it

/-- The iterator is at the entry of `key`, and goes on to the entries that follow it from
`begin()` on. -/
def Follows (i : Nat) (p : Placed K V) (it : Iterator) (key : K) : Prop :=
  ∃ before entry after, T.isEqual key entry.2.key = true ∧
    iterate reverse T i p (p.beginIterator reverse T i) = .ok (before ++ entry :: after) ∧
    iterate reverse T i p it = .ok (entry :: after)

/-! ## The live buckets in order -/

variable {reverse T}

section LiveFrom

variable {b : Bucket K V} {bs : List (Bucket K V)}

end LiveFrom

/-! ## Upwards -/

section Forward

variable {buckets : List (Bucket K V)}

variable {p : Placed K V} {i : Nat}

/-- The handle was made at the epoch and for the array there are. -/
def InSync (p : Placed K V) (it : Iterator) : Prop :=
  p.table.epoch = it.epochAtCreation ∧ p.array = it.array

theorem InSync.check {it : Iterator} (h : InSync p it) : checkHandle p it = .ok () := by
  rw [checkHandle, if_pos h.1, if_pos h.2]

end Forward

/-! ## Downwards -/

section Backward

variable {buckets : List (Bucket K V)} {p : Placed K V} {i : Nat}

end Backward

/-! ## `begin()` -/

section Begin

variable {buckets : List (Bucket K V)} {p : Placed K V} {i : Nat}

end Begin

/-! ## `find` and `insert` -/

section Handles

variable {p : Placed K V} {i position : Nat} {b : Bucket K V} {key : K}

end Handles

/-! ## Inserting into a placed dictionary

The table it ends with, and the position it answers, are those of `Dictionary`. -/

section Insert

variable {p : Placed K V} {key : K}

end Insert

/-! ## Every dictionary a program can own -/

section Reached

variable {env : List (Dictionary K V)} {p : Placed K V}

end Reached

end Placed

end Rx
