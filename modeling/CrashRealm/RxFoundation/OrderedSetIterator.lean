/-
# `RxFoundation.OrderedSetIterator` — walking an ordered set

An iterator is a `size_t` index, `EndIndex` being all ones.  Only the mutating
`++` and `--` are modelled: the `const` ones step a member of a `const` object,
which no instance of the template can compile.

`++` walks from `begin()` through every position to `end()`, whatever the size
(`advance_begin`).  `--` at `end()` compares where it means to assign, so a
nonempty set has no way back from `end()` (`retreat_end`), and a step forward
from the last position cannot be undone (`undo_iff`).
-/
import CrashRealm.RxFoundation.OrderedSetSpec

namespace Rx

namespace OrderedSet

variable {T : Type} [LinearOrder T]

/-! ## The two steps -/

/-- `BeginIndex`. -/
def beginIndex : Nat := 0

/-- `begin()`. -/
def beginIterator (s : OrderedSet T) : Except Fault Nat := do
  let size ← s.size
  .ok (if size != 0 then beginIndex else endIndex)

/-- `operator++()`. -/
def increment (s : OrderedSet T) (index : Nat) : Except Fault Nat :=
  if index = endIndex then .ok index
  else do
    let size ← s.size
    if (index + 1) % 2 ^ 64 = size then .ok endIndex
    else .ok ((index + 1) % 2 ^ 64)

/-- `operator--()`.  At `end()` of a nonempty set the source has
`_index == _orderedSet.size() - 1;`, which moves nothing. -/
def decrement (s : OrderedSet T) (index : Nat) : Except Fault Nat :=
  if index = beginIndex then .ok index
  else if index = endIndex then do
    let size ← s.size
    if size != 0 then .ok index
    else .ok (index - 1)
  else .ok (index - 1)

/-- `n` times `++`. -/
def advance (s : OrderedSet T) : Nat → Nat → Except Fault Nat
  | 0, index => .ok index
  | n + 1, index => do
      let index ← advance s n index
      s.increment index

/-- `n` times `--`. -/
def retreat (s : OrderedSet T) : Nat → Nat → Except Fault Nat
  | 0, index => .ok index
  | n + 1, index => do
      let index ← retreat s n index
      s.decrement index

/-! ## What each step does -/

variable {s : OrderedSet T} {index : Nat}

theorem beginIterator_eq (h : Consistent s) :
    s.beginIterator = .ok (if s.array.length = 0 then endIndex else 0) := by
  rw [beginIterator, h.size_eq, ok_bind]
  by_cases hzero : s.array.length = 0
  · simp [hzero]
  · simp [hzero, beginIndex]

/-- Where the iterator at position `n` stands, `end()` being past the last one. -/
def iteratorAt (s : OrderedSet T) (n : Nat) : Nat :=
  if n < s.array.length then n else endIndex

/-- From a position, `++` goes to the next. -/
theorem increment_at (h : Consistent s) (hlen : s.array.length ≤ endIndex)
    (hlt : index < s.array.length) : s.increment index = .ok (iteratorAt s (index + 1)) := by
  have hne : index ≠ endIndex := by omega
  have hmod : (index + 1) % 2 ^ 64 = index + 1 := Nat.mod_eq_of_lt (by rw [endIndex] at hlen; omega)
  rw [increment, if_neg hne, h.size_eq, ok_bind, hmod, iteratorAt]
  split
  next heq => rw [if_neg (by omega)]
  next hne => rw [if_pos (by omega)]

/-- Strictly inside, `--` goes to the one before. -/
theorem decrement_inside (s : OrderedSet T) (hne : index ≠ endIndex) :
    s.decrement index = .ok (index - 1) := by
  rw [decrement, if_neg hne]
  split
  next hzero => rw [hzero]; rfl
  next => rfl

/-- At `end()` of a nonempty set, `--` stays. -/
theorem decrement_end (h : Consistent s) (hne : s.array ≠ []) :
    s.decrement endIndex = .ok endIndex := by
  have hsize : (s.array.length != 0) = true :=
    bne_iff_ne.mpr fun hzero => hne (List.length_eq_zero_iff.mp hzero)
  rw [decrement, if_neg (by decide), if_pos rfl, h.size_eq, ok_bind, if_pos hsize]

/-! ## Runs of steps -/

/-- `n` steps forward from `begin()` lead to position `n`, and the last of them to
`end()`. -/
theorem advance_begin (h : Consistent s) (hlen : s.array.length ≤ endIndex) :
    ∀ n, n ≤ s.array.length → (do s.advance n (← s.beginIterator)) = .ok (iteratorAt s n) := by
  intro n
  rw [beginIterator_eq h, ok_bind]
  induction n with
  | zero =>
      intro _
      rw [advance, iteratorAt]
      split
      next hzero => rw [if_neg (by omega)]
      next hpos => rw [if_pos (Nat.pos_of_ne_zero hpos)]
  | succ n ih =>
      intro hn
      rw [advance, ih (Nat.le_of_succ_le hn), ok_bind, iteratorAt,
        if_pos (show n < s.array.length from hn)]
      exact increment_at h hlen hn

/-- No number of steps back leaves `end()`. -/
theorem retreat_end (h : Consistent s) (hne : s.array ≠ []) :
    ∀ n, s.retreat n endIndex = .ok endIndex := by
  intro n
  induction n with
  | zero => rfl
  | succ n ih => rw [retreat, ih, ok_bind, decrement_end h hne]

/-- Strictly between the ends, the two steps undo each other except at the last
position, from which the step forward is not undone. -/
theorem undo_iff (h : Consistent s) (hlen : s.array.length ≤ endIndex) (hpos : 0 < index)
    (hlt : index < s.array.length) :
    ((do s.increment (← s.decrement index)) = .ok index) ∧
    ((do s.decrement (← s.increment index)) = .ok index ↔ index + 1 ≠ s.array.length) := by
  constructor
  · rw [decrement_inside s (by omega), ok_bind, increment_at h hlen (by omega),
      Nat.sub_add_cancel hpos, iteratorAt, if_pos hlt]
  · rw [increment_at h hlen hlt, ok_bind, iteratorAt]
    split
    next hnext =>
      rw [decrement_inside s (by omega), Nat.add_sub_cancel]
      exact iff_of_true rfl hnext.ne
    next hlast =>
      rw [decrement_end h (List.ne_nil_of_length_pos (by omega)), Except.ok.injEq]
      exact iff_of_false (by omega) (by omega)

/-! ## What a bidirectional iterator promises -/

/-- Forward from `begin()` through `0 … n-1` to `end()`, back from `end()` through
`n-1 … 0`, and in between each step undoes the other. -/
structure Bidirectional (s : OrderedSet T) : Prop where
  forward : ∀ n, n ≤ s.array.length →
    (do s.advance n (← s.beginIterator)) = .ok (iteratorAt s n)
  backward : ∀ n, n < s.array.length → s.retreat (n + 1) endIndex = .ok (s.array.length - 1 - n)
  undo : ∀ index, 0 < index → index < s.array.length →
    (do s.increment (← s.decrement index)) = .ok index ∧
    (do s.decrement (← s.increment index)) = .ok index

/-- The iterators are bidirectional exactly on the empty set. -/
theorem bidirectional_iff (s : OrderedSet T) (h : Consistent s) :
    Bidirectional s ↔ s.array = [] := by
  constructor
  · intro hb
    by_contra hne
    have hlt : 0 < s.array.length := List.length_pos_iff.mpr hne
    have hlast := hb.backward 0 hlt
    rw [retreat_end h hne, Except.ok.injEq] at hlast
    -- one step back would have to reach the last position, two the one before
    rcases Nat.lt_or_ge 1 s.array.length with htwo | hone
    · have hbefore := hb.backward 1 htwo
      rw [retreat_end h hne, Except.ok.injEq] at hbefore
      omega
    · rw [endIndex] at hlast
      omega
  · intro hnil
    have hzero : s.array.length = 0 := List.length_eq_zero_iff.mpr hnil
    refine ⟨advance_begin h (by omega), fun n hn => ?_, fun index _ hlt => ?_⟩
    · exact absurd hn (by omega)
    · exact absurd hlt (by omega)

theorem bidirectional_iff_empty :
    Consistent (empty : OrderedSet Nat) ∧
      (Bidirectional (empty : OrderedSet Nat) ↔ (empty : OrderedSet Nat).array = []) :=
  ⟨consistent_empty, bidirectional_iff empty consistent_empty⟩

/-- With a single element, `end()` cannot be left. -/
theorem singleton_not_bidirectional :
    ∃ s : OrderedSet Nat, s = ⟨[1], ⟨[1], by decide⟩⟩ ∧ Consistent s ∧
      s.decrement endIndex = .ok endIndex ∧ ¬ Bidirectional s := by
  have h : Consistent (⟨[1], ⟨[1], by decide⟩⟩ : OrderedSet Nat) := ⟨by decide, fun _ => Iff.rfl⟩
  refine ⟨_, rfl, h, rfl, fun hb => ?_⟩
  have hback := hb.backward 0 (by decide)
  rw [retreat_end h (by decide), Except.ok.injEq] at hback
  exact absurd hback (by decide)

end OrderedSet

end Rx
