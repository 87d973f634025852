/-
# `RxFoundation.CollectionContainer` — the vector-backed and the set-backed containers

`CollectionContainer` (`Array`) wraps a `std::vector`, here a list;
`CollectionContainer3<std::set>` (`Set`) wraps a `std::set`, here a strictly
increasing list, which is the order its iterators visit.  An iterator is a
position, and `end()` is the length.

`erase(element)` is one expression in both, and is not one operation: the
vector's erases the *range* from the first occurrence to the end, the set's the
element an iterator points at, which `end()` does not.
-/
import CrashRealm.Lib.SortedList
import CrashRealm.RxFoundation.Fault
import Mathlib.Order.Nat
import Mathlib.Algebra.Group.Nat.Defs

namespace Rx

variable {T : Type}

/-! ## `CollectionContainer` over `std::vector` -/

namespace CollectionContainer

def addObject (storage : List T) (element : T) : List T := storage ++ [element]

/-- `addObjects` at `end()`. -/
def addObjects (storage segment : List T) : List T := storage ++ segment

/-- `erase(it)`. -/
def eraseAt (storage : List T) (it : Nat) : Except Fault (List T) :=
  if it < storage.length then .ok (storage.eraseIdx it) else .error .outOfBounds

/-- `erase(first, last)`. -/
def eraseRange (storage : List T) (first last : Nat) : Except Fault (List T) :=
  if first ≤ last ∧ last ≤ storage.length then .ok (storage.take first ++ storage.drop last)
  else .error .outOfBounds

/-- The elements of `[first, last)`. -/
def slice (storage : List T) (first last : Nat) : Except Fault (List T) :=
  if first ≤ last ∧ last ≤ storage.length then .ok ((storage.take last).drop first)
  else .error .outOfBounds

def back (storage : List T) : Except Fault T :=
  match storage.getLast? with
  | some element => .ok element
  | none => .error .outOfBounds

def popBack (storage : List T) : Except Fault (List T) :=
  if storage.isEmpty then .error .outOfBounds else .ok storage.dropLast

/-- `find(element)`. -/
def find [DecidableEq T] (storage : List T) (element : T) : Nat := storage.idxOf element

/-- `find(predicate)`. -/
def findIf (storage : List T) (predicate : T → Bool) : Nat := storage.findIdx predicate

def contains [DecidableEq T] (storage : List T) (element : T) : Bool :=
  find storage element != storage.length

/-- `erase(element)`: from the first occurrence to the end.  The iterator it
compares with `end()` is the position erased from. -/
def eraseElement [DecidableEq T] (storage : List T) (element : T) :
    Except Fault (List T × Bool) := do
  let first := find storage element
  let storage ← eraseRange storage first storage.length
  .ok (storage, first != storage.length)

/-- Everything from the first occurrence on goes, and the result is `false`. -/
theorem eraseElement_eq [DecidableEq T] (storage : List T) (element : T) :
    eraseElement storage element = .ok (storage.take (find storage element), false) := by
  have hle : find storage element ≤ storage.length := List.idxOf_le_length
  rw [eraseElement, eraseRange, if_pos ⟨hle, Nat.le_refl _⟩, ok_bind, List.drop_length,
    List.append_nil, List.length_take, Nat.min_eq_left hle, bne_self_eq_false]

/-- What `erase(element)` is for: the first occurrence goes, everything else
stays, and the result says whether there was one. -/
def ErasesOne [DecidableEq T] (storage : List T) (element : T) : Prop :=
  eraseElement storage element = .ok (storage.erase element, decide (element ∈ storage))

theorem erasesOne_iff [DecidableEq T] (storage : List T) (element : T) :
    ErasesOne storage element ↔ element ∉ storage := by
  rw [ErasesOne, eraseElement_eq]
  constructor
  · intro h hmem
    have hresult := (Prod.mk.inj (Except.ok.inj h)).2
    rw [decide_eq_true hmem] at hresult
    cases hresult
  · intro hno
    rw [find, List.idxOf_eq_length hno, List.take_length, List.erase_of_not_mem hno,
      decide_eq_false hno]

end CollectionContainer

/-! ## `CollectionContainer3` over `std::set` -/

/-- `CollectionContainer3<std::set, T, std::less>`. -/
structure CollectionContainer3 (T : Type) [LinearOrder T] where
  storage : List T
  sorted : storage.Pairwise (· < ·)
  deriving DecidableEq

namespace CollectionContainer3

variable [LinearOrder T]

def empty : CollectionContainer3 T := ⟨[], SortedList.pairwise_nil T⟩

instance : Inhabited (CollectionContainer3 T) := ⟨empty⟩

def size (s : CollectionContainer3 T) : Nat := s.storage.length

def addObject (s : CollectionContainer3 T) (element : T) : CollectionContainer3 T :=
  ⟨SortedList.insert element s.storage, SortedList.pairwise_insert s.sorted⟩

def find (s : CollectionContainer3 T) (element : T) : Nat := s.storage.idxOf element

def findIf (s : CollectionContainer3 T) (predicate : T → Bool) : Nat :=
  s.storage.findIdx predicate

def contains (s : CollectionContainer3 T) (element : T) : Bool := s.find element != s.size

/-- `erase(it)`; the standard leaves erasing `end()` undefined. -/
def eraseAt (s : CollectionContainer3 T) (it : Nat) : Except Fault (CollectionContainer3 T) :=
  if it < s.size then
    .ok ⟨s.storage.eraseIdx it, s.sorted.sublist (List.eraseIdx_sublist s.storage it)⟩
  else .error .dangling

/-- `erase(element)`. -/
def eraseElement (s : CollectionContainer3 T) (element : T) :
    Except Fault (CollectionContainer3 T × Bool) := do
  let it := s.find element
  let s ← s.eraseAt it
  .ok (s, it != s.size)

/-! ### What they do -/

theorem contains_iff {s : CollectionContainer3 T} {a : T} :
    s.contains a = true ↔ a ∈ s.storage := by
  rw [contains, bne_iff_ne, find, size, Ne, List.idxOf_eq_length_iff, not_not]

theorem mem_addObject {s : CollectionContainer3 T} {a b : T} :
    b ∈ (s.addObject a).storage ↔ b = a ∨ b ∈ s.storage := SortedList.mem_insert

theorem nodup (s : CollectionContainer3 T) : s.storage.Nodup := SortedList.nodup s.sorted

/-- Erasing what is not there is undefined. -/
theorem eraseElement_of_not_mem {s : CollectionContainer3 T} {a : T} (h : a ∉ s.storage) :
    s.eraseElement a = .error .dangling := by
  have hge : ¬ s.find a < s.size := fun hlt => h (List.idxOf_lt_length_iff.mp hlt)
  rw [eraseElement, eraseAt, if_neg hge, error_bind]

/-- What `erase(element)` is for: the element goes, every other stays, and the
result says whether it was there. -/
def ErasesOne (s : CollectionContainer3 T) (element : T) : Prop :=
  ∃ s', s.eraseElement element = .ok (s', decide (element ∈ s.storage)) ∧
    s'.storage = s.storage.erase element

/-- The result is whether anything follows the element. -/
theorem eraseElement_eq {s : CollectionContainer3 T} {a : T} (h : a ∈ s.storage) :
    ∃ s', s.eraseElement a = .ok (s', decide (s.storage.getLast? ≠ some a)) ∧
      s'.storage = s.storage.erase a := by
  have hlt : s.find a < s.size := List.idxOf_lt_length_iff.mpr h
  refine ⟨⟨s.storage.eraseIdx (s.find a), s.sorted.sublist (List.eraseIdx_sublist _ _)⟩, ?_,
    List.eraseIdx_idxOf_eq_erase _ _⟩
  rw [eraseElement, eraseAt, if_pos hlt, ok_bind]
  have hsize : (s.storage.eraseIdx (s.find a)).length = s.size - 1 := by
    rw [List.length_eraseIdx, if_pos (show s.find a < s.storage.length from hlt)]
    rfl
  have hget : s.storage[s.find a]? = some a := by
    rw [List.getElem?_eq_getElem (show s.find a < s.storage.length from hlt)]
    exact congrArg some (List.getElem_idxOf hlt)
  -- the position erased from is the new end exactly when it was the last one
  have hlast : s.find a ≠ s.size - 1 ↔ s.storage.getLast? ≠ some a := by
    refine not_congr ⟨fun heq => ?_, fun hend => ?_⟩
    · rw [List.getLast?_eq_getElem?, ← hget, heq]
      rfl
    · rw [List.getLast?_eq_getElem?, ← hget] at hend
      exact ((List.getElem?_inj hlt s.nodup).mp hend.symm)
  refine congrArg (fun b => Except.ok (_, b)) ?_
  rw [size, hsize, Bool.eq_iff_iff, bne_iff_ne, decide_eq_true_iff]
  exact hlast

theorem eraseElement_of_mem {s : CollectionContainer3 T} {a : T} (h : a ∈ s.storage) :
    ∃ s' b, s.eraseElement a = .ok (s', b) ∧ s'.size + 1 = s.size ∧
      ∀ x, x ∈ s'.storage ↔ x ≠ a ∧ x ∈ s.storage := by
  obtain ⟨s', hrun, hstorage⟩ := eraseElement_eq h
  refine ⟨s', _, hrun, ?_, fun x => ?_⟩
  · rw [size, size, hstorage]
    exact List.length_erase_add_one h
  · rw [hstorage]
    exact s.nodup.mem_erase_iff

theorem erasesOne_iff (s : CollectionContainer3 T) (element : T) :
    s.ErasesOne element ↔ element ∈ s.storage ∧ s.storage.getLast? ≠ some element := by
  constructor
  · rintro ⟨s', hrun, -⟩
    by_cases hmem : element ∈ s.storage
    · obtain ⟨s'', hrun', -⟩ := eraseElement_eq hmem
      have hresult := (Prod.mk.inj (Except.ok.inj (hrun'.symm.trans hrun))).2
      rw [decide_eq_true hmem] at hresult
      exact ⟨hmem, of_decide_eq_true hresult⟩
    · rw [eraseElement_of_not_mem hmem] at hrun
      cases hrun
  · rintro ⟨hmem, hlast⟩
    obtain ⟨s', hrun, hs'⟩ := eraseElement_eq hmem
    rw [decide_eq_true hlast] at hrun
    exact ⟨s', by rw [decide_eq_true hmem]; exact hrun, hs'⟩

end CollectionContainer3

/-- `erase(element)` does what it is for on an array exactly when the element is
not there, and on a set exactly when it is there and not the largest. -/
theorem erase_element_iff {K : Type} [DecidableEq T] [LinearOrder K] (storage : List T)
    (element : T) (s : CollectionContainer3 K) (key : K) :
    (CollectionContainer.ErasesOne storage element ↔ element ∉ storage) ∧
    (s.ErasesOne key ↔ key ∈ s.storage ∧ s.storage.getLast? ≠ some key) :=
  ⟨CollectionContainer.erasesOne_iff storage element, s.erasesOne_iff key⟩

/-- Erasing the first of two empties the array and reports that nothing was
there; erasing the largest of a set reports the same; erasing what a set lacks is
undefined. -/
theorem erase_element_loses_rest :
    ¬ (∀ (storage : List Nat) (element : Nat) (s : CollectionContainer3 Nat) (key : Nat),
      CollectionContainer.ErasesOne storage element ∧ s.ErasesOne key) ∧
    CollectionContainer.eraseElement [1, 2] 1 = .ok ([], false) ∧
    (∃ s, CollectionContainer3.eraseElement ⟨[1, 2], by decide⟩ 2 = .ok (s, false)) ∧
    CollectionContainer3.eraseElement ⟨[1, 2], by decide⟩ 3 = .error .dangling := by
  refine ⟨fun h => ?_, rfl, ⟨⟨[1], by decide⟩, rfl⟩, rfl⟩
  cases (h [1, 2] 1 .empty 0).1

end Rx
