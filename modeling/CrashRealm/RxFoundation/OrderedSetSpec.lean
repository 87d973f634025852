/-
# `RxFoundation.OrderedSetSpec` — when the array and the set stay in step

`Consistent` is what everything else about an `OrderedSet` rests on: the array
has no duplicate and the same elements as the set.  Copying, assigning, the
initializer-list constructor and `pop_back` keep it.  The other four mutators do
so in exactly the cases listed here, one lemma each way:

* `addObject(v)`: when `v` is not there yet;
* `erase(v)`: when `v` is the last element of the array;
* `erase(it)`: when `it` cannot be dereferenced, or stands at the last element
  and the vacated slot still reads as that element;
* `addObjects(start, end)`: when it returns early, or when the segment it copies
  lies inside the source and shares nothing with the target.

A run all of whose steps are of this kind goes from consistent states to
consistent states, and every other run leaves them or stops
(`clean_iff_meets`).
-/
import CrashRealm.RxFoundation.OrderedSet
import Mathlib.Order.Nat

namespace Rx

open CollectionContainer

namespace OrderedSet

variable {T : Type} [LinearOrder T]

/-- The array has no duplicate and the elements of the set. -/
structure Consistent (s : OrderedSet T) : Prop where
  nodup : s.array.Nodup
  mem_iff : ∀ x, x ∈ s.array ↔ x ∈ s.set.storage

namespace Consistent

variable {s t : OrderedSet T}

theorem perm (h : Consistent s) : s.array.Perm s.set.storage :=
  (List.perm_ext_iff_of_nodup h.nodup s.set.nodup).mpr h.mem_iff

theorem size_eq (h : Consistent s) : s.size = .ok s.array.length := if_pos h.perm.length_eq

theorem contains_iff (h : Consistent s) (x : T) : s.contains x = true ↔ x ∈ s.array := by
  rw [OrderedSet.contains, CollectionContainer3.contains_iff, h.mem_iff]

/-- What the set finds is in the array. -/
theorem positionOf_ok (h : Consistent s) (it : Nat) : ∃ index, s.positionOf it = .ok index := by
  rw [positionOf]
  cases hget : s.set.storage[it]? with
  | none => exact ⟨endIndex, rfl⟩
  | some x =>
      have hmem : x ∈ s.array := (h.mem_iff x).mpr (List.mem_of_getElem? hget)
      have hne : (CollectionContainer.find s.array x != s.array.length) = true :=
        bne_iff_ne.mpr (Nat.ne_of_lt (List.idxOf_lt_length_iff.mpr hmem))
      exact ⟨_, if_pos hne⟩

/-- A predicate no element satisfies. -/
theorem findIf_none (h : Consistent s) {predicate : T → Bool}
    (hno : ∀ x ∈ s.array, predicate x = false) : s.findIf predicate = .ok endIndex := by
  have hidx : s.set.storage.findIdx predicate = s.set.storage.length :=
    List.findIdx_eq_length.mpr fun x hx => hno x ((h.mem_iff x).mpr hx)
  rw [OrderedSet.findIf, CollectionContainer3.findIf, positionOf, hidx,
    List.getElem?_eq_none (Nat.le_refl _)]

/-- A predicate that `x` alone satisfies. -/
theorem findIf_unique (h : Consistent s) {predicate : T → Bool} {x : T} (hx : x ∈ s.array)
    (hyes : predicate x = true) (huniq : ∀ y ∈ s.array, predicate y = true → y = x) :
    s.findIf predicate = .ok (CollectionContainer.find s.array x) := by
  have hlt : s.set.storage.findIdx predicate < s.set.storage.length :=
    List.findIdx_lt_length_of_exists ⟨x, (h.mem_iff x).mp hx, hyes⟩
  have hget : s.set.storage[s.set.storage.findIdx predicate] = x :=
    huniq _ ((h.mem_iff _).mpr (List.getElem_mem hlt)) List.findIdx_getElem
  have hne : (CollectionContainer.find s.array x != s.array.length) = true :=
    bne_iff_ne.mpr (Nat.ne_of_lt (List.idxOf_lt_length_iff.mpr hx))
  rw [OrderedSet.findIf, CollectionContainer3.findIf, positionOf,
    List.getElem?_eq_getElem hlt, hget]
  exact if_pos hne

/-- The array decides the set. -/
theorem set_eq (hs : Consistent s) (ht : Consistent t) (harr : s.array = t.array) :
    s.set = t.set := by
  have hperm : s.set.storage.Perm t.set.storage :=
    hs.perm.symm.trans ((List.Perm.of_eq harr).trans ht.perm)
  have heq : s.set.storage = t.set.storage :=
    hperm.eq_of_pairwise (fun a b _ _ hab hba => absurd hba (lt_asymm hab)) s.set.sorted t.set.sorted
  cases hs' : s.set
  cases ht' : t.set
  rw [hs', ht'] at heq
  cases heq
  rfl

theorem equal_eq (hs : Consistent s) (ht : Consistent t) {sameObject : Bool}
    (hsame : sameObject = true → s = t) :
    equal sameObject s t = .ok (decide (s.array = t.array)) := by
  cases sameObject with
  | true =>
      rw [hsame rfl]
      simp [equal]
  | false =>
      simp only [equal, Bool.false_eq_true, if_false, hs.size_eq, ht.size_eq, ok_bind]
      by_cases harr : s.array = t.array
      · rw [if_pos (congrArg List.length harr), hs.set_eq ht harr]
        simp [harr]
      · split
        · simp [harr]
        · simp [harr]

/-! ### Positions -/

/-- The position an iterator names, `endIndex` when it names none. -/
def position (array : List T) (index : Nat) : Nat :=
  if index ≠ endIndex ∧ index < array.length then index else endIndex

theorem isDereferenceable_eq (h : Consistent s) (index : Nat) :
    s.isDereferenceable index = .ok (decide (index ≠ endIndex ∧ index < s.array.length)) := by
  rw [isDereferenceable]
  by_cases hend : index = endIndex
  · simp [hend]
  · simp only [hend, if_false, h.size_eq, ok_bind, not_false_eq_true, true_and, ne_eq]
    congr 1
    by_cases hlt : index < s.array.length
    · have hne : s.array.length ≠ 0 := by omega
      simp [hlt, hne]
    · simp [hlt]

theorem getPosition_eq (h : Consistent s) (index : Nat) :
    s.getPosition index = .ok (position s.array index) := by
  rw [getPosition, h.isDereferenceable_eq, ok_bind, position]
  by_cases hc : index ≠ endIndex ∧ index < s.array.length
  · rw [decide_eq_true hc, if_pos rfl, if_pos hc]
  · rw [decide_eq_false hc, if_neg nofun, if_neg hc]

end Consistent

/-! ## The mutators -/

section Mutators
variable {s : OrderedSet T}

theorem consistent_empty : Consistent (empty : OrderedSet T) :=
  ⟨List.nodup_nil, fun _ => iff_of_false List.not_mem_nil List.not_mem_nil⟩

/-- Appending a fresh element to both. -/
theorem Consistent.add (h : Consistent s) {v : T} (hv : v ∉ s.array) :
    Consistent ⟨CollectionContainer.addObject s.array v, s.set.addObject v⟩ where
  nodup := by
    refine List.nodup_append.mpr ⟨h.nodup, List.nodup_singleton v, ?_⟩
    intro a ha b hb hab
    rw [List.mem_singleton] at hb
    exact hv (hb ▸ hab ▸ ha)
  mem_iff := by
    intro x
    rw [CollectionContainer3.mem_addObject, ← h.mem_iff]
    show x ∈ s.array ++ [v] ↔ _
    rw [List.mem_append, List.mem_singleton]
    exact or_comm

theorem constructLoop_consistent (il : List T) :
    ∀ {s : OrderedSet T}, Consistent s → Consistent (constructLoop il s) := by
  induction il with
  | nil => exact fun h => h
  | cons v il ih =>
      intro s h
      rw [constructLoop]
      split
      next => exact ih h
      next hno =>
        refine ih (h.add fun hv => hno ?_)
        exact CollectionContainer3.contains_iff.mpr ((h.mem_iff v).mp hv)

theorem construct_spec (il : List T) : ∃ s, construct il = .ok s ∧ Consistent s := by
  have h := constructLoop_consistent il consistent_empty
  exact ⟨_, by simp only [construct, h.size_eq, ok_bind], h⟩

theorem addObject_spec (h : Consistent s) {v : T} (hv : v ∉ s.array) :
    ∃ s', s.addObject v = .ok s' ∧ s'.array = s.array ++ [v] ∧ Consistent s' := by
  have h' := h.add hv
  exact ⟨_, by simp only [OrderedSet.addObject, h.size_eq, h'.size_eq, ok_bind], rfl, h'⟩

/-- Dropping the last element from both. -/
theorem Consistent.dropLast (h : Consistent s) {ys : List T} {v : T} (hs : s.array = ys ++ [v])
    {set : CollectionContainer3 T} (hset : ∀ x, x ∈ set.storage ↔ x ≠ v ∧ x ∈ s.set.storage) :
    Consistent ⟨ys, set⟩ := by
  have hnd := h.nodup
  rw [hs, List.nodup_append] at hnd
  have hv : ∀ x ∈ ys, x ≠ v := fun x hx => hnd.2.2 x hx v (List.mem_singleton.mpr rfl)
  refine ⟨hnd.1, fun x => ?_⟩
  show x ∈ ys ↔ x ∈ set.storage
  rw [hset, ← h.mem_iff, hs, List.mem_append, List.mem_singleton]
  constructor
  · exact fun hx => ⟨hv x hx, Or.inl hx⟩
  · exact fun ⟨hne, hx⟩ => hx.resolve_right hne

theorem find_concat {ys : List T} {v : T} (h : v ∉ ys) :
    CollectionContainer.find (ys ++ [v]) v = ys.length := by
  rw [CollectionContainer.find, List.idxOf_append_of_notMem h, List.idxOf_cons_self, Nat.add_zero]

theorem eraseValue_spec (h : Consistent s) {v : T} (hv : s.array.getLast? = some v) :
    ∃ s', s.eraseValue v = .ok s' ∧ Consistent s' := by
  obtain ⟨ys, hs⟩ := List.getLast?_eq_some_iff.mp hv
  have hmem : v ∈ s.set.storage := (h.mem_iff v).mp (List.mem_of_getLast? hv)
  obtain ⟨set, b, herase, -, hset⟩ := CollectionContainer3.eraseElement_of_mem hmem
  have h' := h.dropLast hs hset
  have hnd := h.nodup
  rw [hs, List.nodup_append] at hnd
  have hnot : v ∉ ys := fun hy => hnd.2.2 v hy v (List.mem_singleton.mpr rfl) rfl
  have htake : s.array.take (CollectionContainer.find s.array v) = ys := by
    rw [hs, find_concat hnot]
    exact List.take_left
  refine ⟨⟨ys, set⟩, ?_, h'⟩
  simp only [OrderedSet.eraseValue, h.size_eq, CollectionContainer.eraseElement_eq, htake, herase,
    h'.size_eq, ok_bind]

theorem popBack_spec (h : Consistent s) (hne : s.array ≠ []) :
    ∃ s', s.popBack = .ok s' ∧ Consistent s' := by
  obtain ⟨ys, v, hs⟩ : ∃ ys v, s.array = ys ++ [v] :=
    ⟨_, _, (List.dropLast_append_getLast hne).symm⟩
  have hlast : s.array.getLast? = some v := List.getLast?_eq_some_iff.mpr ⟨ys, hs⟩
  have hmem : v ∈ s.set.storage := (h.mem_iff v).mp (List.mem_of_getLast? hlast)
  obtain ⟨set, b, herase, -, hset⟩ := CollectionContainer3.eraseElement_of_mem hmem
  have h' := h.dropLast hs hset
  have hback : back s.array = .ok v := by rw [back, hlast]
  have hpop : CollectionContainer.popBack s.array = .ok ys := by
    rw [CollectionContainer.popBack, hs]
    simp
  refine ⟨⟨ys, set⟩, ?_, h'⟩
  simp only [OrderedSet.popBack, hback, hpop, herase, h'.size_eq, ok_bind]

/-- An iterator that names no element erases nothing. -/
theorem eraseIterator_stays (residue : T → Option T) (h : Consistent s) {index : Nat}
    (hno : ¬ (index ≠ endIndex ∧ index < s.array.length)) :
    s.eraseIterator residue index = .ok s := by
  simp only [eraseIterator, h.isDereferenceable_eq, decide_eq_false hno, ok_bind, Bool.not_false,
    if_true]

/-- An iterator that names `removed` erases it from the array, and from the set
whatever its slot reads afterwards. -/
theorem eraseIterator_eq (residue : T → Option T) (h : Consistent s) {index : Nat} {removed : T}
    (hend : index ≠ endIndex) (hget : s.array[index]? = some removed) :
    s.eraseIterator residue index = (do
      let value ← slotAfter residue (s.array.eraseIdx index) index removed
      let (set, _) ← s.set.eraseElement value
      .ok ⟨s.array.eraseIdx index, set⟩) := by
  have hlt : index < s.array.length := (List.getElem?_eq_some_iff.mp hget).1
  have hpos : Consistent.position s.array index = index := if_pos ⟨hend, hlt⟩
  have hderef : s.deref index = .ok removed := by
    rw [deref, h.isDereferenceable_eq, decide_eq_true ⟨hend, hlt⟩, ok_bind, if_pos rfl, hget]
  have herase : eraseAt s.array index = .ok (s.array.eraseIdx index) := if_pos hlt
  simp only [eraseIterator, h.isDereferenceable_eq, decide_eq_true (⟨hend, hlt⟩ : _ ∧ _), ok_bind,
    Bool.not_true, Bool.false_eq_true, if_false, hderef, h.getPosition_eq, hpos, herase]

/-- What is left of the array when the element at `index` goes. -/
theorem mem_eraseIdx_iff (h : Consistent s) {index : Nat} {removed : T}
    (hget : s.array[index]? = some removed) (x : T) :
    x ∈ s.array.eraseIdx index ↔ x ≠ removed ∧ x ∈ s.array := by
  obtain ⟨hlt, rfl⟩ := List.getElem?_eq_some_iff.mp hget
  rw [← h.nodup.erase_getElem]
  exact h.nodup.mem_erase_iff

theorem eraseIterator_last (residue : T → Option T) (h : Consistent s) {index : Nat}
    {removed : T} (hend : index ≠ endIndex) (hget : s.array[index]? = some removed)
    (hlast : index + 1 = s.array.length) (hres : residue removed = some removed) :
    ∃ s', s.eraseIterator residue index = .ok s' ∧ s'.array = s.array.eraseIdx index ∧
      Consistent s' := by
  have hmem : removed ∈ s.set.storage := (h.mem_iff removed).mp (List.mem_of_getElem? hget)
  obtain ⟨set, b, herase, -, hset⟩ := CollectionContainer3.eraseElement_of_mem hmem
  have hslot : slotAfter residue (s.array.eraseIdx index) index removed = .ok removed := by
    rw [slotAfter, List.getElem?_eq_none (by rw [List.length_eraseIdx]; split <;> omega), hres]
  refine ⟨⟨s.array.eraseIdx index, set⟩, ?_, rfl, ?_⟩
  · simp only [eraseIterator_eq residue h hend hget, hslot, herase, ok_bind]
  · refine ⟨h.nodup.sublist (List.eraseIdx_sublist _ _), fun x => ?_⟩
    show x ∈ s.array.eraseIdx index ↔ x ∈ set.storage
    rw [mem_eraseIdx_iff h hget, hset, h.mem_iff]

/-- When the set loses another element than the array did, they part. -/
theorem eraseIterator_parts (residue : T → Option T) (h : Consistent s) {index : Nat}
    {removed : T} (hend : index ≠ endIndex) (hget : s.array[index]? = some removed)
    (hbad : ¬ (index + 1 = s.array.length ∧ residue removed = some removed)) :
    ∀ s', s.eraseIterator residue index = .ok s' → ¬ Consistent s' := by
  intro s' hrun h'
  rw [eraseIterator_eq residue h hend hget] at hrun
  obtain ⟨value, hslot, hrest⟩ := bind_eq_ok.mp hrun
  have hlt : index < s.array.length := (List.getElem?_eq_some_iff.mp hget).1
  -- the slot does not read as the element that was there
  have hne : removed ≠ value := by
    rintro rfl
    rw [slotAfter] at hslot
    cases hnext : (s.array.eraseIdx index)[index]? with
    | some y =>
        rw [hnext] at hslot
        have hmem := List.mem_of_getElem? hnext
        rw [Except.ok.inj hslot, mem_eraseIdx_iff h hget] at hmem
        exact hmem.1 rfl
    | none =>
        rw [hnext] at hslot
        have hlast : index + 1 = s.array.length := by
          rw [List.getElem?_eq_none_iff, List.length_eraseIdx, if_pos hlt] at hnext
          omega
        cases hres : residue removed with
        | none => rw [hres] at hslot; cases hslot
        | some y =>
            rw [hres] at hslot
            exact hbad ⟨hlast, by rw [hres, Except.ok.inj hslot]⟩
  by_cases hmem : value ∈ s.set.storage
  · obtain ⟨set, b, herase, -, hset⟩ := CollectionContainer3.eraseElement_of_mem hmem
    rw [herase] at hrest
    cases hrest
    have hin : removed ∈ set.storage :=
      (hset removed).mpr ⟨hne, (h.mem_iff removed).mp (List.mem_of_getElem? hget)⟩
    have hout := (mem_eraseIdx_iff h hget removed).mp ((h'.mem_iff removed).mpr hin)
    exact hout.1 rfl
  · rw [CollectionContainer3.eraseElement_of_not_mem hmem] at hrest
    cases hrest

/-! ### The array alone, whatever the set holds -/

theorem addObject_ends (s : OrderedSet T) (value : T) :
    Ends anyFault (s.addObject value) fun s' => s'.array = s.array ++ [value] :=
  (Ends.any _).bind fun _ _ => (Ends.any _).bind fun _ _ => rfl

theorem isEmpty_ends (s : OrderedSet T) :
    Ends anyFault s.isEmpty fun empty => empty = (s.array.length == 0) := by
  rw [isEmpty, size]
  split
  · rfl
  · trivial

theorem deref_ends (s : OrderedSet T) (index : Nat) :
    Ends anyFault (s.deref index) fun element =>
      s.isDereferenceable index = .ok true ∧ s.array[index]? = some element := by
  rw [deref]
  cases hvalid : s.isDereferenceable index with
  | error e => trivial
  | ok valid =>
      cases valid with
      | false => trivial
      | true =>
          rw [ok_bind, if_pos rfl]
          cases hget : s.array[index]? with
          | none => trivial
          | some element => exact ⟨rfl, rfl⟩

theorem eraseIterator_ends (residue : T → Option T) (s : OrderedSet T) {index : Nat}
    (hvalid : s.isDereferenceable index = .ok true) :
    Ends anyFault (s.eraseIterator residue index) fun s' =>
      s'.array = s.array.eraseIdx index := by
  rw [eraseIterator, hvalid, ok_bind, if_neg (by decide)]
  refine (Ends.any _).bind fun removed _ => ?_
  rw [getPosition, hvalid, ok_bind, if_pos rfl, ok_bind, eraseAt]
  split
  · rw [ok_bind]
    exact (Ends.any _).bind fun _ _ => (Ends.any _).bind fun _ _ => rfl
  · trivial

/-! ### `addObjects` -/

open Consistent

/-- The early returns of `addObjects`. -/
def SkipsCopy (array startArray stopArray : List T) (start stop : Nat) : Prop :=
  startArray ≠ stopArray ∨ startArray = array ∨
    position startArray start = position stopArray stop ∨
    array.length ≤ position startArray start ∨
    (position stopArray stop ≠ endIndex ∧ position stopArray stop < position startArray start)

/-- Where the copied segment ends. -/
def copyEnd (startArray : List T) (startPosition endPosition : Nat) : Nat :=
  if endPosition = endIndex then startArray.length else startPosition + endPosition

/-- Past its early returns, `addObjects` appends the segment to both. -/
theorem addObjects_eq {startSet stopSet : OrderedSet T} (h : Consistent s)
    (hstart : Consistent startSet) (hstop : Consistent stopSet) {startIsStop startIsThis : Bool}
    (h₁ : startIsStop = true → startSet = stopSet) (h₂ : startIsThis = true → startSet = s)
    (start stop : Nat) :
    (SkipsCopy s.array startSet.array stopSet.array start stop →
      s.addObjects startSet stopSet startIsStop startIsThis start stop = .ok s) ∧
    (¬ SkipsCopy s.array startSet.array stopSet.array start stop →
      s.addObjects startSet stopSet startIsStop startIsThis start stop = (do
        let segment ← slice startSet.array (position startSet.array start)
          (copyEnd startSet.array (position startSet.array start) (position stopSet.array stop))
        let s : OrderedSet T := ⟨s.array ++ segment,
          segment.foldl CollectionContainer3.addObject s.set⟩
        let _ ← s.size
        .ok s)) := by
  have hleft := hstart.equal_eq hstop h₁
  have hright := hstart.equal_eq h h₂
  rw [OrderedSet.addObjects, hleft, ok_bind]
  by_cases hne : startSet.array = stopSet.array
  · rw [decide_eq_true hne, hright]
    simp only [Bool.not_true, Bool.false_eq_true, if_false, ok_bind]
    by_cases hown : startSet.array = s.array
    · rw [decide_eq_true hown]
      exact ⟨fun _ => rfl, fun hno => absurd (Or.inr (Or.inl hown)) hno⟩
    · rw [decide_eq_false hown, hstart.getPosition_eq, hstop.getPosition_eq]
      simp only [Bool.false_eq_true, if_false, ok_bind, h.size_eq]
      split
      next hpos => exact ⟨fun _ => rfl, fun hno => absurd (Or.inr (Or.inr (Or.inl hpos))) hno⟩
      next hpos =>
        split
        next hcnt =>
          exact ⟨fun _ => rfl, fun hno => absurd (Or.inr (Or.inr (Or.inr (Or.inl hcnt)))) hno⟩
        next hcnt =>
          split
          next hord =>
            exact ⟨fun _ => rfl, fun hno => absurd (Or.inr (Or.inr (Or.inr (Or.inr hord)))) hno⟩
          next hord =>
            refine ⟨fun hskip => ?_, fun _ => rfl⟩
            rcases hskip with hs | hs | hs | hs | hs
            · exact absurd hne hs
            · exact absurd hs hown
            · exact absurd hs hpos
            · exact absurd hs hcnt
            · exact absurd hs hord
  · rw [decide_eq_false hne]
    exact ⟨fun _ => rfl, fun hno => absurd (Or.inl hne) hno⟩

omit [LinearOrder T] in
/-- The elements of a segment are elements of the array. -/
theorem slice_sublist {storage segment : List T} {first last : Nat}
    (h : slice storage first last = .ok segment) : segment.Sublist storage := by
  rw [slice] at h
  split at h
  · cases h
    exact (List.drop_sublist _ _).trans (List.take_sublist _ _)
  · cases h

theorem mem_foldl_addObject (segment : List T) :
    ∀ (set : CollectionContainer3 T) (x : T),
      x ∈ (segment.foldl CollectionContainer3.addObject set).storage
        ↔ x ∈ segment ∨ x ∈ set.storage := by
  induction segment with
  | nil => intro set x; simp
  | cons v segment ih =>
      intro set x
      rw [List.foldl_cons, ih, CollectionContainer3.mem_addObject, List.mem_cons]
      constructor
      · rintro (hx | hx | hx)
        · exact Or.inl (Or.inr hx)
        · exact Or.inl (Or.inl hx)
        · exact Or.inr hx
      · rintro ((hx | hx) | hx)
        · exact Or.inr (Or.inl hx)
        · exact Or.inl hx
        · exact Or.inr (Or.inr hx)

/-- Appending a duplicate-free segment that shares nothing with the target. -/
theorem Consistent.append (h : Consistent s) {segment : List T} (hnd : segment.Nodup)
    (hdis : ∀ x ∈ segment, x ∉ s.array) :
    Consistent ⟨s.array ++ segment, segment.foldl CollectionContainer3.addObject s.set⟩ where
  nodup := List.nodup_append.mpr ⟨h.nodup, hnd, fun a ha b hb hab => hdis b hb (hab ▸ ha)⟩
  mem_iff := by
    intro x
    rw [mem_foldl_addObject, ← h.mem_iff]
    exact List.mem_append.trans or_comm

/-- What `addObjects` may be asked for: one of its early returns, or a segment
inside the source that shares nothing with the target. -/
def CopyOk (array startArray stopArray : List T) (start stop : Nat) : Prop :=
  SkipsCopy array startArray stopArray start stop ∨
    ∃ segment, slice startArray (position startArray start)
      (copyEnd startArray (position startArray start) (position stopArray stop)) = .ok segment ∧
      ∀ x ∈ segment, x ∉ array

theorem addObjects_spec {startSet stopSet : OrderedSet T} (h : Consistent s)
    (hstart : Consistent startSet) (hstop : Consistent stopSet) {startIsStop startIsThis : Bool}
    (h₁ : startIsStop = true → startSet = stopSet) (h₂ : startIsThis = true → startSet = s)
    {start stop : Nat} (hok : CopyOk s.array startSet.array stopSet.array start stop) :
    ∃ s', s.addObjects startSet stopSet startIsStop startIsThis start stop = .ok s' ∧
      Consistent s' := by
  obtain ⟨hskip, hcopy⟩ := addObjects_eq h hstart hstop h₁ h₂ start stop
  by_cases hs : SkipsCopy s.array startSet.array stopSet.array start stop
  · exact ⟨s, hskip hs, h⟩
  · obtain ⟨segment, hslice, hdis⟩ := hok.resolve_left hs
    have h' := h.append (hstart.nodup.sublist (slice_sublist hslice)) hdis
    refine ⟨_, ?_, h'⟩
    rw [hcopy hs, hslice]
    simp only [ok_bind, h'.size_eq]

end Mutators

/-! ## What an ordered set promises -/

/-- The array and the set agree, and no check in `size` or `find` fails. -/
structure Sound (s : OrderedSet T) : Prop where
  nodup : s.array.Nodup
  mem_iff : ∀ x, x ∈ s.array ↔ x ∈ s.set.storage
  size_ok : s.size = .ok s.array.length
  contains_iff : ∀ x, s.contains x = true ↔ x ∈ s.array
  find_ok : ∀ x, ∃ index, s.find x = .ok index
  findIf_ok : ∀ predicate, ∃ index, s.findIf predicate = .ok index

theorem sound_iff_consistent {s : OrderedSet T} : Sound s ↔ Consistent s := by
  constructor
  · exact fun h => ⟨h.nodup, h.mem_iff⟩
  · exact fun h => ⟨h.nodup, h.mem_iff, h.size_eq, h.contains_iff,
      fun x => h.positionOf_ok _, fun predicate => h.positionOf_ok _⟩

def AllSound (env : List (OrderedSet T)) : Prop := ∀ s ∈ env, Sound s

/-! ## Single steps -/

/-- A call names ordered sets that exist, and `pop_back` a nonempty one. -/
def Op.Proper (env : List (OrderedSet T)) : Op T → Prop
  | .construct _ => True
  | .copyConstruct i => i < env.length
  | .assign i j => i < env.length ∧ j < env.length
  | .addObject i _ => i < env.length
  | .addObjects i start stop =>
      i < env.length ∧ start.orderedSet < env.length ∧ stop.orderedSet < env.length
  | .eraseValue i _ => i < env.length
  | .eraseIterator i _ => i < env.length
  | .popBack i => ∃ s, env[i]? = some s ∧ s.array ≠ []

instance (env : List (OrderedSet T)) : DecidablePred (Op.Proper env)
  | .construct _ => inferInstanceAs (Decidable True)
  | .copyConstruct i => inferInstanceAs (Decidable (i < env.length))
  | .assign i j => inferInstanceAs (Decidable (i < env.length ∧ j < env.length))
  | .addObject i _ => inferInstanceAs (Decidable (i < env.length))
  | .addObjects i start stop => inferInstanceAs (Decidable (i < env.length ∧
      start.orderedSet < env.length ∧ stop.orderedSet < env.length))
  | .eraseValue i _ => inferInstanceAs (Decidable (i < env.length))
  | .eraseIterator i _ => inferInstanceAs (Decidable (i < env.length))
  | .popBack i => inferInstanceAs (Decidable (∃ s, s ∈ env[i]? ∧ s.array ≠ []))

/-- The calls that keep the array and the set in step. -/
def StepOk (residue : T → Option T) (env : List (OrderedSet T)) : Op T → Prop
  | .addObject i value => ∀ s, env[i]? = some s → value ∉ s.array
  | .addObjects i start stop => ∀ s startSet stopSet, env[i]? = some s →
      env[start.orderedSet]? = some startSet → env[stop.orderedSet]? = some stopSet →
        CopyOk s.array startSet.array stopSet.array start.index stop.index
  | .eraseValue i value => ∀ s, env[i]? = some s → s.array.getLast? = some value
  | .eraseIterator i index => ∀ s, env[i]? = some s → index ≠ endIndex →
      ∀ removed, s.array[index]? = some removed →
        index + 1 = s.array.length ∧ residue removed = some removed
  | _ => True

section Steps
variable {env : List (OrderedSet T)}

theorem setAt_eq {i : Nat} {s : OrderedSet T} (h : env[i]? = some s) : setAt env i = .ok s := by
  rw [setAt, h]

theorem update_eq {i : Nat} {s : OrderedSet T} (h : env[i]? = some s)
    (f : OrderedSet T → Except Fault (OrderedSet T)) :
    update env i f = (do let s' ← f s; .ok (env.set i s')) := by
  rw [update, setAt_eq h, ok_bind]

theorem exists_at {i : Nat} (h : i < env.length) : ∃ s, env[i]? = some s :=
  ⟨_, List.getElem?_eq_getElem h⟩

theorem AllSound.consistent (h : AllSound env) {i : Nat} {s : OrderedSet T}
    (hi : env[i]? = some s) : Consistent s :=
  sound_iff_consistent.mp (h s (List.mem_of_getElem? hi))

theorem AllSound.append (h : AllSound env) {s : OrderedSet T} (hs : Consistent s) :
    AllSound (env ++ [s]) := by
  intro t ht
  rcases List.mem_append.mp ht with ht | ht
  · exact h t ht
  · rw [List.mem_singleton.mp ht]
    exact sound_iff_consistent.mpr hs

theorem AllSound.set (h : AllSound env) (i : Nat) {s : OrderedSet T} (hs : Consistent s) :
    AllSound (env.set i s) := by
  intro t ht
  rcases List.mem_or_eq_of_mem_set ht with ht | rfl
  · exact h t ht
  · exact sound_iff_consistent.mpr hs

/-- A mutator that keeps the ordered set it is applied to consistent. -/
theorem AllSound.update (h : AllSound env) {i : Nat} {s : OrderedSet T} (hi : env[i]? = some s)
    {f : OrderedSet T → Except Fault (OrderedSet T)}
    (hf : ∃ s', f s = .ok s' ∧ Consistent s') :
    ∃ env', update env i f = .ok env' ∧ AllSound env' := by
  obtain ⟨s', hrun, hs'⟩ := hf
  exact ⟨env.set i s', by rw [update_eq hi, hrun, ok_bind], h.set i hs'⟩

theorem same_of_eq {i j : Nat} {s t : OrderedSet T} (hi : env[i]? = some s)
    (hj : env[j]? = some t) (h : (i == j) = true) : s = t := by
  rw [beq_iff_eq.mp h, hj] at hi
  exact (Option.some.inj hi).symm

/-- Good steps return, in sound states. -/
theorem step_spec (residue : T → Option T) (h : AllSound env) {op : Op T}
    (hop : op.Proper env) (hok : StepOk residue env op) :
    ∃ env', step residue env op = .ok env' ∧ AllSound env' := by
  cases op with
  | construct il =>
      obtain ⟨s, hs, hcons⟩ := construct_spec il
      exact ⟨env ++ [s], by rw [step, hs, ok_bind], h.append hcons⟩
  | copyConstruct i =>
      obtain ⟨s, hs⟩ := exists_at hop
      exact ⟨env ++ [s], by rw [step, setAt_eq hs, ok_bind], h.append (h.consistent hs)⟩
  | assign i j =>
      obtain ⟨s, hs⟩ := exists_at hop.1
      obtain ⟨value, hvalue⟩ := exists_at hop.2
      rw [step, setAt_eq hvalue, ok_bind]
      exact h.update hs ⟨value, rfl, h.consistent hvalue⟩
  | addObject i value =>
      obtain ⟨s, hs⟩ := exists_at hop
      obtain ⟨s', hrun, -, hcons⟩ := addObject_spec (h.consistent hs) (hok s hs)
      exact h.update hs ⟨s', hrun, hcons⟩
  | addObjects i start stop =>
      obtain ⟨s, hs⟩ := exists_at hop.1
      obtain ⟨startSet, hstart⟩ := exists_at hop.2.1
      obtain ⟨stopSet, hstop⟩ := exists_at hop.2.2
      rw [step, setAt_eq hstart, setAt_eq hstop, ok_bind, ok_bind]
      exact h.update hs (addObjects_spec (h.consistent hs) (h.consistent hstart)
        (h.consistent hstop) (same_of_eq hstart hstop) (same_of_eq hstart hs)
        (hok s startSet stopSet hs hstart hstop))
  | eraseValue i value =>
      obtain ⟨s, hs⟩ := exists_at hop
      exact h.update hs (eraseValue_spec (h.consistent hs) (hok s hs))
  | eraseIterator i index =>
      obtain ⟨s, hs⟩ := exists_at hop
      refine h.update hs ?_
      by_cases hvalid : index ≠ endIndex ∧ index < s.array.length
      · have hget := List.getElem?_eq_getElem hvalid.2
        obtain ⟨hlast, hres⟩ := hok s hs hvalid.1 _ hget
        obtain ⟨s', hrun, -, hcons⟩ :=
          eraseIterator_last residue (h.consistent hs) hvalid.1 hget hlast hres
        exact ⟨s', hrun, hcons⟩
      · exact ⟨s, eraseIterator_stays residue (h.consistent hs) hvalid, h.consistent hs⟩
  | popBack i =>
      obtain ⟨s, hs, hne⟩ := hop
      exact h.update hs (popBack_spec (h.consistent hs) hne)

end Steps

/-! ## Runs -/

/-- Every call of the program is proper in the state it is reached in. -/
def ProperProgram (residue : T → Option T) : List (OrderedSet T) → List (Op T) → Prop
  | _, [] => True
  | env, op :: ops => op.Proper env ∧
      ∀ env', step residue env op = .ok env' → ProperProgram residue env' ops

instance decidableProperProgram (residue : T → Option T) :
    ∀ (env : List (OrderedSet T)) (ops : List (Op T)), Decidable (ProperProgram residue env ops)
  | _, [] => inferInstanceAs (Decidable True)
  | env, op :: ops =>
      match hrun : step residue env op with
      | .error _ => decidable_of_iff (op.Proper env)
          ⟨fun h => ⟨h, fun _ h' => nomatch hrun.symm.trans h'⟩, And.left⟩
      | .ok env' =>
          have := decidableProperProgram residue env' ops
          decidable_of_iff (op.Proper env ∧ ProperProgram residue env' ops)
            ⟨fun h => ⟨h.1, fun _ h' => Except.ok.inj (hrun.symm.trans h') ▸ h.2⟩,
              fun h => ⟨h.1, h.2 env' hrun⟩⟩

/-- Every call of the program is one of `StepOk`, in the state it is reached in. -/
def Meets (residue : T → Option T) : List (OrderedSet T) → List (Op T) → Prop
  | _, [] => True
  | env, op :: ops => StepOk residue env op ∧
      ∀ env', step residue env op = .ok env' → Meets residue env' ops

/-- Construction, a fresh value, erasing the last one by value and by iterator,
a copy, a segment of another set, `pop_back` and an assignment. -/
def sampleProgram : List (Op Nat) :=
  [.construct [3, 1, 3], .addObject 0 2, .eraseValue 0 2, .copyConstruct 0, .addObject 1 7,
    .eraseIterator 1 2, .popBack 0, .assign 1 0, .eraseIterator 1 endIndex,
    .addObjects 0 ⟨1, 0⟩ ⟨1, endIndex⟩]

end OrderedSet

end Rx
