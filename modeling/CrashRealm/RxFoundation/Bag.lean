/-
# `RxFoundation.Bag` — the bag, and when it counts its elements

`Bag` is `CollectionContainer3<std::multiset>`, the specialisation for multisets.
Its `StorageType` is a `std::set` all the same, here a strictly increasing list,
and its `erase(element)` erases the range from the element found to `end()`.

What a bag is for is a finite multiset: `addObject` raises one multiplicity,
`erase` lowers one, `clear` lowers all.  The bag agrees with it as long as no
element is added twice and none is erased below another (`agrees_iff`).
-/
import Mathlib.Data.List.Induction
import Mathlib.Data.Multiset.AddSub
import CrashRealm.Lib.SortedList

namespace Rx

/-- `Bag<T>`, which is `CollectionContainer3<std::multiset, T, std::less>`. -/
@[ext]
structure Bag (T : Type) [LinearOrder T] where
  storage : List T
  sorted : storage.Pairwise (· < ·)

namespace Bag

variable {T : Type} [LinearOrder T]

instance : DecidableEq (Bag T) := fun s t =>
  decidable_of_iff (s.storage = t.storage) Bag.ext_iff.symm

def empty : Bag T := ⟨[], SortedList.pairwise_nil T⟩

def size (s : Bag T) : Nat := s.storage.length

/-- The position `std::find` stops at. -/
def find (s : Bag T) (element : T) : Nat := s.storage.idxOf element

def contains (s : Bag T) (element : T) : Bool := s.find element != s.size

def addObject (s : Bag T) (element : T) : Bag T :=
  ⟨SortedList.insert element s.storage, SortedList.pairwise_insert s.sorted⟩

/-- `erase(first, last)`, of a valid range. -/
def eraseRange (s : Bag T) (first last : Nat) (valid : first ≤ last ∧ last ≤ s.size) : Bag T where
  storage := s.storage.take first ++ s.storage.drop last
  sorted := by
    refine s.sorted.sublist ?_
    calc (s.storage.take first ++ s.storage.drop last).Sublist
          (s.storage.take first ++ s.storage.drop first) :=
          (List.Sublist.refl _).append (List.drop_sublist_drop_left _ valid.1)
      _ = s.storage := List.take_append_drop _ _

theorem find_le (s : Bag T) (element : T) : s.find element ≤ s.size := List.idxOf_le_length

/-- `erase(element)`: the range from the element to `end()`.  The iterator it
compares with `end()` is the position erased from. -/
def eraseElement (s : Bag T) (element : T) : Bag T × Bool :=
  let first := s.find element
  let s' := s.eraseRange first s.size ⟨s.find_le element, Nat.le_refl _⟩
  (s', first != s'.size)

def clear (_ : Bag T) : Bag T := empty

/-! ## Histories of operations -/

inductive Op (T : Type) where
  | addObject (element : T)
  | erase (element : T)
  | clear
  deriving DecidableEq

def step (s : Bag T) : Op T → Bag T
  | .addObject element => s.addObject element
  | .erase element => (s.eraseElement element).1
  | .clear => s.clear

/-- The bag after the operations, from the empty one. -/
def run (ops : List (Op T)) : Bag T := ops.foldl step empty

/-- What an operation is to do to the multiplicities. -/
def count (m : Multiset T) : Op T → Multiset T
  | .addObject element => element ::ₘ m
  | .erase element => m.erase element
  | .clear => 0

/-- The elements added and not cancelled, each as often as that. -/
def multiplicities (ops : List (Op T)) : Multiset T := ops.foldl count 0

/-- The size is the sum of the multiplicities, and what is contained is what has
a positive one. -/
def Agrees (s : Bag T) (m : Multiset T) : Prop :=
  s.size = m.card ∧ ∀ x, s.contains x = true ↔ 0 < m.count x

/-- No second copy is added, and nothing is erased from below another element. -/
def Single (m : Multiset T) : Op T → Prop
  | .addObject element => element ∉ m
  | .erase element => element ∈ m → ∀ x ∈ m, x ≤ element
  | .clear => True

/-! ## What the operations do to the storage -/

theorem contains_iff {s : Bag T} {x : T} : s.contains x = true ↔ x ∈ s.storage := by
  rw [contains, bne_iff_ne, find, size, Ne, List.idxOf_eq_length_iff, not_not]

theorem nodup (s : Bag T) : s.storage.Nodup := SortedList.nodup s.sorted

/-- Only the elements before the erased one stay. -/
theorem storage_eraseElement (s : Bag T) (x : T) :
    (s.eraseElement x).1.storage = s.storage.take (s.find x) := by
  show s.storage.take (s.find x) ++ s.storage.drop s.storage.length = _
  rw [List.drop_length, List.append_nil]

theorem mem_eraseElement {s : Bag T} {x y : T} (hx : x ∈ s.storage) :
    y ∈ (s.eraseElement x).1.storage ↔ y ∈ s.storage ∧ y < x := by
  rw [storage_eraseElement]
  exact SortedList.mem_take_idxOf s.sorted hx

theorem eraseElement_of_not_mem {s : Bag T} {x : T} (hx : x ∉ s.storage) :
    (s.eraseElement x).1.storage = s.storage := by
  rw [storage_eraseElement, find, List.idxOf_eq_length hx, List.take_length]

/-! ## Agreement is equality of the storage with the multiset -/

theorem agrees_iff_eq {s : Bag T} {m : Multiset T} :
    s.Agrees m ↔ (s.storage : Multiset T) = m := by
  constructor
  · intro h
    obtain ⟨hsize, hcontains⟩ := h
    have hle : (s.storage : Multiset T) ≤ m := by
      rw [Multiset.le_iff_subset (Multiset.coe_nodup.mpr s.nodup)]
      intro x hx
      rw [Multiset.mem_coe, ← contains_iff, hcontains] at hx
      exact Multiset.count_pos.mp hx
    exact Multiset.eq_of_le_of_card_le hle (ge_of_eq hsize)
  · rintro rfl
    refine ⟨(Multiset.coe_card _).symm, fun x => ?_⟩
    rw [contains_iff, Multiset.count_pos, Multiset.mem_coe]

theorem addObject_eq_iff (s : Bag T) (x : T) :
    ((s.addObject x).storage : Multiset T) = x ::ₘ s.storage ↔ x ∉ s.storage := by
  rw [Multiset.cons_coe, Multiset.coe_eq_coe]
  constructor
  · intro hperm
    exact (List.nodup_cons.mp (hperm.nodup_iff.mp (s.addObject x).nodup)).1
  · intro hx
    refine (List.perm_ext_iff_of_nodup (s.addObject x).nodup
      (List.nodup_cons.mpr ⟨hx, s.nodup⟩)).mpr fun y => ?_
    rw [List.mem_cons]
    exact SortedList.mem_insert

theorem eraseElement_eq_iff (s : Bag T) (x : T) :
    ((s.eraseElement x).1.storage : Multiset T) = (s.storage : Multiset T).erase x ↔
      (x ∈ s.storage → ∀ y ∈ s.storage, y ≤ x) := by
  rw [Multiset.coe_erase, Multiset.coe_eq_coe,
    List.perm_ext_iff_of_nodup (s.eraseElement x).1.nodup (s.nodup.erase x)]
  by_cases hx : x ∈ s.storage
  · constructor
    · intro hmem _ y hy
      by_contra hlt
      have hstays : y ∈ s.storage.erase x := s.nodup.mem_erase_iff.mpr ⟨(ne_of_gt (not_le.mp hlt)), hy⟩
      exact hlt (le_of_lt ((mem_eraseElement hx).mp ((hmem y).mpr hstays)).2)
    · intro hmax y
      rw [mem_eraseElement hx, s.nodup.mem_erase_iff, and_comm]
      exact and_congr_left fun hy => ⟨ne_of_lt, lt_of_le_of_ne (hmax hx y hy)⟩
  · refine ⟨fun _ h => absurd h hx, fun _ y => ?_⟩
    rw [eraseElement_of_not_mem hx, List.erase_of_not_mem hx]

/-- One operation keeps the agreement exactly when it is `Single`. -/
theorem step_eq_iff (s : Bag T) (op : Op T) :
    ((s.step op).storage : Multiset T) = count s.storage op ↔ Single s.storage op := by
  cases op with
  | addObject x => exact addObject_eq_iff s x
  | erase x => exact eraseElement_eq_iff s x
  | clear => exact iff_true_intro rfl

theorem run_append (ops : List (Op T)) (op : Op T) : run (ops ++ [op]) = (run ops).step op :=
  List.foldl_concat ..

theorem multiplicities_append (ops : List (Op T)) (op : Op T) :
    multiplicities (ops ++ [op]) = count (multiplicities ops) op :=
  List.foldl_concat ..

/-- A bag agrees with the multiplicities all along a history exactly when every
operation of it is `Single` where it is taken. -/
theorem agrees_iff (ops : List (Op T)) :
    (∀ before, before <+: ops → (run before).Agrees (multiplicities before)) ↔
      ∀ before op, before ++ [op] <+: ops → Single (multiplicities before) op := by
  induction ops using List.reverseRecOn with
  | nil =>
      constructor
      · intro _ before op h
        exact absurd (List.prefix_nil.mp h) (List.append_ne_nil_of_right_ne_nil _ (List.cons_ne_nil _ _))
      · intro _ before h
        cases List.prefix_nil.mp h
        exact agrees_iff_eq.mpr rfl
  | append_singleton ops last ih =>
      constructor
      · intro h before op hprefix
        have hbefore := h before ((List.prefix_append _ _).trans hprefix)
        have hafter := h _ hprefix
        rw [agrees_iff_eq] at hbefore hafter
        rw [run_append, multiplicities_append, ← hbefore] at hafter
        rw [← hbefore]
        exact (step_eq_iff _ op).mp hafter
      · intro h before hprefix
        have hops := ih.mpr fun before op hp => h before op (hp.trans (List.prefix_append _ _))
        rcases List.prefix_concat_iff.mp hprefix with rfl | hprefix
        · have hagrees := agrees_iff_eq.mp (hops ops List.prefix_rfl)
          rw [agrees_iff_eq, run_append, multiplicities_append, ← hagrees, step_eq_iff, hagrees]
          exact h ops last List.prefix_rfl
        · exact hops before hprefix

/-- An element added twice counts once, and an element erased takes those above it along. -/
theorem counts_broken :
    ¬ (run [.addObject 1, .addObject 1] : Bag Nat).Agrees
        (multiplicities [.addObject 1, .addObject 1]) ∧
      ¬ (run [.addObject 1, .addObject 2, .erase 1] : Bag Nat).Agrees
        (multiplicities [.addObject 1, .addObject 2, .erase 1]) :=
  ⟨fun h => absurd h.1 (by decide), fun h => absurd h.1 (by decide)⟩

end Bag

end Rx
