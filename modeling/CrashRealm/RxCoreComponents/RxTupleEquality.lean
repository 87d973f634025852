/-
# `RxCoreComponents.RxTupleEquality` — `isEqual:` and `hash` of tuples

`RxTuple` has the `isEqual:` of `NSObject`, which compares addresses; its five
subclasses compare their arrays with the array of any tuple.  None of them has a
`hash`, so all have that of `NSObject`, which goes by the address as well.

A plain tuple and a tuple of a subclass with the same objects are then equal one way
round only, and two equal tuples of subclasses are found under different hashes:
`isEqual_lawful_iff` says that tuples are keys of hashed collections exactly where
no tuple of a subclass has the objects of another tuple.

The tuples are those of a heap, by address.  What `isEqual:` says of two objects, and
the hash of an address, are parameters.
-/
import CrashRealm.Lib.KeyEquality
import CrashRealm.RxCoreComponents.RxTuple

namespace Rx

/-- The tuples that are alive.  At the other addresses is `nil`, or another object. -/
abbrev TupleHeap (A O : Type) := A → Option (RxTuple O)

namespace TupleHeap

section

variable {A O H : Type} [DecidableEq A]

/-- `[array isEqual:array']` of an `NSArray`, by the `isEqual:` of the objects; a message
to `nil` returns `NO`, and no array is equal to `nil`. -/
def arrayIsEqual (equal : TupleElement O → TupleElement O → Bool) :
    Option (List (TupleElement O)) → Option (List (TupleElement O)) → Bool
  | some array, some array' => array.isEqv array' equal
  | _, _ => false

/-- `isEqual:` of a tuple at `self`: that of `NSObject`, or that of the subclasses. -/
def isEqual (heap : TupleHeap A O) (equal : TupleElement O → TupleElement O → Bool)
    (self object : A) : Bool :=
  match heap self with
  | none => false
  | some t =>
      match t.isa with
      | .tuple => self = object
      | .oneTuple | .twoTuple | .threeTuple | .fourTuple | .fiveTuple =>
          if object = self then true
          else
            match heap object with
            | none => false
            | some u => arrayIsEqual equal t.backingStore u.backingStore

/-- `hash` of every class. -/
def hash (rootHash : A → H) (self : A) : H := rootHash self

/-! ## What is promised -/

def Alive (heap : TupleHeap A O) (a : A) : Prop := heap a ≠ none

/-- The tuple is of a subclass, and compares its objects. -/
def Compares (heap : TupleHeap A O) (a : A) : Prop :=
  ∃ t, heap a = some t ∧ t.isa ≠ .tuple

/-- Two tuples of equally many objects that are equal in turn. -/
def SameObjects (heap : TupleHeap A O) (equal : TupleElement O → TupleElement O → Bool)
    (a b : A) : Prop :=
  ∃ t u, heap a = some t ∧ heap b = some u ∧
    arrayIsEqual equal t.backingStore u.backingStore = true

/-! ## Arrays -/

theorem isEqv_trans {equal : TupleElement O → TupleElement O → Bool}
    (htrans : ∀ x y z, equal x y = true → equal y z = true → equal x z = true) :
    ∀ {l m n : List (TupleElement O)}, l.isEqv m equal = true → m.isEqv n equal = true →
      l.isEqv n equal = true := by
  intro l
  induction l with
  | nil =>
      intro m n hlm hmn
      cases m with
      | nil => exact hmn
      | cons y m => cases hlm
  | cons x l ih =>
      intro m n hlm hmn
      cases m with
      | nil => cases hlm
      | cons y m =>
          cases n with
          | nil => cases hmn
          | cons z n =>
              simp only [List.isEqv_cons_cons, Bool.and_eq_true] at hlm hmn ⊢
              exact ⟨htrans x y z hlm.1 hmn.1, ih hlm.2 hmn.2⟩

theorem arrayIsEqual_trans {equal : TupleElement O → TupleElement O → Bool}
    (htrans : ∀ x y z, equal x y = true → equal y z = true → equal x z = true) :
    ∀ {l m n : Option (List (TupleElement O))}, arrayIsEqual equal l m = true →
      arrayIsEqual equal m n = true → arrayIsEqual equal l n = true
  | some _, some _, some _, hlm, hmn => isEqv_trans htrans hlm hmn
  | none, _, _, hlm, _ => nomatch hlm
  | some _, none, _, hlm, _ => nomatch hlm
  | some _, some _, none, _, hmn => nomatch hmn

omit [DecidableEq A] in
theorem sameObjects_trans {heap : TupleHeap A O} {equal : TupleElement O → TupleElement O → Bool}
    (htrans : ∀ x y z, equal x y = true → equal y z = true → equal x z = true) (a b c : A)
    (hab : heap.SameObjects equal a b) (hbc : heap.SameObjects equal b c) :
    heap.SameObjects equal a c := by
  obtain ⟨t, u, ht, hu, htu⟩ := hab
  obtain ⟨u', v, hu', hv, huv⟩ := hbc
  obtain rfl := Option.some.inj (hu.symm.trans hu')
  exact ⟨t, v, ht, hv, arrayIsEqual_trans htrans htu huv⟩

/-! ## `isEqual:` is identity, widened by the subclasses -/

theorem isEqual_iff (heap : TupleHeap A O) (equal : TupleElement O → TupleElement O → Bool)
    (a b : A) (ha : heap.Alive a) :
    heap.isEqual equal a b = true ↔ a = b ∨ heap.Compares a ∧ heap.SameObjects equal a b := by
  obtain ⟨t, ht⟩ := Option.ne_none_iff_exists'.mp ha
  have hsame : (∃ u, heap b = some u ∧ arrayIsEqual equal t.backingStore u.backingStore = true) ↔
      heap.SameObjects equal a b := by
    constructor
    · rintro ⟨u, hu, htu⟩
      exact ⟨t, u, ht, hu, htu⟩
    · rintro ⟨t', u, ht', hu, htu⟩
      obtain rfl := Option.some.inj (ht.symm.trans ht')
      exact ⟨u, hu, htu⟩
  -- what the five subclasses share
  have hsub : t.isa ≠ .tuple → ((if b = a then true else
      match heap b with
      | none => false
      | some u => arrayIsEqual equal t.backingStore u.backingStore) = true ↔
        a = b ∨ heap.Compares a ∧ heap.SameObjects equal a b) := by
    intro hisa
    have hcompares : heap.Compares a := ⟨t, ht, hisa⟩
    rw [← hsame]
    split
    next hba => simp [hba]
    next hba =>
      have hab : a ≠ b := fun h => hba h.symm
      cases heap b with
      | none => simp [hab]
      | some u => simp [hab, hcompares]
  simp only [isEqual, ht]
  cases hisa : t.isa with
  | tuple =>
      have hnot : ¬ heap.Compares a := by
        rintro ⟨t', ht', hisa'⟩
        obtain rfl := Option.some.inj (ht.symm.trans ht')
        exact hisa' hisa
      simp [hnot]
  | oneTuple | twoTuple | threeTuple | fourTuple | fiveTuple => exact hsub (by simp [hisa])

end

/-- Where the objects' own equality is an equivalence and no two addresses have one
hash, `isEqual:` is an equivalence on the tuples of a heap and goes with `hash`,
exactly if no tuple of a subclass has the objects of another tuple. -/
theorem isEqual_lawful_iff (A O H : Type) [DecidableEq A] (heap : TupleHeap A O)
    (equal : TupleElement O → TupleElement O → Bool) (rootHash : A → H)
    (hequal : Equivalence fun x y => equal x y = true)
    (hhash : ∀ a b, rootHash a = rootHash b → a = b) :
    KeyEquality.Lawful heap.Alive (fun a b => heap.isEqual equal a b = true) (hash rootHash) ↔
      ∀ a b, heap.Alive a → heap.Alive b → a ≠ b → heap.Compares a →
        ¬ heap.SameObjects equal a b :=
  KeyEquality.lawful_widened_iff (fun a b ha _ => heap.isEqual_iff equal a b ha)
    (sameObjects_trans fun _ _ _ => hequal.trans) (fun a b _ _ => hhash a b)

/-! ## Two tuples -/

/-- Equality of numbers and nulls, the objects of the tuples below. -/
def numberOf : TupleElement Nat → Nat
  | .tupleNull => 0
  | .null => 1
  | .array _ => 2
  | .object n => n + 3

def numbersEqual (x y : TupleElement Nat) : Bool := numberOf x = numberOf y

theorem numbersEqual_equivalence : Equivalence fun x y => numbersEqual x y = true where
  refl := by simp [numbersEqual]
  symm := by
    intro x y h
    simp only [numbersEqual, decide_eq_true_eq] at h ⊢
    exact h.symm
  trans := by
    intro x y z hxy hyz
    simp only [numbersEqual, decide_eq_true_eq] at hxy hyz ⊢
    exact hxy.trans hyz

/-- A plain tuple of `1` at `false`, and `[RxOneTuple pack:@(n)]` at `true`. -/
def plainAndOne (n : Nat) : TupleHeap Bool Nat
  | false => some ⟨.tuple, some [.object 1], by decide⟩
  | true => some ⟨.oneTuple, some [.object n], fun _ hk => Option.some.inj hk⟩

theorem isEqual_lawful_plainAndOne : KeyEquality.Lawful (plainAndOne 2).Alive
    (fun a b => (plainAndOne 2).isEqual numbersEqual a b = true) (hash id) := by
  refine (isEqual_lawful_iff Bool Nat Bool (plainAndOne 2) numbersEqual id
    numbersEqual_equivalence fun _ _ h => h).mpr ?_
  rintro a b - - hne ⟨t, ht, hisa⟩ ⟨t', u, ht', hu, hsame⟩
  cases a with
  | false =>
      cases ht
      exact hisa rfl
  | true =>
      cases b with
      | false =>
          cases ht'
          cases hu
          cases hsame
      | true => exact hne rfl

/-- The same object in a plain tuple and in an `RxOneTuple`. -/
theorem isEqual_not_symm :
    (plainAndOne 1).isEqual numbersEqual true false = true ∧
      (plainAndOne 1).isEqual numbersEqual false true = false ∧
      ¬ KeyEquality.Lawful (plainAndOne 1).Alive
        (fun a b => (plainAndOne 1).isEqual numbersEqual a b = true) (hash id) := by
  refine ⟨rfl, rfl, fun h => ?_⟩
  exact Bool.false_ne_true
    (h.symm true false (Option.some_ne_none _) (Option.some_ne_none _) rfl)

end TupleHeap

end Rx
