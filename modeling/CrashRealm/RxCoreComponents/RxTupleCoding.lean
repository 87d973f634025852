/-
# `RxCoreComponents.RxTupleCoding` — a tuple encoded and decoded

`encodeWithCoder:` leaves out an array of no objects, and `initWithCoder:` sets the
array to whatever the coder has for its key, which is `nil` then.  The `nil` reads like
the empty array it replaced, until an object is added: the tuple that was decoded
stays empty.  `roundTrip_iff` says that this is all that can go wrong.

The sentinel decodes to itself.  What the coder makes of any other object is a
parameter, and so is what it means for two objects to be the same.
-/
import CrashRealm.RxCoreComponents.RxTuple
import Mathlib.Logic.Function.Basic

namespace Rx

/-- The arrays of a keyed archive, by key. -/
abbrev NSCoder (O : Type) := String → Option (List (TupleElement O))

namespace RxTuple

section

variable {O : Type}

/-- `@keypath(self, backingStore)`. -/
def backingStoreKey : String := "backingStore"

def encodeWithCoder (t : RxTuple O) (aCoder : NSCoder O) : NSCoder O :=
  if storeCount t.backingStore = 0 then aCoder
  else Function.update aCoder backingStoreKey t.backingStore

/-- An object encoded and decoded; `initWithCoder:` of `RxTupleNull` returns the sentinel. -/
def decodeObject (code : TupleElement O → TupleElement O) : TupleElement O → TupleElement O
  | .tupleNull => .tupleNull
  | .null => code .null
  | .array elements => code (.array elements)
  | .object o => code (.object o)

/-- `decodeObjectForKey:`, which returns `nil` for a key that was not encoded. -/
def decodeObjectForKey (code : TupleElement O → TupleElement O) (aDecoder : NSCoder O)
    (key : String) : Option (List (TupleElement O)) :=
  (aDecoder key).map (List.map (decodeObject code))

/-- `initWithCoder:` of the class, with an archive that has as many objects. -/
def initWithCoder (code : TupleElement O → TupleElement O) (isa : TupleClass)
    (aDecoder : NSCoder O)
    (accepted : isa.Accepts (storeCount (decodeObjectForKey code aDecoder backingStoreKey))) :
    Except NSException (RxTuple O) := do
  let _ ← init (O := O) isa
  return { isa, backingStore := decodeObjectForKey code aDecoder backingStoreKey, accepted }

/-- The archive of one tuple. -/
def archive (t : RxTuple O) : NSCoder O := t.encodeWithCoder fun _ => none

theorem decode_archive (code : TupleElement O → TupleElement O) (t : RxTuple O) :
    decodeObjectForKey code t.archive backingStoreKey =
      if storeCount t.backingStore = 0 then none
      else t.backingStore.map (List.map (decodeObject code)) := by
  simp only [decodeObjectForKey, archive, encodeWithCoder]
  by_cases hzero : storeCount t.backingStore = 0
  · rw [if_pos hzero, if_pos hzero, Option.map_none]
  · rw [if_neg hzero, if_neg hzero, Function.update_self]

theorem storeCount_decode_archive (code : TupleElement O → TupleElement O) (t : RxTuple O) :
    storeCount (decodeObjectForKey code t.archive backingStoreKey) = t.count := by
  rw [decode_archive]
  split
  next h => exact h.symm
  next =>
    simp only [count]
    cases t.backingStore with
    | none => rfl
    | some store => exact List.length_map _

/-- A tuple encoded, and decoded as an instance of its class. -/
def roundTrip (code : TupleElement O → TupleElement O) (t : RxTuple O) :
    Except NSException (RxTuple O) :=
  initWithCoder code t.isa t.archive (storeCount_decode_archive code t ▸ t.accepted)

/-! ## What is promised -/

/-- Two calls that raise the same exception, or return what is related. -/
def SameResult {α : Type} (R : α → α → Prop) : Except NSException α → Except NSException α → Prop
  | .ok a, .ok b => R a b
  | .error e, .error e' => e = e'
  | _, _ => False

theorem SameResult.mono {α : Type} {R Q : α → α → Prop} {x y : Except NSException α}
    (h : SameResult R x y) (himp : ∀ a b, R a b → Q a b) : SameResult Q x y := by
  cases x with
  | error e =>
      cases y with
      | error e' => exact h
      | ok b => exact h
  | ok a =>
      cases y with
      | error e' => exact h
      | ok b => exact himp a b h

theorem SameResult.bind {α : Type} {R Q : α → α → Prop} {x y : Except NSException α}
    {f : α → Except NSException α} (h : SameResult R x y)
    (hf : ∀ a b, R a b → SameResult Q (f a) (f b)) : SameResult Q (x >>= f) (y >>= f) := by
  cases x with
  | error e =>
      cases y with
      | error e' => exact h
      | ok b => exact h.elim
  | ok a =>
      cases y with
      | error e' => exact h.elim
      | ok b => exact hf a b h

/-- The same `count`, `objectAtIndex:` and `allObjects`. -/
structure Agrees (same : TupleElement O → TupleElement O → Prop) (t u : RxTuple O) : Prop where
  count : t.count = u.count
  objectAtIndex : ∀ i, Option.Rel same (t.objectAtIndex i) (u.objectAtIndex i)
  allObjects : List.Forall₂ same t.allObjects u.allObjects

/-- The same, whatever objects are added to both. -/
def StaysInAgreement (same : TupleElement O → TupleElement O → Prop) (t u : RxTuple O) : Prop :=
  ∀ objs, SameResult (Agrees same) (t.byAddingObjects objs) (u.byAddingObjects objs)

/-! ## Related tuples -/

/-- The same objects, of which the same are the sentinel. -/
def SameOrNull (same : TupleElement O → TupleElement O → Prop) (e e' : TupleElement O) : Prop :=
  same e e' ∧ (e = .tupleNull ↔ e' = .tupleNull)

/-- Two tuples of one class whose arrays are both `nil`, or the same in each place. -/
structure Related (same : TupleElement O → TupleElement O → Prop) (t u : RxTuple O) : Prop where
  isa : t.isa = u.isa
  backingStore : Option.Rel (List.Forall₂ (SameOrNull same)) t.backingStore u.backingStore

variable {same : TupleElement O → TupleElement O → Prop}

section Elements

variable {e e' : TupleElement O}

theorem asNil_of_ne (h : e ≠ .tupleNull) : e.asNil = some e := by
  cases e with
  | tupleNull => exact absurd rfl h
  | null => rfl
  | array elements => rfl
  | object o => rfl

theorem asNull_of_ne (h : e ≠ .tupleNull) : e.asNull = e := by
  cases e with
  | tupleNull => exact absurd rfl h
  | null => rfl
  | array elements => rfl
  | object o => rfl

theorem SameOrNull.asNil (h : SameOrNull same e e') : Option.Rel same e.asNil e'.asNil := by
  by_cases hnull : e = .tupleNull
  · rw [hnull, h.2.mp hnull]
    exact .none
  · rw [asNil_of_ne hnull, asNil_of_ne fun h' => hnull (h.2.mpr h')]
    exact .some h.1

theorem SameOrNull.asNull (hrefl : ∀ e, same e e) (h : SameOrNull same e e') :
    same e.asNull e'.asNull := by
  by_cases hnull : e = .tupleNull
  · rw [hnull, h.2.mp hnull]
    exact hrefl _
  · rw [asNull_of_ne hnull, asNull_of_ne fun h' => hnull (h.2.mpr h')]
    exact h.1

end Elements

theorem SameOrNull.refl (hrefl : ∀ e, same e e) (e : TupleElement O) : SameOrNull same e e :=
  ⟨hrefl e, Iff.rfl⟩

theorem storeCount_eq {store store' : Option (List (TupleElement O))}
    (h : Option.Rel (List.Forall₂ (SameOrNull same)) store store') :
    storeCount store = storeCount store' := by
  cases h with
  | some h => exact h.length_eq
  | none => rfl

namespace Related

variable {t u : RxTuple O}

theorem elements (h : Related same t u) :
    List.Forall₂ (SameOrNull same) t.elements u.elements := by
  have hstore := h.backingStore
  simp only [RxTuple.elements]
  revert hstore
  generalize t.backingStore = store, u.backingStore = store'
  intro hstore
  cases hstore with
  | some h => exact h
  | none => exact .nil

theorem agrees (hrefl : ∀ e, same e e) (h : Related same t u) : Agrees same t u where
  count := storeCount_eq h.backingStore
  objectAtIndex := by
    intro i
    obtain ⟨hlength, hget⟩ := List.forall₂_iff_get.mp h.elements
    rw [objectAtIndex_eq, objectAtIndex_eq]
    by_cases hi : i < t.elements.length
    · have hi' : i < u.elements.length := hlength ▸ hi
      rw [List.getElem?_eq_getElem hi, List.getElem?_eq_getElem hi']
      exact (hget i hi hi').asNil
    · rw [List.getElem?_eq_none (by omega), List.getElem?_eq_none (by omega)]
      exact .none
  allObjects := by
    rw [allObjects_eq, allObjects_eq, List.forall₂_map_left_iff, List.forall₂_map_right_iff]
    exact h.elements.imp fun _ _ h => h.asNull hrefl

/-- Related arrays pass the assertion of a class together. -/
theorem initWithBackingStore {store store' : Option (List (TupleElement O))} (isa : TupleClass)
    (h : Option.Rel (List.Forall₂ (SameOrNull same)) store store') :
    SameResult (Related same) (RxTuple.initWithBackingStore isa store)
      (RxTuple.initWithBackingStore isa store') := by
  have hcount := storeCount_eq h
  simp only [RxTuple.initWithBackingStore]
  by_cases haccepts : isa.Accepts (storeCount store)
  · rw [dif_pos haccepts, dif_pos (hcount ▸ haccepts)]
    exact ⟨rfl, h⟩
  · rw [dif_neg haccepts, dif_neg (hcount ▸ haccepts)]
    exact rfl

theorem arrayByAddingObject (hrefl : ∀ e, same e e) (h : Related same t u)
    (obj : TupleElement O) :
    Option.Rel (List.Forall₂ (SameOrNull same)) (RxTuple.arrayByAddingObject t.backingStore obj)
      (RxTuple.arrayByAddingObject u.backingStore obj) := by
  have hstore := h.backingStore
  revert hstore
  generalize t.backingStore = store, u.backingStore = store'
  intro hstore
  cases hstore with
  | some h => exact .some (List.rel_append h (.cons (.refl hrefl obj) .nil))
  | none => exact .none

/-- An object added to both. -/
theorem tupleByAddingObject (hrefl : ∀ e, same e e) (h : Related same t u)
    (obj : Option (TupleElement O)) :
    SameResult (Related same) (t.tupleByAddingObject obj) (u.tupleByAddingObject obj) := by
  have harray := h.arrayByAddingObject hrefl (.ofNil obj)
  simp only [RxTuple.tupleByAddingObject, ← h.isa]
  cases t.isa with
  | tuple => exact initWithBackingStore .tuple harray
  | twoTuple => exact initWithBackingStore .threeTuple harray
  | threeTuple => exact initWithBackingStore .fourTuple harray
  | fourTuple => exact initWithBackingStore .fiveTuple harray
  | fiveTuple => exact initWithBackingStore .fiveTuple harray
  | oneTuple =>
      revert harray
      generalize RxTuple.arrayByAddingObject t.backingStore _ = store,
        RxTuple.arrayByAddingObject u.backingStore _ = store'
      intro harray
      cases harray with
      | some _ => exact rfl
      | none => exact rfl

theorem byAddingObjects (hrefl : ∀ e, same e e) (objs : List (Option (TupleElement O))) :
    ∀ {t u : RxTuple O}, Related same t u →
      SameResult (Related same) (t.byAddingObjects objs) (u.byAddingObjects objs) := by
  induction objs with
  | nil =>
      intro t u h
      exact h
  | cons obj objs ih =>
      intro t u h
      simp only [RxTuple.byAddingObjects, List.foldlM_cons]
      exact (h.tupleByAddingObject hrefl obj).bind fun _ _ h' => ih h'

theorem staysInAgreement (hrefl : ∀ e, same e e) (h : Related same t u) :
    StaysInAgreement same t u := by
  intro objs
  exact (h.byAddingObjects hrefl objs).mono fun _ _ h' => h'.agrees hrefl

end Related

/-! ## What the archive gives back -/

/-- Objects that round-trip are the same and the sentinel together. -/
theorem sameOrNull_decodeObject {code : TupleElement O → TupleElement O}
    (hsentinel : ∀ e, same e .tupleNull → e = .tupleNull) {e : TupleElement O}
    (h : same e (decodeObject code e)) : SameOrNull same e (decodeObject code e) := by
  refine ⟨h, ?_, ?_⟩
  · rintro rfl
    rfl
  · intro hdecoded
    rw [hdecoded] at h
    exact hsentinel e h

theorem roundTrip_eq (code : TupleElement O → TupleElement O) (t : RxTuple O) :
    ∃ u, roundTrip code t = .ok u ∧ u.isa = t.isa ∧ u.backingStore =
      if storeCount t.backingStore = 0 then none
      else t.backingStore.map (List.map (decodeObject code)) := by
  obtain ⟨self, hself, -⟩ := init_ok (O := O) t.isa
  have haccepted : t.isa.Accepts (storeCount (decodeObjectForKey code t.archive backingStoreKey)) :=
    storeCount_decode_archive code t ▸ t.accepted
  refine ⟨⟨t.isa, _, haccepted⟩, ?_, rfl, decode_archive code t⟩
  simp only [roundTrip, initWithCoder, hself]
  rfl

theorem related_roundTrip {code : TupleElement O → TupleElement O} {t u : RxTuple O}
    (hsentinel : ∀ e, same e .tupleNull → e = .tupleNull)
    (hround : ∀ e ∈ t.elements, same e (decodeObject code e))
    (hempty : t.backingStore ≠ some []) (hu : roundTrip code t = .ok u) : Related same t u := by
  obtain ⟨u', hu', hisa, hstore⟩ := roundTrip_eq code t
  cases hu.symm.trans hu'
  refine ⟨hisa.symm, ?_⟩
  rw [hstore]
  cases hb : t.backingStore with
  | none => exact .none
  | some l =>
      have hcount : ¬ storeCount (some l) = 0 := by
        intro hzero
        exact hempty (hb.trans (congrArg some (List.length_eq_zero_iff.mp hzero)))
      rw [if_neg hcount]
      refine .some ?_
      rw [List.forall₂_map_right_iff, List.forall₂_same]
      intro e he
      refine sameOrNull_decodeObject hsentinel (hround e ?_)
      rw [elements, hb]
      exact he

end

/-- Where the sentinel is the same as no other object, a tuple whose objects round-trip
comes back as a tuple that agrees with it and stays in agreement, exactly if its array
is not an empty one. -/
theorem roundTrip_iff (O : Type) (code : TupleElement O → TupleElement O)
    (same : TupleElement O → TupleElement O → Prop) (hrefl : ∀ e, same e e)
    (hsentinel : ∀ e, same e .tupleNull → e = .tupleNull) (t : RxTuple O)
    (hround : ∀ e ∈ t.elements, same e (decodeObject code e)) :
    (∃ u, roundTrip code t = .ok u ∧ Agrees same t u ∧ StaysInAgreement same t u) ↔
      t.backingStore ≠ some [] := by
  constructor
  · rintro ⟨u, hu, -, hstays⟩ hempty
    obtain ⟨u', hu', hisa, hstore⟩ := roundTrip_eq code t
    cases hu.symm.trans hu'
    obtain ⟨isa, store, accepted⟩ := t
    cases hempty
    cases TupleClass.eq_tuple_of_accepts_zero accepted
    obtain ⟨uisa, ustore, uaccepted⟩ := u
    cases hisa
    cases hstore
    have hone : 1 = 0 := (hstays [none]).count
    cases hone
  · intro hempty
    obtain ⟨u, hu, -⟩ := roundTrip_eq code t
    have hrelated := related_roundTrip hsentinel hround hempty hu
    exact ⟨u, hu, hrelated.agrees hrefl, hrelated.staysInAgreement hrefl⟩

theorem roundTrip_iff_twoTuple :
    let t : RxTuple Nat := ⟨.twoTuple, some [.object 1, .tupleNull], fun _ hk => Option.some.inj hk⟩
    ∃ u, roundTrip id t = .ok u ∧ Agrees (· = ·) t u ∧ StaysInAgreement (· = ·) t u := by
  intro t
  refine (roundTrip_iff Nat id (· = ·) (fun _ => rfl) (fun _ h => h) t ?_).mpr ?_
  · intro e _
    cases e with
    | tupleNull => rfl
    | null => rfl
    | array elements => rfl
    | object o => rfl
  · intro h
    cases h

/-- The empty tuple comes back without an array, and stays empty. -/
theorem roundTrip_empty :
    ∃ t u : RxTuple Nat, init .tuple = .ok t ∧ roundTrip id t = .ok u ∧
      Agrees (· = ·) t u ∧ ¬ StaysInAgreement (· = ·) t u := by
  refine ⟨⟨.tuple, some [], by decide⟩, ⟨.tuple, none, by decide⟩, rfl, rfl, ⟨rfl, ?_, .nil⟩, ?_⟩
  · intro i
    rw [objectAtIndex_eq, objectAtIndex_eq]
    exact .none
  · intro hstays
    exact absurd (hstays [none]).count (by decide)

end RxTuple

end Rx
