/-
# `RxCoreComponents.RxTuple` — tuples of any length, and the five classes of a fixed one

A tuple keeps its objects in an array, with `[RxTupleNull null]` for `nil`.  The
initialiser of `RxOneTuple` to `RxFiveTuple` asserts how many there are, and
`tupleByAddingObject:` of each class names the class of its result.  Only
`initWithCoder:` of a plain `RxTuple` leaves a tuple without an array; the field
`accepted` is the assertion of the class.

`tupleByAddingObject_iff` says where an object is added as the header has it:
everywhere but in `RxOneTuple`, which wraps its new array in another one, in
`RxFiveTuple`, which has no method of its own and asks for a sixth object in its
own class, and where there is no array to add to.
-/
import CrashRealm.RxCoreComponents.MultipleDelegate
import CrashRealm.RxFoundation.Fault
import Mathlib.Data.List.Forall2

namespace Rx

/-! ## Objects and classes -/

/-- An object of a tuple: the sentinel for `nil`, `[NSNull null]`, an array, another. -/
inductive TupleElement (O : Type) where
  | tupleNull
  | null
  | array (elements : List (TupleElement O))
  | object (o : O)

inductive TupleClass where
  | tuple
  | oneTuple
  | twoTuple
  | threeTuple
  | fourTuple
  | fiveTuple
  deriving DecidableEq, Repr

/-- How many objects the initialiser of the class asserts. -/
def TupleClass.arity : TupleClass → Option Nat
  | tuple => none
  | oneTuple => some 1
  | twoTuple => some 2
  | threeTuple => some 3
  | fourTuple => some 4
  | fiveTuple => some 5

/-- The assertion of the class on the number of objects. -/
def TupleClass.Accepts (isa : TupleClass) (count : Nat) : Prop :=
  ∀ k, isa.arity = some k → count = k

/-- Only a plain tuple may be empty. -/
theorem TupleClass.eq_tuple_of_accepts_zero {isa : TupleClass} (h : isa.Accepts 0) :
    isa = .tuple := by
  cases isa with
  | tuple => rfl
  | oneTuple => cases h 1 rfl
  | twoTuple => cases h 2 rfl
  | threeTuple => cases h 3 rfl
  | fourTuple => cases h 4 rfl
  | fiveTuple => cases h 5 rfl

instance (isa : TupleClass) (count : Nat) : Decidable (isa.Accepts count) :=
  match h : isa.arity with
  | none => .isTrue fun k hk => nomatch h.symm.trans hk
  | some k => decidable_of_iff (count = k) (by simp [TupleClass.Accepts, h])

section

variable {O : Type}

/-- `obj ?: [RxTupleNull null]`. -/
def TupleElement.ofNil (obj : Option (TupleElement O)) : TupleElement O :=
  obj.getD .tupleNull

/-- `object == [RxTupleNull null] ? nil : object`. -/
def TupleElement.asNil : TupleElement O → Option (TupleElement O)
  | tupleNull => none
  | null => some null
  | array elements => some (array elements)
  | object o => some (object o)

/-- `object == [RxTupleNull null] ? [NSNull null] : object`. -/
def TupleElement.asNull : TupleElement O → TupleElement O
  | tupleNull | null => null
  | array elements => array elements
  | object o => object o

/-- `object == [NSNull null] ? [RxTupleNull null] : object`. -/
def TupleElement.asTupleNull : TupleElement O → TupleElement O
  | tupleNull | null => tupleNull
  | array elements => array elements
  | object o => object o

/-- `[backingStore count]`. -/
def storeCount (backingStore : Option (List (TupleElement O))) : Nat :=
  backingStore.elim 0 List.length

/-- A tuple; its array is none where it is `nil`. -/
structure RxTuple (O : Type) where
  isa : TupleClass
  backingStore : Option (List (TupleElement O))
  accepted : isa.Accepts (storeCount backingStore)

namespace RxTuple

/-! ## Construction -/

/-- What `NSParameterAssert` raises. -/
def parameterAssertion (arity : Nat) : NSException where
  name := "NSInternalInconsistencyException"
  reason := "Invalid parameter not satisfying: backingStore.count == " ++ toString arity

/-- `__initWithBackingStore:` of the class. -/
def initWithBackingStore (isa : TupleClass) (backingStore : Option (List (TupleElement O))) :
    Except NSException (RxTuple O) :=
  if accepted : isa.Accepts (storeCount backingStore) then .ok { isa, backingStore, accepted }
  else .error (parameterAssertion (isa.arity.getD 0))

/-- `init` of the class: as many nulls as it asserts, or an empty array. -/
def init (isa : TupleClass) : Except NSException (RxTuple O) :=
  initWithBackingStore isa (some (List.replicate (isa.arity.getD 0) .tupleNull))

/-- `tupleWithObjectsFromArray:`, and with `convertNullsToNils:`. -/
def tupleWithObjectsFromArray (isa : TupleClass) (array : Option (List (TupleElement O)))
    (convert : Bool) : Except NSException (RxTuple O) :=
  if convert then
    initWithBackingStore isa (some ((array.getD []).map TupleElement.asTupleNull))
  else initWithBackingStore isa array

/-- `tupleWithObjects:`, up to the `nil` that ends its arguments. -/
def tupleWithObjects (isa : TupleClass) (objects : List (TupleElement O)) :
    Except NSException (RxTuple O) :=
  if objects.length = 0 then init isa else initWithBackingStore isa (some objects)

/-- `pack:` to `pack:::::`. -/
def pack (isa : TupleClass) (objects : List (Option (TupleElement O))) :
    Except NSException (RxTuple O) :=
  tupleWithObjectsFromArray isa (some (objects.map TupleElement.ofNil)) false

/-! ## Access -/

def count (t : RxTuple O) : Nat := storeCount t.backingStore

def objectAtIndex (t : RxTuple O) (index : Nat) : Option (TupleElement O) :=
  if t.count ≤ index then none
  else (t.backingStore.bind (·[index]?)).bind TupleElement.asNil

def allObjects (t : RxTuple O) : List (TupleElement O) :=
  (t.backingStore.getD []).map TupleElement.asNull

/-! ## Adding an object -/

/-- `arrayByAddingObject:`; a message to `nil` returns `nil`. -/
def arrayByAddingObject (array : Option (List (TupleElement O))) (obj : TupleElement O) :
    Option (List (TupleElement O)) :=
  array.map (· ++ [obj])

/-- `@[array]`, which raises on `nil`. -/
def arrayLiteral : Option (List (TupleElement O)) → Except NSException (List (TupleElement O))
  | some elements => .ok [.array elements]
  | none => .error {
      name := "NSInvalidArgumentException"
      reason := "*** -[__NSPlaceholderArray initWithObjects:count:]: " ++
        "attempt to insert nil object from objects[0]" }

/-- `tupleByAddingObject:`.  `RxFiveTuple` has that of `RxTuple`. -/
def tupleByAddingObject (t : RxTuple O) (obj : Option (TupleElement O)) :
    Except NSException (RxTuple O) :=
  let newArray := arrayByAddingObject t.backingStore (.ofNil obj)
  match t.isa with
  | .tuple | .fiveTuple => tupleWithObjectsFromArray t.isa newArray false
  | .oneTuple => do
      let wrapped ← arrayLiteral newArray
      tupleWithObjectsFromArray .twoTuple (some wrapped) false
  | .twoTuple => tupleWithObjectsFromArray .threeTuple newArray false
  | .threeTuple => tupleWithObjectsFromArray .fourTuple newArray false
  | .fourTuple => tupleWithObjectsFromArray .fiveTuple newArray false

/-- The objects one after the other. -/
def byAddingObjects (t : RxTuple O) (objs : List (Option (TupleElement O))) :
    Except NSException (RxTuple O) :=
  objs.foldlM tupleByAddingObject t

/-! ## What is promised -/

/-- Adding `obj` gives a tuple with one object more, which is `obj`. -/
def AppendsObject (t : RxTuple O) (obj : Option (TupleElement O)) : Prop :=
  ∃ t', t.tupleByAddingObject obj = .ok t' ∧ t'.count = t.count + 1 ∧
    (∀ i, i < t.count → t'.objectAtIndex i = t.objectAtIndex i) ∧ t'.objectAtIndex t.count = obj

/-- Adding the objects to an empty tuple gives the tuple of these objects. -/
def AddsUp (objs : List (Option (TupleElement O))) : Prop :=
  ∃ empty t, init .tuple = .ok empty ∧ empty.byAddingObjects objs = .ok t ∧
    t.count = objs.length ∧ ∀ (i : Nat) obj, objs[i]? = some obj → t.objectAtIndex i = obj

/-- There is an array, and a class that takes one object more. -/
def Extensible (t : RxTuple O) : Prop :=
  t.isa ≠ .oneTuple ∧ t.isa ≠ .fiveTuple ∧ t.backingStore ≠ none

/-! ## A tuple as the list of its objects -/

/-- What enumeration yields. -/
def elements (t : RxTuple O) : List (TupleElement O) := t.backingStore.getD []

theorem count_eq (t : RxTuple O) : t.count = t.elements.length := by
  simp only [count, storeCount, elements]
  cases t.backingStore with
  | none => rfl
  | some store => rfl

theorem objectAtIndex_eq (t : RxTuple O) (i : Nat) :
    t.objectAtIndex i = t.elements[i]?.bind TupleElement.asNil := by
  have hcount := t.count_eq
  simp only [objectAtIndex]
  split
  next hle =>
    rw [List.getElem?_eq_none (by omega)]
    rfl
  next =>
    simp only [elements]
    cases t.backingStore with
    | none => simp
    | some store => rfl

theorem allObjects_eq (t : RxTuple O) : t.allObjects = t.elements.map TupleElement.asNull := rfl

/-- A tuple as it was made from its array. -/
theorem initWithBackingStore_eq_ok {isa : TupleClass} {store : Option (List (TupleElement O))}
    {t : RxTuple O} :
    initWithBackingStore isa store = .ok t ↔ t.isa = isa ∧ t.backingStore = store := by
  simp only [initWithBackingStore]
  constructor
  · intro h
    split at h
    next => cases h; exact ⟨rfl, rfl⟩
    next => cases h
  · rintro ⟨rfl, rfl⟩
    exact dif_pos t.accepted

theorem initWithBackingStore_ok (isa : TupleClass) (store : List (TupleElement O))
    (h : isa.Accepts store.length) :
    ∃ t, initWithBackingStore isa (some store) = .ok t ∧ t.isa = isa ∧ t.elements = store := by
  refine ⟨⟨isa, some store, h⟩, ?_, rfl, rfl⟩
  exact initWithBackingStore_eq_ok.mpr ⟨rfl, rfl⟩

theorem initWithBackingStore_error {isa : TupleClass} {store : Option (List (TupleElement O))}
    (h : ¬ isa.Accepts (storeCount store)) (t : RxTuple O) :
    initWithBackingStore isa store ≠ .ok t := by
  intro hok
  obtain ⟨rfl, rfl⟩ := initWithBackingStore_eq_ok.mp hok
  exact h t.accepted

/-- `init` passes its own assertion. -/
theorem init_ok (isa : TupleClass) : ∃ t : RxTuple O, init isa = .ok t ∧ t.isa = isa ∧
    t.elements = List.replicate (isa.arity.getD 0) .tupleNull := by
  refine initWithBackingStore_ok isa _ ?_
  intro k hk
  rw [List.length_replicate, hk, Option.getD_some]

end RxTuple

/-! ## Reading what was put in -/

theorem TupleElement.asNil_ofNil {obj : Option (TupleElement O)} :
    (TupleElement.ofNil obj).asNil = obj ↔ obj ≠ some .tupleNull := by
  cases obj with
  | none => simp [TupleElement.ofNil, TupleElement.asNil]
  | some e => cases e <;> simp [TupleElement.ofNil, TupleElement.asNil]

theorem TupleElement.asNull_asTupleNull {e : TupleElement O} (h : e ≠ .tupleNull) :
    e.asTupleNull.asNull = e := by
  cases e with
  | tupleNull => exact absurd rfl h
  | null => rfl
  | array elements => rfl
  | object o => rfl

namespace RxTuple

/-- The objects of a tuple can be read back one by one, but for the sentinel. -/
theorem objectAtIndex_of_elements {t : RxTuple O} {objs : List (Option (TupleElement O))}
    (h : t.elements = objs.map .ofNil) :
    (∀ (i : Nat) obj, objs[i]? = some obj → t.objectAtIndex i = obj) ↔
      some .tupleNull ∉ objs := by
  have hread : ∀ (i : Nat) obj, objs[i]? = some obj →
      t.objectAtIndex i = (TupleElement.ofNil obj).asNil := by
    intro i obj hi
    rw [objectAtIndex_eq, h, List.getElem?_map, hi]
    rfl
  constructor
  · intro hall hmem
    obtain ⟨i, hi⟩ := List.mem_iff_getElem?.mp hmem
    exact TupleElement.asNil_ofNil.mp ((hread i _ hi).symm.trans (hall i _ hi)) rfl
  · intro hnot i obj hi
    rw [hread i obj hi]
    refine TupleElement.asNil_ofNil.mpr ?_
    rintro rfl
    exact hnot (List.mem_of_getElem? hi)

/-- `pack:` makes the tuple of its arguments. -/
theorem pack_spec {isa : TupleClass} {objs : List (Option (TupleElement O))}
    (h : isa.Accepts objs.length) (hnull : some .tupleNull ∉ objs) :
    ∃ t, pack isa objs = .ok t ∧ t.isa = isa ∧ t.count = objs.length ∧
      ∀ (i : Nat) obj, objs[i]? = some obj → t.objectAtIndex i = obj := by
  obtain ⟨t, hok, hisa, helements⟩ := initWithBackingStore_ok isa
    (objs.map TupleElement.ofNil) (by rwa [List.length_map])
  refine ⟨t, hok, hisa, ?_, (objectAtIndex_of_elements helements).mpr hnull⟩
  rw [count_eq, helements, List.length_map]

/-- `allObjects` gives back the array a tuple was made from with its nulls as nils. -/
theorem allObjects_tupleWithObjectsFromArray {isa : TupleClass} {array : List (TupleElement O)}
    {t : RxTuple O} (h : tupleWithObjectsFromArray isa (some array) true = .ok t)
    (hnull : .tupleNull ∉ array) : t.allObjects = array := by
  obtain ⟨-, hstore⟩ := initWithBackingStore_eq_ok.mp h
  rw [allObjects_eq, elements, hstore, Option.getD_some, Option.getD_some, List.map_map]
  refine (List.map_congr_left ?_).trans (List.map_id array)
  intro e he
  refine TupleElement.asNull_asTupleNull ?_
  rintro rfl
  exact hnull he

/-! ## Adding an object -/

/-- The class of the result where there is room for one more. -/
theorem tupleByAddingObject_ok {t : RxTuple O} (h : t.Extensible)
    (obj : Option (TupleElement O)) :
    ∃ t', t.tupleByAddingObject obj = .ok t' ∧ t'.elements = t.elements ++ [.ofNil obj] ∧
      (t.isa = .tuple → t'.isa = .tuple) ∧ t'.backingStore ≠ none := by
  obtain ⟨isa, store, accepted⟩ := t
  obtain ⟨hone, hfive, hstore⟩ := h
  obtain ⟨l, rfl⟩ := Option.ne_none_iff_exists'.mp hstore
  have hadd : ∀ isa', isa'.Accepts (l.length + 1) → (isa = .tuple → isa' = .tuple) →
      ∃ t', initWithBackingStore isa' (some (l ++ [.ofNil obj])) = .ok t' ∧
        t'.elements = l ++ [.ofNil obj] ∧ (isa = .tuple → t'.isa = .tuple) ∧
        t'.backingStore ≠ none := by
    intro isa' haccepts hsame
    have haccepts' : isa'.Accepts (storeCount (some (l ++ [.ofNil obj]))) := by
      simpa [storeCount] using haccepts
    exact ⟨⟨isa', some _, haccepts'⟩, initWithBackingStore_eq_ok.mpr ⟨rfl, rfl⟩, rfl, hsame,
      Option.some_ne_none _⟩
  have hlength : ∀ k, isa.arity = some k → l.length = k := accepted
  cases isa with
  | tuple => exact hadd .tuple (fun k hk => nomatch hk) fun h => h
  | oneTuple => exact absurd rfl hone
  | twoTuple => exact hadd .threeTuple (fun k hk => by cases hk; simp [hlength 2 rfl]) nofun
  | threeTuple => exact hadd .fourTuple (fun k hk => by cases hk; simp [hlength 3 rfl]) nofun
  | fourTuple => exact hadd .fiveTuple (fun k hk => by cases hk; simp [hlength 4 rfl]) nofun
  | fiveTuple => exact absurd rfl hfive

/-- Elsewhere the assertion fails, or there is no object more than before. -/
theorem extensible_of_ok {t t' : RxTuple O} {obj : Option (TupleElement O)}
    (h : t.tupleByAddingObject obj = .ok t') (hcount : t'.count = t.count + 1) :
    t.Extensible := by
  obtain ⟨isa, store, accepted⟩ := t
  refine ⟨?_, ?_, ?_⟩
  · rintro rfl
    cases store with
    | none => cases accepted 1 rfl
    | some l =>
        -- the literal holds the new array, and nothing else
        have hwrapped : initWithBackingStore .twoTuple (some [.array (l ++ [.ofNil obj])]) = .ok t' :=
          h
        refine initWithBackingStore_error ?_ t' hwrapped
        intro haccepts
        cases haccepts 2 rfl
  · rintro rfl
    have hsame : initWithBackingStore .fiveTuple (arrayByAddingObject store (.ofNil obj)) = .ok t' :=
      h
    refine initWithBackingStore_error ?_ t' hsame
    intro haccepts
    have hfive : storeCount store = 5 := accepted 5 rfl
    have hsix := haccepts 5 rfl
    cases store with
    | none => cases hfive
    | some l =>
        simp only [arrayByAddingObject, storeCount, Option.map_some, Option.elim_some,
          List.length_append, List.length_singleton] at hfive hsix
        omega
  · rintro rfl
    cases TupleClass.eq_tuple_of_accepts_zero accepted
    have hnil : initWithBackingStore .tuple none = .ok t' := h
    obtain ⟨-, hstore⟩ := initWithBackingStore_eq_ok.mp hnil
    simp [count, storeCount, hstore] at hcount

theorem appendsObject_iff (t : RxTuple O) (obj : Option (TupleElement O)) :
    t.AppendsObject obj ↔ t.Extensible ∧ obj ≠ some .tupleNull := by
  constructor
  · rintro ⟨t', hok, hcount, -, hlast⟩
    have hext := extensible_of_ok hok hcount
    obtain ⟨u, hu, helements, -⟩ := tupleByAddingObject_ok hext obj
    cases hok.symm.trans hu
    rw [objectAtIndex_eq, helements, count_eq, List.getElem?_concat_length] at hlast
    exact ⟨hext, TupleElement.asNil_ofNil.mp hlast⟩
  · rintro ⟨hext, hnull⟩
    obtain ⟨t', hok, helements, -⟩ := tupleByAddingObject_ok hext obj
    refine ⟨t', hok, ?_, ?_, ?_⟩
    · rw [count_eq, count_eq, helements, List.length_append, List.length_singleton]
    · intro i hi
      rw [count_eq] at hi
      rw [objectAtIndex_eq, objectAtIndex_eq, helements, List.getElem?_append_left hi]
    · rw [objectAtIndex_eq, helements, count_eq, List.getElem?_concat_length]
      exact TupleElement.asNil_ofNil.mpr hnull

/-- A plain tuple with an array takes any number of objects. -/
theorem byAddingObjects_ok (objs : List (Option (TupleElement O))) :
    ∀ {t : RxTuple O}, t.isa = .tuple → t.backingStore ≠ none →
      ∃ t', t.byAddingObjects objs = .ok t' ∧ t'.elements = t.elements ++ objs.map .ofNil := by
  induction objs with
  | nil =>
      intro t _ _
      exact ⟨t, rfl, by simp⟩
  | cons obj objs ih =>
      intro t hisa hstore
      obtain ⟨u, hu, helements, hsame, hustore⟩ :=
        tupleByAddingObject_ok (t := t) ⟨by simp [hisa], by simp [hisa], hstore⟩ obj
      obtain ⟨t', hok, helements'⟩ := ih (hsame hisa) hustore
      refine ⟨t', ?_, ?_⟩
      · rw [byAddingObjects, List.foldlM_cons, hu, ok_bind]
        exact hok
      · simp [helements', helements]

theorem addsUp_iff (objs : List (Option (TupleElement O))) :
    AddsUp objs ↔ some .tupleNull ∉ objs := by
  obtain ⟨empty, hinit, hisa, hempty⟩ := init_ok (O := O) .tuple
  have hstore : empty.backingStore ≠ none := by
    rw [(initWithBackingStore_eq_ok.mp hinit).2]
    exact Option.some_ne_none _
  obtain ⟨t, hok, helements⟩ := byAddingObjects_ok objs hisa hstore
  rw [hempty] at helements
  have hread := objectAtIndex_of_elements (show t.elements = objs.map .ofNil from helements)
  constructor
  · rintro ⟨empty', t', hinit', hok', -, hall⟩
    cases hinit.symm.trans hinit'
    cases hok.symm.trans hok'
    exact hread.mp hall
  · intro hnull
    refine ⟨empty, t, hinit, hok, ?_, hread.mpr hnull⟩
    rw [count_eq, helements]
    simp [TupleClass.arity]

end RxTuple

/-- Adding an object to a tuple gives the tuple with this object at its end, exactly
if the tuple is none of the two classes that get their result's class wrong, has its
array, and the object is not the sentinel for `nil`; and adding objects to an empty
tuple gives the tuple of them, exactly if the sentinel is not among them. -/
theorem RxTuple.tupleByAddingObject_iff (O : Type) :
    (∀ (t : RxTuple O) obj, t.AppendsObject obj ↔ t.Extensible ∧ obj ≠ some .tupleNull) ∧
      ∀ objs : List (Option (TupleElement O)), AddsUp objs ↔ some .tupleNull ∉ objs :=
  ⟨appendsObject_iff, addsUp_iff⟩

end

/-- `[[RxOneTuple pack:@1] tupleByAddingObject:@2]` raises. -/
theorem RxTuple.oneTuple_raises :
    ∃ t : RxTuple Nat, pack .oneTuple [some (.object 1)] = .ok t ∧
      t.tupleByAddingObject (some (.object 2)) = .error (parameterAssertion 2) ∧
      ¬ t.AppendsObject (some (.object 2)) := by
  refine ⟨⟨.oneTuple, some [.object 1], by decide⟩, rfl, rfl, ?_⟩
  rintro ⟨t', hok, -⟩
  cases hok

end Rx
