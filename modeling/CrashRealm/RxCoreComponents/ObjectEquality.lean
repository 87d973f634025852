/-
# `RxCoreComponents.ObjectEquality` — `RxObjectIsEqual` over a tree of classes

`RxObjectIsEqual` calls the comparison of `NSString`, `NSNumber` and so on without a
message send, where the class it would send to is exactly that one.  Before it looks
for one it wants the classes of the two objects in line: one a subclass of the other,
the operands swapped if need be, and `NO` if neither is.

Foundation has several concrete classes under each of its public ones, so two equal
strings may well be of two classes of which neither inherits from the other.
`RxObjectIsEqual_iff` says that this is where the fast path and `isEqual:` part.

What Foundation does is a parameter: the class of an object, `isEqual:`, and the
methods the function has looked up.  What is documented of it is `ComparesContents`.
-/
import Mathlib.Logic.Basic

namespace Rx

/-- A class with its superclasses. -/
inductive ObjcClass where
  | root (name : String)
  | subclass (name : String) (superclass : ObjcClass)
  deriving DecidableEq, Repr

/-- `[class0 isSubclassOfClass:class1]`: the same class, or below it. -/
def ObjcClass.isSubclassOfClass : ObjcClass → ObjcClass → Bool
  | .root name, class1 => .root name = class1
  | .subclass name superclass, class1 =>
      .subclass name superclass = class1 || superclass.isSubclassOfClass class1

@[simp] theorem ObjcClass.isSubclassOfClass_refl (class0 : ObjcClass) :
    class0.isSubclassOfClass class0 = true := by
  cases class0 with
  | root name => simp [isSubclassOfClass]
  | subclass name superclass => simp [isSubclassOfClass]

/-- The families of values, in the order in which the function asks for them. -/
inductive ValueFamily where
  | string
  | number
  | value
  | date
  | array
  | set
  | data
  | dictionary
  deriving DecidableEq, Repr

namespace ObjcClass

def NSObjectClass : ObjcClass := .root "NSObject"
def NSStringClass : ObjcClass := .subclass "NSString" NSObjectClass
def NSValueClass : ObjcClass := .subclass "NSValue" NSObjectClass
def NSNumberClass : ObjcClass := .subclass "NSNumber" NSValueClass
def NSDateClass : ObjcClass := .subclass "NSDate" NSObjectClass
def NSArrayClass : ObjcClass := .subclass "NSArray" NSObjectClass
def NSSetClass : ObjcClass := .subclass "NSSet" NSObjectClass
def NSDataClass : ObjcClass := .subclass "NSData" NSObjectClass
def NSDictionaryClass : ObjcClass := .subclass "NSDictionary" NSObjectClass

end ObjcClass

open ObjcClass

/-- The public class of a family. -/
def ValueFamily.publicClass : ValueFamily → ObjcClass
  | string => NSStringClass
  | number => NSNumberClass
  | value => NSValueClass
  | date => NSDateClass
  | array => NSArrayClass
  | set => NSSetClass
  | data => NSDataClass
  | dictionary => NSDictionaryClass

/-- Objects with their classes and contents; `isEqual:`, and the implementations in the
public classes of `isEqualToString:` to `isEqualToDictionary:`. -/
structure Foundation (V C : Type) where
  classOf : V → ObjcClass
  content : V → C
  isEqual : V → V → Bool
  equalIMP : ValueFamily → V → V → Bool

namespace Foundation

section

variable {V C : Type} (F : Foundation V C)

/-- The implementation picked by the class. -/
def impOfClass (class1 : ObjcClass) : Option ValueFamily :=
  if class1 = NSStringClass then some .string
  else if class1 = NSNumberClass then some .number
  else if class1 = NSValueClass then some .value
  else if class1 = NSDateClass then some .date
  else if class1 = NSArrayClass then some .array
  else if class1 = NSSetClass then some .set
  else if class1 = NSDataClass then some .data
  else if class1 = NSDictionaryClass then some .dictionary
  else none

/-- `imp(val0, @selector(isEqual:), val1)`, or the message; `class1` is that of `val1`. -/
def compare (val0 val1 : V) (class1 : ObjcClass) : Bool :=
  match impOfClass class1 with
  | some family => F.equalIMP family val0 val1
  | none => F.isEqual val0 val1

def RxObjectIsEqual [DecidableEq V] : Option V → Option V → Bool
  | none, none => true
  | none, some _ | some _, none => false
  | some val0, some val1 =>
      if val0 = val1 then true
      else
        let class0 := F.classOf val0
        let class1 := F.classOf val1
        if class0.isSubclassOfClass class1 then F.compare val0 val1 class1
        else if class1.isSubclassOfClass class0 then F.compare val1 val0 class0
        else false

/-! ## What is documented, and what is promised -/

/-- The object is of the family, by whatever concrete class. -/
def Belongs (family : ValueFamily) (val : V) : Prop :=
  (F.classOf val).isSubclassOfClass family.publicClass = true

/-- Within a family, `isEqual:` and the method of the public class compare contents. -/
structure ComparesContents : Prop where
  isEqual : ∀ family a b, F.Belongs family a → F.Belongs family b →
    (F.isEqual a b = true ↔ F.content a = F.content b)
  equalIMP : ∀ family a b, F.Belongs family a → F.Belongs family b →
    (F.equalIMP family a b = true ↔ F.content a = F.content b)

/-- The fast path gives what `isEqual:` gives, and the same both ways round. -/
def AgreesOn [DecidableEq V] (a b : V) : Prop :=
  F.RxObjectIsEqual (some a) (some b) = F.isEqual a b ∧
    F.RxObjectIsEqual (some a) (some b) = F.RxObjectIsEqual (some b) (some a)

/-- The class of one object inherits from that of the other. -/
def InLine (a b : V) : Prop :=
  (F.classOf a).isSubclassOfClass (F.classOf b) = true ∨
    (F.classOf b).isSubclassOfClass (F.classOf a) = true

/-! ## The comparison that is picked -/

theorem publicClass_of_impOfClass {class1 : ObjcClass} {family : ValueFamily}
    (h : impOfClass class1 = some family) : class1 = family.publicClass := by
  simp only [impOfClass] at h
  -- one test after the other, and what is left
  iterate 8
    split at h
    next hclass => cases h; exact hclass
  cases h

variable {F}

/-- Where the classes are in line, the method that is picked compares contents. -/
theorem compare_iff (hF : F.ComparesContents) {family : ValueFamily} {a b : V}
    (ha : F.Belongs family a) (hb : F.Belongs family b)
    (hline : (F.classOf a).isSubclassOfClass (F.classOf b) = true) :
    F.compare a b (F.classOf b) = true ↔ F.content a = F.content b := by
  simp only [compare]
  cases himp : impOfClass (F.classOf b) with
  | none => exact hF.isEqual family a b ha hb
  | some picked =>
      have hclass := publicClass_of_impOfClass himp
      have ha' : F.Belongs picked a := by
        rw [Belongs, ← hclass]
        exact hline
      have hb' : F.Belongs picked b := by
        rw [Belongs, ← hclass]
        exact isSubclassOfClass_refl _
      exact hF.equalIMP picked a b ha' hb'

/-- The function on two objects of one family. -/
theorem RxObjectIsEqual_eq_true [DecidableEq V] (hF : F.ComparesContents)
    {family : ValueFamily} {a b : V} (ha : F.Belongs family a) (hb : F.Belongs family b) :
    F.RxObjectIsEqual (some a) (some b) = true ↔ F.InLine a b ∧ F.content a = F.content b := by
  simp only [RxObjectIsEqual, InLine]
  split
  next hab =>
    subst hab
    simp
  next =>
    split
    next hline => simp [hline, compare_iff hF ha hb hline]
    next hnot =>
      split
      next hline =>
        rw [compare_iff hF hb ha hline]
        exact ⟨fun h => ⟨.inr hline, h.symm⟩, fun h => h.2.symm⟩
      next hnot' => simp [hnot, hnot']

theorem InLine.symm {a b : V} (h : F.InLine a b) : F.InLine b a := Or.symm h

theorem RxObjectIsEqual_comm [DecidableEq V] (hF : F.ComparesContents)
    {family : ValueFamily} {a b : V} (ha : F.Belongs family a) (hb : F.Belongs family b) :
    F.RxObjectIsEqual (some a) (some b) = F.RxObjectIsEqual (some b) (some a) := by
  rw [Bool.eq_iff_iff, RxObjectIsEqual_eq_true hF ha hb, RxObjectIsEqual_eq_true hF hb ha]
  constructor
  · rintro ⟨hline, hcontent⟩
    exact ⟨hline.symm, hcontent.symm⟩
  · rintro ⟨hline, hcontent⟩
    exact ⟨hline.symm, hcontent.symm⟩

end

/-- On two values of one family, `RxObjectIsEqual` is `isEqual:` both ways round,
exactly if the class of one inherits from that of the other or their contents differ. -/
theorem RxObjectIsEqual_iff (V C : Type) [DecidableEq V] (F : Foundation V C)
    (hF : F.ComparesContents) (family : ValueFamily) (a b : V) (ha : F.Belongs family a)
    (hb : F.Belongs family b) :
    F.AgreesOn a b ↔ F.InLine a b ∨ F.content a ≠ F.content b := by
  have hfast := RxObjectIsEqual_eq_true hF ha hb
  have hplain := hF.isEqual family a b ha hb
  constructor
  · rintro ⟨hagree, -⟩
    rcases Classical.em (F.content a = F.content b) with hcontent | hcontent
    · exact .inl (hfast.mp (hagree.trans (hplain.mpr hcontent))).1
    · exact .inr hcontent
  · intro h
    refine ⟨?_, RxObjectIsEqual_comm hF ha hb⟩
    rw [Bool.eq_iff_iff, hfast, hplain]
    constructor
    · exact fun h => h.2
    · intro hcontent
      rcases h with hline | hdiffer
      · exact ⟨hline, hcontent⟩
      · exact absurd hcontent hdiffer

/-! ## Strings of three classes -/

/-- Objects that are their class and their contents. -/
def sample : Foundation (ObjcClass × String) String where
  classOf := Prod.fst
  content := Prod.snd
  isEqual a b := a.2 = b.2
  equalIMP _ a b := a.2 = b.2

theorem sample_comparesContents : sample.ComparesContents where
  isEqual := by
    intro family a b _ _
    simp [sample]
  equalIMP := by
    intro family a b _ _
    simp [sample]

def NSMutableStringClass : ObjcClass := .subclass "NSMutableString" NSStringClass
def NSCFStringClass : ObjcClass := .subclass "__NSCFString" NSMutableStringClass
def NSTaggedPointerStringClass : ObjcClass := .subclass "NSTaggedPointerString" NSStringClass

theorem RxObjectIsEqual_iff_inLine :
    sample.AgreesOn (NSCFStringClass, "pod") (NSMutableStringClass, "pod") :=
  (RxObjectIsEqual_iff _ _ sample sample_comparesContents .string (NSCFStringClass, "pod")
    (NSMutableStringClass, "pod") rfl rfl).mpr (.inl (.inl rfl))

/-- Two strings with the same contents, one of them in a tagged pointer. -/
theorem RxObjectIsEqual_siblings :
    let a := (NSCFStringClass, "pod")
    let b := (NSTaggedPointerStringClass, "pod")
    sample.ComparesContents ∧ sample.Belongs .string a ∧ sample.Belongs .string b ∧
      sample.isEqual a b = true ∧ sample.RxObjectIsEqual (some a) (some b) = false ∧
      ¬ sample.AgreesOn a b := by
  intro a b
  refine ⟨sample_comparesContents, rfl, rfl, rfl, rfl, ?_⟩
  rintro ⟨hagree, -⟩
  cases hagree

end Foundation

end Rx
