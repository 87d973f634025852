/-
# `RxFoundation.DictionaryMap` — what a dictionary is for

The purpose of the dictionary classes, in its own terms: an object is a finite
partial map from keys up to `isEqual` to the pair stored under them, and every
operation is an operation on such maps.  No bucket, no counter and no hash
occurs here.
-/
import Mathlib.Data.Finmap
import CrashRealm.RxFoundation.HashClass
import CrashRealm.RxFoundation.BasicHashLookup

namespace Rx

variable {K V : Type}

/-- A finite partial map from key classes to pairs. -/
abbrev DictMap (T : TableType K V) : Type := Finmap fun _ : KeyClass T => Bucket K V

namespace DictMap

variable {T : TableType K V}

/-- The number of keys. -/
def size (m : DictMap T) : Nat := m.keys.card

/-- The map and pair after asking for `key` where `fresh` is stored if it is absent. -/
def getOrStore (m : DictMap T) (fresh : Bucket K V) : DictMap T × Bucket K V × Bool :=
  match m.lookup (bucketClass T fresh) with
  | some b => (m, b, false)
  | none => (m.insert (bucketClass T fresh) fresh, fresh, true)

/-- What a call does to the map, and its answer. -/
def call (m : DictMap T) : Call K V → DictMap T × Answer K V
  | .insert key value =>
      let (m, b, isNew) := m.getOrStore ⟨key, value⟩
      (m, .inserted b isNew)
  | .erase key => (m.erase (classOf T key), .flag (m.lookup (classOf T key)).isSome)
  | .findAndConstruct key =>
      let (m, b, _) := m.getOrStore ⟨key, T.defaultValue⟩
      (m, .bucket b)
  | .subscript key =>
      let (m, b, _) := m.getOrStore ⟨key, T.defaultValue⟩
      (m, .value b.value)
  | .store key value =>
      let (m, b, _) := m.getOrStore ⟨key, T.defaultValue⟩
      (m.insert (classOf T key) { b with value := value }, .none)
  | .find key => (m, .found (m.lookup (classOf T key)))
  | .count key => (m, .number (if (m.lookup (classOf T key)).isSome then 1 else 0))
  | .size => (m, .number m.size)
  | .clear => (∅, .none)
  | .reserve _ => (m, .none)

/-- What an operation does to the maps of a program.  A moved-from map is empty. -/
def step (maps : List (DictMap T)) : Op K V → List (DictMap T) × Answer K V
  | .construct _ => (maps ++ [∅], .none)
  | .copyConstruct i => (maps ++ [maps.getD i ∅], .none)
  | .moveConstruct i => (maps.set i ∅ ++ [maps.getD i ∅], .none)
  | .assign i j => (maps.set i (maps.getD j ∅), .none)
  | .moveAssign i j =>
      ((maps.set j ∅).set i (if i = j then ∅ else maps.getD j ∅), .none)
  | .swap i j => ((maps.set j (maps.getD i ∅)).set i (maps.getD j ∅), .none)
  | .on i c =>
      let (m, a) := (maps.getD i ∅).call c
      (maps.set i m, a)

/-- A program on maps. -/
def run (maps : List (DictMap T)) : List (Op K V) → List (DictMap T) × List (Answer K V)
  | [] => (maps, [])
  | op :: ops =>
      let (maps, a) := step maps op
      let (maps, as) := run maps ops
      (maps, a :: as)

end DictMap

/-! ## Programs a caller may write -/

namespace Call

/-- The key a call names. -/
def key? : Call K V → Option K
  | .insert key _ | .erase key | .findAndConstruct key | .subscript key | .store key _
  | .find key | .count key => some key
  | .size | .clear | .reserve _ => none

/-- The key a call stores when it is absent. -/
def stored? : Call K V → Option K
  | .insert key _ | .findAndConstruct key | .subscript key | .store key _ => some key
  | .erase _ | .find _ | .count _ | .size | .clear | .reserve _ => none

/-- The key a call names is neither sentinel. -/
def Proper (T : TableType K V) (c : Call K V) : Prop := ∀ k ∈ c.key?, Ordinary T k

instance (T : TableType K V) (c : Call K V) : Decidable (c.Proper T) :=
  inferInstanceAs (Decidable (∀ k ∈ c.key?, Ordinary T k))

end Call

namespace Op

/-- The operation names objects there are, and a key that is neither sentinel. -/
def Proper (T : TableType K V) (numObjects : Nat) : Op K V → Prop
  | .construct _ => True
  | .copyConstruct i => i < numObjects
  | .moveConstruct i => i < numObjects
  | .assign i j => i < numObjects ∧ j < numObjects
  | .moveAssign i j => i < numObjects ∧ j < numObjects
  | .swap i j => i < numObjects ∧ j < numObjects
  | .on i c => i < numObjects ∧ c.Proper T

instance (T : TableType K V) (numObjects : Nat) :
    ∀ op : Op K V, Decidable (op.Proper T numObjects)
  | .construct _ => inferInstanceAs (Decidable True)
  | .copyConstruct _ => inferInstanceAs (Decidable (_ < _))
  | .moveConstruct _ => inferInstanceAs (Decidable (_ < _))
  | .assign _ _ => inferInstanceAs (Decidable (_ ∧ _))
  | .moveAssign _ _ => inferInstanceAs (Decidable (_ ∧ _))
  | .swap _ _ => inferInstanceAs (Decidable (_ ∧ _))
  | .on _ _ => inferInstanceAs (Decidable (_ ∧ _))

/-- The number of objects after the operation. -/
def objectsAfter (numObjects : Nat) : Op K V → Nat
  | .construct _ | .copyConstruct _ | .moveConstruct _ => numObjects + 1
  | .assign _ _ | .moveAssign _ _ | .swap _ _ | .on _ _ => numObjects

end Op

/-- Every operation of a program is proper. -/
def ProperProgram (T : TableType K V) : Nat → List (Op K V) → Prop
  | _, [] => True
  | numObjects, op :: ops =>
      op.Proper T numObjects ∧ ProperProgram T (op.objectsAfter numObjects) ops

instance ProperProgram.decidable (T : TableType K V) :
    ∀ (numObjects : Nat) (ops : List (Op K V)), Decidable (ProperProgram T numObjects ops)
  | _, [] => inferInstanceAs (Decidable True)
  | numObjects, op :: ops =>
      have := ProperProgram.decidable T (op.objectsAfter numObjects) ops
      inferInstanceAs (Decidable (_ ∧ _))

theorem DictMap.length_step {T : TableType K V} (maps : List (DictMap T)) (op : Op K V) :
    (DictMap.step maps op).1.length = op.objectsAfter maps.length := by
  cases op <;> simp [DictMap.step, Op.objectsAfter]

/-- Every operation is proper, and every map the program goes through has fewer
than `limit` keys. -/
def DictMap.Admissible {T : TableType K V} (limit : Nat) (maps : List (DictMap T)) :
    List (Op K V) → Prop
  | [] => ∀ m ∈ maps, m.size < limit
  | op :: ops => (∀ m ∈ maps, m.size < limit) ∧ op.Proper T maps.length ∧
      Admissible limit (DictMap.step maps op).1 ops

instance DictMap.decidableAdmissible {T : TableType K V} (limit : Nat) :
    ∀ (ops : List (Op K V)) (maps : List (DictMap T)),
      Decidable (DictMap.Admissible limit maps ops)
  | [], maps => inferInstanceAs (Decidable (∀ m ∈ maps, m.size < limit))
  | op :: ops, maps =>
      have := decidableAdmissible limit ops (DictMap.step maps op).1
      inferInstanceAs (Decidable (_ ∧ _ ∧ _))

end Rx
