/-
# `RxFoundation.GetNextIds` — many ids at once

`IdGeneratorInterface::getNextIds` calls `getNextId` in a loop that appends an
id and only then asks whether it was the sentinel.  On one thread the calls of
an `IntegerIdGenerator` return what `getNextId` computes (`run_getNextId`): the
next number, or `InvalidId` once the largest is out.

A request that can be met is met (`loop_of_le`).  One that cannot appends what
is left and then the sentinel itself (`loop_of_lt`).
-/
import CrashRealm.RxFoundation.IdGenerator
import Mathlib.Algebra.Group.Nat.Defs

namespace Rx

/-- The `do … while`: `size` more ids, or up to the first that is `invalid`. -/
def getNextIdsLoop {S I : Type} [DecidableEq I] (getNextId : S → S × I) (invalid : I) :
    (size : Nat) → S → List I → S × List I × Bool
  | 0, s, ids => (s, ids, true)
  | size + 1, s, ids =>
      let (s, id) := getNextId s
      if size ≠ 0 ∧ id ≠ invalid then getNextIdsLoop getNextId invalid size s (ids ++ [id])
      else (s, ids ++ [id], size == 0 && id != invalid)

/-- `IdGeneratorInterface::getNextIds`: the generator, the array and the answer. -/
def getNextIds {S I : Type} [DecidableEq I] (getNextId : S → S × I) (invalid : I) (s : S)
    (ids : List I) (size : UInt64) : S × List I × Bool :=
  if size = 0 then (s, ids, true) else getNextIdsLoop getNextId invalid size.toNat s ids

namespace IntegerIdGenerator

/-- `getNextId` on one thread. -/
def getNextId (id : UInt64) : UInt64 × UInt64 :=
  if id < maxId then (id + 1, id + 1) else (id, InvalidId)

/-- The default argument `invalid` is the sentinel. -/
def getNextIds (id : UInt64) (ids : List UInt64) (size : UInt64) : UInt64 × List UInt64 × Bool :=
  Rx.getNextIds getNextId InvalidId id ids size

/-- The ids that are left after `id`. -/
def left (id : UInt64) : Nat := maxId.toNat - id.toNat

/-! ## One call -/

/-- The atomic operations of a call no other thread's come between. -/
def operations {T : Type} [DecidableEq T] (s : System T) (t : T) : List (Action T) :=
  if s.id < maxId then [.load t, .increment t, .reload t] else [.load t]

theorem run_getNextId {T : Type} [DecidableEq T] (s : System T) {t : T}
    (ht : s.place t = .outside) :
    (operations s t).foldl System.step s =
      { s with id := (getNextId s.id).1, returned := s.returned ++ [(getNextId s.id).2] } := by
  have hplace : Function.update s.place t .outside = s.place := by
    rw [← ht, Function.update_eq_self]
  by_cases hlt : s.id < maxId
  · simp only [operations, getNextId, if_pos hlt, List.foldl_cons, List.foldl_nil, System.step,
      System.ret, System.setPlace, Function.update_idem, hplace]
  · simp only [operations, getNextId, if_neg hlt, List.foldl_cons, List.foldl_nil, System.step,
      System.ret, System.setPlace, hplace]

theorem maxId_toNat : maxId.toNat = 2 ^ 64 - 1 := rfl

section Call
variable {id : UInt64}

theorem lt_maxId_iff : id < maxId ↔ 0 < left id := by
  rw [UInt64.lt_iff_toNat_lt, left]
  omega

theorem getNextId_of_lt (hlt : 0 < left id) : getNextId id = (id + 1, id + 1) :=
  if_pos (lt_maxId_iff.mpr hlt)

theorem getNextId_of_max (hmax : left id = 0) : getNextId id = (id, InvalidId) :=
  if_neg fun hlt => Nat.ne_of_gt (lt_maxId_iff.mp hlt) hmax

theorem toNat_succ (hlt : 0 < left id) : (id + 1).toNat = id.toNat + 1 := by
  rw [left, maxId_toNat] at hlt
  have hone : (1 : UInt64).toNat = 1 := rfl
  rw [UInt64.toNat_add, hone, Nat.mod_eq_of_lt (by omega)]

theorem left_succ (hlt : 0 < left id) : left (id + 1) = left id - 1 := by
  rw [left, left, toNat_succ hlt]
  omega

theorem succ_ne_invalid (hlt : 0 < left id) : id + 1 ≠ InvalidId := by
  intro h
  have hzero : (id + 1).toNat = 0 := congrArg UInt64.toNat h
  rw [toNat_succ hlt] at hzero
  cases hzero

end Call

/-! ## The loop -/

/-- The ids after `id`, the next `n` of them. -/
def following (id : UInt64) : Nat → List UInt64
  | 0 => []
  | n + 1 => (id + 1) :: following (id + 1) n

theorem length_following (n : Nat) : ∀ id, (following id n).length = n := by
  induction n with
  | zero => exact fun _ => rfl
  | succ n ih => exact fun id => congrArg Nat.succ (ih (id + 1))

theorem toNat_following (n : Nat) : ∀ {id : UInt64}, n ≤ left id →
    (following id n).map UInt64.toNat = List.range' (id.toNat + 1) n := by
  induction n with
  | zero => exact fun _ => rfl
  | succ n ih =>
      intro id hle
      have hpos : 0 < left id := by omega
      rw [following, List.map_cons, ih (by rw [left_succ hpos]; omega), toNat_succ hpos,
        List.range'_succ]

/-- A request within what is left is met. -/
theorem loop_of_le (size : Nat) : ∀ {id : UInt64} {ids : List UInt64}, size ≤ left id →
    ∃ last, last.toNat = id.toNat + size ∧
      getNextIdsLoop getNextId InvalidId size id ids = (last, ids ++ following id size, true) := by
  induction size with
  | zero => exact fun {id ids} _ => ⟨id, rfl, by rw [following, List.append_nil]; rfl⟩
  | succ size ih =>
      intro id ids hle
      have hpos : 0 < left id := by omega
      rw [getNextIdsLoop, getNextId_of_lt hpos]
      dsimp only
      split
      next =>
        obtain ⟨last, hlast, hloop⟩ := @ih (id + 1) (ids ++ [id + 1]) (by
          rw [left_succ hpos]
          omega)
        refine ⟨last, by rw [hlast, toNat_succ hpos]; omega, ?_⟩
        rw [hloop, following, List.append_assoc]
        rfl
      next hend =>
        have hzero : size = 0 := by
          by_contra hne
          exact hend ⟨hne, succ_ne_invalid hpos⟩
        subst hzero
        refine ⟨id + 1, toNat_succ hpos, ?_⟩
        rw [bne_iff_ne.mpr (succ_ne_invalid hpos)]
        rfl

/-- One past that gets all that are left, and then the sentinel. -/
theorem loop_of_lt (size : Nat) : ∀ {id : UInt64} {ids : List UInt64}, left id < size →
    ∃ last, last.toNat = maxId.toNat ∧
      getNextIdsLoop getNextId InvalidId size id ids =
        (last, ids ++ (following id (left id) ++ [InvalidId]), false) := by
  induction size with
  | zero => exact fun hlt => absurd hlt (Nat.not_lt_zero _)
  | succ size ih =>
      intro id ids hlt
      rw [getNextIdsLoop]
      rcases Nat.eq_zero_or_pos (left id) with hmax | hpos
      · rw [getNextId_of_max hmax, hmax]
        have hid : id.toNat = maxId.toNat := by
          have hle := UInt64.le_iff_toNat_le.mp (le_maxId id)
          rw [left] at hmax
          omega
        refine ⟨id, hid, ?_⟩
        dsimp only
        rw [if_neg fun h => h.2 rfl, bne_self_eq_false, Bool.and_false]
        rfl
      · rw [getNextId_of_lt hpos]
        dsimp only
        rw [if_pos ⟨by omega, succ_ne_invalid hpos⟩]
        obtain ⟨last, hlast, hloop⟩ := @ih (id + 1) (ids ++ [id + 1]) (by
          rw [left_succ hpos]
          omega)
        refine ⟨last, hlast, ?_⟩
        have hleft : left id = left (id + 1) + 1 := by
          rw [left_succ hpos]
          omega
        rw [hloop, hleft, following, List.append_assoc]
        rfl

/-! ## The request -/

/-- What a request is answered with: ids in increasing order from the last one issued, all
of the request if so many are left, and valid ones whatever the answer. -/
structure Granted (id : UInt64) (ids : List UInt64) (size : UInt64)
    (r : UInt64 × List UInt64 × Bool) : Prop where
  keeps : ids <+: r.2.1
  following : ∃ n, (r.2.1.drop ids.length).map UInt64.toNat = List.range' (id.toNat + 1) n
  answer : r.2.2 = true ↔ size.toNat ≤ left id
  all : r.2.2 = true → (r.2.1.drop ids.length).length = size.toNat ∧
    (r.2.1.drop ids.length).Nodup
  valid : ∀ new ∈ r.2.1.drop ids.length, new ≠ InvalidId

/-- A number that is not met without the sentinel. -/
theorem Granted.of_following {id : UInt64} {ids : List UInt64} {size last : UInt64}
    (hle : size.toNat ≤ left id) :
    Granted id ids size (last, ids ++ IntegerIdGenerator.following id size.toNat, true) := by
  have hnew : (ids ++ IntegerIdGenerator.following id size.toNat).drop ids.length =
      IntegerIdGenerator.following id size.toNat := List.drop_left
  have hnats := toNat_following size.toNat hle
  refine ⟨List.prefix_append _ _, ⟨size.toNat, ?_⟩, iff_of_true rfl hle, fun _ => ⟨?_, ?_⟩, ?_⟩
  · rw [hnew, hnats]
  · rw [hnew, length_following]
  · rw [hnew]
    refine List.Nodup.of_map UInt64.toNat ?_
    rw [hnats]
    exact List.nodup_range'
  · intro new hmem hzero
    rw [hnew] at hmem
    have hin := List.mem_map_of_mem (f := UInt64.toNat) hmem
    rw [hnats, hzero, List.mem_range'_1] at hin
    exact absurd hin.1 (Nat.not_succ_le_zero _)

/-- A request is answered as it is to be exactly if so many ids are left. -/
theorem granted_iff (id : UInt64) (ids : List UInt64) (size : UInt64) :
    Granted id ids size (getNextIds id ids size) ↔ size.toNat ≤ left id := by
  constructor
  · intro hgranted
    by_contra hle
    obtain ⟨last, -, hloop⟩ := @loop_of_lt size.toNat id ids (Nat.not_le.mp hle)
    have hpos : size ≠ 0 := by
      rintro rfl
      exact hle (Nat.zero_le _)
    have hres : getNextIds id ids size = _ := (if_neg hpos).trans hloop
    rw [hres] at hgranted
    refine hgranted.valid InvalidId ?_ rfl
    rw [List.drop_left]
    exact List.mem_append_right _ (List.mem_singleton_self _)
  · intro hle
    by_cases hzero : size = 0
    · subst hzero
      have hres : getNextIds id ids 0 = (id, ids ++ following id (0 : UInt64).toNat, true) := by
        rw [show following id (0 : UInt64).toNat = [] from rfl, List.append_nil]
        rfl
      rw [hres]
      exact Granted.of_following hle
    · obtain ⟨last, -, hloop⟩ := @loop_of_le size.toNat id ids hle
      have hres : getNextIds id ids size = _ := (if_neg hzero).trans hloop
      rw [hres]
      exact Granted.of_following hle

/-- With one id left, a request for two appends that and the sentinel. -/
theorem getNextIds_exhausted : getNextIds (maxId - 1) [] 2 = (maxId, [maxId, InvalidId], false) ∧
    ¬ ∀ id ids size, Granted id ids size (getNextIds id ids size) := by
  refine ⟨by decide, fun h => ?_⟩
  exact absurd ((h (maxId - 1) [] 2).valid InvalidId (by decide)) (by decide)

end IntegerIdGenerator

end Rx
