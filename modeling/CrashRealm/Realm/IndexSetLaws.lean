/-
# `Realm.IndexSetLaws` — how the methods agree with one another

Two valid sets with the same indices have the same ranges, however they were made and
whatever the build.  So the methods that do a thing in one pass can be compared with
those that do it step by step: `add_shifted` with `shift` and `add`, `erase_or_unshift`
with `unshift` and `erase_at`, and the methods that take a set of positions with those
that take one position after the other.
-/
import CrashRealm.Realm.IndexSetCount
import CrashRealm.Realm.IndexSetMerge
import CrashRealm.Realm.IndexSetRemove

namespace Realm

open Rx (Fault ok_bind)
open RangeList (Range Separated Below Above toSet indices)
open Positions (below spread rank insertAll moveAll eraseAll)

variable {b : Build}

namespace IndexSet

open ChunkedRangeVector

variable {v w p : IndexSet} {index start stop : Nat}

/-- The ranges are determined by the indices. -/
theorem ranges_eq {b' : Build} (hv : Valid b v) (hw : Valid b' w) (h : members v = members w) :
    ranges v = ranges w := hv.separated.ext hw.separated h

/-! ## Counting -/

/-- `count` counts the indices of the interval, unless it is cut short. -/
theorem count_exact_iff (hv : Valid b v) (hle : start ≤ stop) :
    ∃ n, count v start stop = .ok n ∧
      (n = (members v ∩ Set.Ico start stop).ncard ↔ ¬ CutShort v start stop) := by
  obtain ⟨n, m, hcount, hsum, hcut⟩ := count_spec hv hle
  refine ⟨n, hcount, ?_⟩
  have hcard := Positions.ncard_add_below (members v) hle
  rw [← not_iff_not, not_not, ← hcut]
  omega

theorem count_exact_iff_sample : ∃ n, count sample 1 10 = .ok n ∧
    (n = (members sample ∩ Set.Ico 1 10).ncard ↔ ¬ CutShort sample 1 10) :=
  count_exact_iff sample_valid (by decide)

/-- From the first index on, nothing is ever left out. -/
theorem count_zero (hv : Valid b v) (index : Nat) :
    count v 0 index = .ok (below (members v) index) := by
  obtain ⟨n, m, hcount, hsum, hcut⟩ := count_spec hv (Nat.zero_le index)
  have hm : m = 0 := by
    by_contra hm
    obtain ⟨-, chunk, -, -, -, -, hlt, -⟩ := hcut.mp hm
    exact Nat.not_lt_zero _ hlt
  rw [hcount, ← hsum, hm, Positions.below_zero]
  rfl

theorem unshift_spec (hv : Valid b v) (hindex : index ∉ members v) :
    unshift v index = .ok (rank (members v) index) := by
  obtain ⟨answer, hcontains, hanswer⟩ := contains_spec hv index
  have hnot : ¬ answer = true := fun h => hindex (hanswer.mp h)
  rw [unshift, hcontains, ok_bind, realmAssert_of hnot, ok_bind, count_zero hv, ok_bind, rank]

/-- `shift` numbers the indices that are not in the set, in order, and `unshift` gives the
number of each. -/
theorem shift_unshift (hv : Valid b v) : StrictMono (shift v) ∧
    Set.range (shift v) = {y | y ∉ members v} ∧ ∀ x, unshift v (shift v x) = .ok x := by
  have hshift : shift v = spread (members v) := funext (shift_spec hv)
  have hfinite := finite_members v
  rw [hshift]
  refine ⟨Positions.spread_strictMono hfinite, ?_, fun x => ?_⟩
  · ext y
    constructor
    · rintro ⟨x, rfl⟩
      exact Positions.spread_notMem hfinite x
    · exact fun hy => ⟨rank (members v) y, Positions.spread_rank hy⟩
  · rw [unshift_spec hv (Positions.spread_notMem hfinite x), Positions.rank_spread hfinite]

theorem shift_unshift_sample : StrictMono (shift sample) ∧
    Set.range (shift sample) = {y | y ∉ members sample} ∧
    ∀ x, unshift sample (shift sample x) = .ok x :=
  shift_unshift sample_valid

/-! ## One pass or two -/

/-- `add_shifted` is `shift`, then `add`. -/
theorem addShifted_eq (hv : Valid b v) (index : Nat) :
    ∃ v' w, addShifted b v index = .ok (v', shift v index) ∧ add b v (shift v index) = .ok w ∧
      ranges v' = ranges w := by
  obtain ⟨v', hadd, hv', hmembers⟩ := addShifted_spec hv index
  obtain ⟨w, hadd', hw, hmembers'⟩ := add_spec hv (shift v index)
  rw [← shift_spec hv] at hadd hmembers
  exact ⟨v', w, hadd, hadd', ranges_eq hv' hw (hmembers.trans hmembers'.symm)⟩

/-- `erase_or_unshift` is `unshift` where the index is not in the set, and `erase_at`. -/
theorem eraseOrUnshift_eq (hv : Valid b v) (index : Nat) :
    ∃ v' w answer, eraseOrUnshift v index = .ok (v', answer) ∧ eraseAt v index = .ok w ∧
      ranges v' = ranges w ∧ (answer = none ↔ index ∈ members v) ∧
      ∀ n ∈ answer, unshift v index = .ok n := by
  obtain ⟨v', herase, hv', hmembers⟩ := eraseOrUnshift_spec hv index
  obtain ⟨w, herase', hw, hmembers'⟩ := eraseAt_spec hv index
  refine ⟨v', w, _, herase, herase', ranges_eq hv' hw (hmembers.trans hmembers'.symm), ?_, ?_⟩
  · by_cases hindex : index ∈ members v
    · rw [if_pos hindex]
      exact ⟨fun _ => hindex, fun _ => rfl⟩
    · rw [if_neg hindex]
      exact ⟨fun h => absurd h (Option.some_ne_none _), fun h => absurd h hindex⟩
  · intro n hn
    by_cases hindex : index ∈ members v
    · rw [if_pos hindex] at hn
      cases hn
    · rw [if_neg hindex] at hn
      cases hn
      exact unshift_spec hv hindex

/-- The methods that go through the set once agree with those that go through it twice. -/
theorem onePass_agrees (hv : Valid b v) (index : Nat) :
    (∃ v' w, addShifted b v index = .ok (v', shift v index) ∧ add b v (shift v index) = .ok w ∧
      ranges v' = ranges w) ∧
    ∃ v' w answer, eraseOrUnshift v index = .ok (v', answer) ∧ eraseAt v index = .ok w ∧
      ranges v' = ranges w ∧ (answer = none ↔ index ∈ members v) ∧
      ∀ n ∈ answer, unshift v index = .ok n :=
  ⟨addShifted_eq hv index, eraseOrUnshift_eq hv index⟩

theorem onePass_agrees_sample :
    (∃ v' w, addShifted .debug sample 3 = .ok (v', shift sample 3) ∧
      add .debug sample (shift sample 3) = .ok w ∧ ranges v' = ranges w) ∧
    ∃ v' w answer, eraseOrUnshift sample 3 = .ok (v', answer) ∧ eraseAt sample 3 = .ok w ∧
      ranges v' = ranges w ∧ (answer = none ↔ 3 ∈ members sample) ∧
      ∀ n ∈ answer, unshift sample 3 = .ok n :=
  onePass_agrees sample_valid 3

/-! ## All positions at once, or one after the other -/

/-- The positions are inserted from the first to the last. -/
def insertEach (b : Build) (v : IndexSet) (positions : List Nat) : Except Fault IndexSet :=
  positions.foldlM (fun v index => insertAt b v index 1) v

/-- The positions are erased from the last to the first. -/
def eraseEach (v : IndexSet) (positions : List Nat) : Except Fault IndexSet :=
  positions.reverse.foldlM eraseAt v

theorem finite_list (l : List Nat) : {i | i ∈ l}.Finite := l.finite_toSet

/-- A sorted list, without its last. -/
theorem set_concat (l : List Nat) (q : Nat) : {i | i ∈ l ++ [q]} = Insert.insert q {i | i ∈ l} := by
  ext i
  simp [or_comm]

theorem insertEach_spec (hv : Valid b v) : ∀ {l : List Nat}, l.Pairwise (· < ·) →
    ∃ v', insertEach b v l = .ok v' ∧ Valid b v' ∧ members v' = insertAll (members v) {i | i ∈ l} := by
  intro l
  induction l using List.reverseRecOn with
  | nil =>
      intro _
      refine ⟨v, rfl, hv, ?_⟩
      ext x
      simp [insertAll, moveAll]
  | append_singleton l q ih =>
      intro hsorted
      obtain ⟨hl, -, hq⟩ := List.pairwise_append.mp hsorted
      obtain ⟨v₁, hinsert, hv₁, hmembers₁⟩ := ih hl
      obtain ⟨v₂, hinsert₂, hv₂, hmembers₂⟩ := insertAt_spec hv₁ q Nat.one_pos
      refine ⟨v₂, ?_, hv₂, ?_⟩
      · rw [insertEach, List.foldlM_append]
        rw [insertEach] at hinsert
        rw [hinsert, ok_bind, List.foldlM_cons, hinsert₂, ok_bind]
        rfl
      · rw [hmembers₂, hmembers₁, set_concat, ← Positions.singleton_eq_Ico,
          Positions.insertAll_insert (finite_list l) fun i hi => hq i hi q List.mem_cons_self]

theorem eraseEach_spec : ∀ {l : List Nat} {v : IndexSet}, Valid b v → l.Pairwise (· < ·) →
    ∃ v', eraseEach v l = .ok v' ∧ Valid b v' ∧ members v' = eraseAll (members v) {i | i ∈ l} := by
  intro l
  induction l using List.reverseRecOn with
  | nil =>
      intro v hv _
      refine ⟨v, rfl, hv, ?_⟩
      ext x
      simp [eraseAll]
  | append_singleton l q ih =>
      intro v hv hsorted
      obtain ⟨hl, -, hq⟩ := List.pairwise_append.mp hsorted
      obtain ⟨v₁, herase, hv₁, hmembers₁⟩ := eraseAt_spec hv q
      obtain ⟨v₂, herase₂, hv₂, hmembers₂⟩ := ih hv₁ hl
      refine ⟨v₂, ?_, hv₂, ?_⟩
      · rw [eraseEach, List.reverse_append, List.reverse_singleton, List.singleton_append,
          List.foldlM_cons, herase, ok_bind]
        exact herase₂
      · rw [hmembers₂, hmembers₁, set_concat,
          Positions.eraseAll_insert (finite_list l) fun i hi => hq i hi q List.mem_cons_self]

theorem members_eq_indices (p : IndexSet) : {i | i ∈ indices (ranges p)} = members p := by
  ext i
  exact mem_indices

/-- `insert_at(positions)` and `erase_at(positions)` do what inserting or erasing one
position after the other does. -/
theorem atOnce_agrees (hv : Valid b v) (hp : Valid b p) :
    (∃ v' w, insertAtAll b v p = .ok v' ∧ insertEach b v (indices (ranges p)) = .ok w ∧
      ranges v' = ranges w) ∧
    ∃ v' w, eraseAtAll b v p = .ok v' ∧ eraseEach v (indices (ranges p)) = .ok w ∧
      ranges v' = ranges w := by
  constructor
  · obtain ⟨v', hinsert, hv', hmembers⟩ := insertAtAll_spec hv hp
    obtain ⟨w, hinsert', hw, hmembers'⟩ := insertEach_spec hv hp.separated.indices_sorted
    rw [members_eq_indices] at hmembers'
    exact ⟨v', w, hinsert, hinsert', ranges_eq hv' hw (hmembers.trans hmembers'.symm)⟩
  · obtain ⟨v', herase, hv', hmembers⟩ := eraseAtAll_spec hv hp
    obtain ⟨w, herase', hw, hmembers'⟩ := eraseEach_spec hv hp.separated.indices_sorted
    rw [members_eq_indices] at hmembers'
    exact ⟨v', w, herase, herase', ranges_eq hv' hw (hmembers.trans hmembers'.symm)⟩

theorem atOnce_agrees_sample :
    (∃ v' w, insertAtAll .debug sample sample = .ok v' ∧
      insertEach .debug sample (indices (ranges sample)) = .ok w ∧ ranges v' = ranges w) ∧
    ∃ v' w, eraseAtAll .debug sample sample = .ok v' ∧
      eraseEach sample (indices (ranges sample)) = .ok w ∧ ranges v' = ranges w :=
  atOnce_agrees sample_valid sample_valid

/-- What was inserted can be erased again, and what is erased comes back where it was, with
the positions in it (`insert_at`) or without them (`shift_for_insert_at`). -/
theorem insert_erase (hv : Valid b v) (hp : Valid b p) :
    (∃ v₁ v₂, insertAtAll b v p = .ok v₁ ∧ eraseAtAll b v₁ p = .ok v₂ ∧ ranges v₂ = ranges v) ∧
    (∃ v₁ v₂ w, eraseAtAll b v p = .ok v₁ ∧ insertAtAll b v₁ p = .ok v₂ ∧ addAll b v p = .ok w ∧
      ranges v₂ = ranges w) ∧
    ∃ v₁ v₂ w, eraseAtAll b v p = .ok v₁ ∧ shiftForInsertAtAll b v₁ p = .ok v₂ ∧
      removeAll b v p = .ok w ∧ ranges v₂ = ranges w := by
  have hfinite := finite_members p
  obtain ⟨v₁, herase, hv₁, hmembers₁⟩ := eraseAtAll_spec hv hp
  refine ⟨?_, ?_, ?_⟩
  · obtain ⟨u₁, hinsert, hu₁, hu₁m⟩ := insertAtAll_spec hv hp
    obtain ⟨u₂, herase₂, hu₂, hu₂m⟩ := eraseAtAll_spec hu₁ hp
    refine ⟨u₁, u₂, hinsert, herase₂, ranges_eq hu₂ hv ?_⟩
    rw [hu₂m, hu₁m, Positions.eraseAll_insertAll hfinite]
  · obtain ⟨v₂, hinsert, hv₂, hmembers₂⟩ := insertAtAll_spec hv₁ hp
    obtain ⟨w, hadd, hw, hmembersw⟩ := addAll_spec hv hp
    refine ⟨v₁, v₂, w, herase, hinsert, hadd, ranges_eq hv₂ hw ?_⟩
    rw [hmembers₂, hmembers₁, hmembersw, Positions.insertAll_eraseAll hfinite]
  · obtain ⟨v₂, hshift, hv₂, hmembers₂⟩ := shiftForInsertAtAll_spec hv₁ hp
    obtain ⟨w, hremove, hw, hmembersw⟩ := removeAll_spec hv hp
    refine ⟨v₁, v₂, w, herase, hshift, hremove, ranges_eq hv₂ hw ?_⟩
    rw [hmembers₂, hmembers₁, hmembersw, Positions.moveAll_eraseAll hfinite]

theorem insert_erase_sample :
    (∃ v₁ v₂, insertAtAll .debug sample sample = .ok v₁ ∧ eraseAtAll .debug v₁ sample = .ok v₂ ∧
      ranges v₂ = ranges sample) ∧
    (∃ v₁ v₂ w, eraseAtAll .debug sample sample = .ok v₁ ∧ insertAtAll .debug v₁ sample = .ok v₂ ∧
      addAll .debug sample sample = .ok w ∧ ranges v₂ = ranges w) ∧
    ∃ v₁ v₂ w, eraseAtAll .debug sample sample = .ok v₁ ∧
      shiftForInsertAtAll .debug v₁ sample = .ok v₂ ∧ removeAll .debug sample sample = .ok w ∧
      ranges v₂ = ranges w :=
  insert_erase sample_valid sample_valid

end IndexSet

end Realm
