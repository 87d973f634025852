/-
# `RxFoundation.BasicHashInsert` — filling the bucket an insertion settles on

`insertIntoBucketImpl` first makes room, which may replace the array, and then
fills a bucket.  The two halves are specified apart: what a lookup finds after
`grow`, and what filling does once `makeRoom` has settled on a bucket, whichever
branch it took and whatever the derived class is.
-/
import CrashRealm.RxFoundation.BasicHashOps

namespace Rx

open OpenAddressing BasicHashTable

variable {K V S : Type} {T : TableType K V} {D : Derived K V S} {s s₁ : S}

/-- The state after `incrementEpoch`. -/
def bump (D : Derived K V S) (s : S) : S := D.setTable s (incrementEpoch (D.table s))

/-- The derived class keeps the table it is given. -/
structure Accessors (D : Derived K V S) : Prop where
  table_setTable : ∀ s t, D.table (D.setTable s t) = t
  setTable_setTable : ∀ s t t', D.setTable (D.setTable s t) t' = D.setTable s t'

theorem Accessors.table_bump (h : Accessors D) :
    D.table (bump D s) = incrementEpoch (D.table s) :=
  h.table_setTable s _

/-- After `grow` the lookup of an absent key finds a bucket to fill. -/
theorem growAndLookup_of_grow {atLeast : Nat} (hgrow : D.grow T atLeast s = .ok s₁)
    (hwf : WellFormed T (D.table s₁)) (hne : (D.table s₁).buckets.length ≠ 0) {key : K}
    (hkey : Ordinary T key)
    (habs : ∀ c, Stored T (D.table s₁) c → bucketClass T c ≠ classOf T key) :
    ∃ i, growAndLookup D T atLeast s key = .ok (s₁, some i) ∧
      Outcome (slotsOf T (D.table s₁).buckets)
        (probeOf T (D.table s₁).buckets.length (classOf T key))
        (fun b => T.isEqual key b.key) (false, i) := by
  rcases lookupBucketFor_spec hwf hkey with ⟨i, b, -, hget, hord, heq⟩ | ⟨bucket, hlook, -, hsome⟩
  · have hstored : Stored T (D.table s₁) b :=
      stored_iff.mpr ⟨List.mem_of_getElem? hget, hord⟩
    exact absurd (classOf_eq_iff.mpr heq).symm (habs b hstored)
  · obtain ⟨i, rfl, hout⟩ := hsome hne
    exact ⟨i, by simp only [growAndLookup, hgrow, hlook, ok_bind], hout⟩

/-- Filling the bucket `makeRoom` settled on: the counters follow, the contents gain
exactly the new pair, and no other bucket is touched. -/
theorem insertIntoBucket_of_makeRoom (hD : Accessors D) {key : K} {bucket : Option Nat} {i : Nat}
    (hsettle : makeRoom D T (bump D s) key bucket = .ok (s₁, some i))
    (hwf : WellFormed T (D.table s₁)) (hkey : Ordinary T key)
    (habs : ∀ c, Stored T (D.table s₁) c → bucketClass T c ≠ classOf T key)
    (hroom : (D.table s₁).numEntries + 1 + (D.table s₁).numTombstones
      < (D.table s₁).buckets.length)
    (hout : Outcome (slotsOf T (D.table s₁).buckets)
      (probeOf T (D.table s₁).buckets.length (classOf T key))
      (fun b => T.isEqual key b.key) (false, i))
    (hok : D.entriesOk ((D.table s₁).numEntries + 1) = true) (value : V) :
    ∃ t, insertIntoBucket D T s key value bucket = .ok (D.setTable s₁ t, i) ∧ WellFormed T t ∧
      t.buckets = (D.table s₁).buckets.set i ⟨key, value⟩ ∧
      t.buckets[i]? = some ⟨key, value⟩ ∧
      t.numEntries = (D.table s₁).numEntries + 1 ∧
      t.numTombstones ≤ (D.table s₁).numTombstones ∧
      (∀ c, Stored T t c ↔ c = ⟨key, value⟩ ∨ Stored T (D.table s₁) c) := by
  obtain ⟨old, hget, hwf', hstored⟩ := store_spec hwf (b := ⟨key, value⟩) hkey hout habs hroom
  have hlt := hwf.length_lt
  have hidx : i < (D.table s₁).buckets.length := (List.getElem?_eq_some_iff.mp hget).1
  refine ⟨⟨(D.table s₁).buckets.set i ⟨key, value⟩, (D.table s₁).numEntries + 1,
    if T.isEqual old.key T.getEmptyKey then (D.table s₁).numTombstones
      else (D.table s₁).numTombstones - 1, (D.table s₁).epoch⟩,
    ?_, hwf', rfl, List.getElem?_set_self hidx, rfl, ?_, hstored⟩
  · have hcount : u64 ((D.table s₁).numEntries + 1) = (D.table s₁).numEntries + 1 :=
      u64_of_lt (by omega)
    have himpl : insertIntoBucketImpl D T s key bucket = .ok (D.setTable s₁
        ⟨(D.table s₁).buckets, (D.table s₁).numEntries + 1,
          if T.isEqual old.key T.getEmptyKey then (D.table s₁).numTombstones
          else (D.table s₁).numTombstones - 1, (D.table s₁).epoch⟩, i) := by
      rw [insertIntoBucketImpl]
      rw [show D.setTable s (incrementEpoch (D.table s)) = bump D s from rfl]
      simp only [hsettle, ok_bind, assertBucketAt_some hget, hcount, setNumEntries_ok hok]
      by_cases he : T.isEqual old.key T.getEmptyKey = true
      · simp only [he, if_true]
      · -- a reused tombstone was counted
        have hpos := numTombstones_pos hwf hout hget he
        simp only [he, Bool.false_eq_true, if_false]
        rw [sub64_of_le (by omega) (by omega)]
    rw [insertIntoBucket, himpl]
    simp only [ok_bind, hD.table_setTable, hD.setTable_setTable]
  · show (if _ then _ else _) ≤ (D.table s₁).numTombstones
    split
    · exact Nat.le_refl _
    · exact Nat.sub_le _ _

end Rx
