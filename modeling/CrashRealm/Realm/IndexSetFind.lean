/-
# `Realm.IndexSetFind` — finding the range for an index

A set is `Valid` if its chunks are tidy and its ranges separated; its numbers are its
`members`.  `find` returns the iterator between the ranges that end at or before the
index and those that reach beyond it, from wherever before it starts (`find_spec`).
-/
import CrashRealm.Realm.ChunkedRangeVectorSpec
import CrashRealm.Realm.IndexSet

namespace Realm

open Rx (Fault ok_bind)
open RangeList (Range Separated Below Above toSet)

variable {b : Build}

namespace IndexSet

open ChunkedRangeVector

/-- The indices of a set. -/
def members (v : IndexSet) : Set Nat := toSet (ranges v)

/-- What `verify` asserts, and the size of the chunks. -/
structure Valid (b : Build) (v : IndexSet) : Prop where
  tidy : Tidy b v
  separated : Separated (ranges v)

variable {v : IndexSet} {it : Iterator} {A B : List Range} {r : Range} {index : Nat}

theorem Valid.verify_eq (h : Valid b v) : verify v = .ok () := verify_eq_ok h.tidy h.separated

/-- An iterator into a valid set. -/
theorem Valid.of_splits (ht : Tidy b v) (h : Splits v it A B) (hsep : Separated (A ++ B)) :
    Valid b v := ⟨ht, h.ranges_eq ▸ hsep⟩

theorem members_of_splits (h : Splits v it A B) : members v = toSet (A ++ B) := by
  rw [members, h.ranges_eq]

/-- A list, cut at the first element with the property. -/
theorem exists_findIdx {α : Type} (p : α → Bool) (l : List α) :
    ∃ l₁ l₂, l = l₁ ++ l₂ ∧ l.findIdx p = l₁.length ∧ (∀ a ∈ l₁, p a = false) ∧
      ∀ a ∈ l₂.head?, p a = true := by
  induction l with
  | nil => exact ⟨[], [], rfl, rfl, by simp, by simp⟩
  | cons a l ih =>
      cases hp : p a with
      | true => exact ⟨[], a :: l, rfl, by simp [List.findIdx_cons, hp], by simp, by simp [hp]⟩
      | false =>
          obtain ⟨l₁, l₂, rfl, hidx, hnot, hhead⟩ := ih
          refine ⟨a :: l₁, l₂, rfl, by simp [List.findIdx_cons, hp, hidx], fun a' ha' => ?_, hhead⟩
          rcases List.mem_cons.mp ha' with rfl | ha'
          · exact hp
          · exact hnot a' ha'

/-- What a tidy chunk knows of the ends of its ranges. -/
theorem chunk_bounds {chunk : Chunk} (h : chunk.Tidy b) (hsep : Separated chunk.data)
    (hr : r ∈ chunk.data) : chunk.begin ≤ r.first ∧ r.second ≤ chunk.stop := by
  obtain ⟨l, l', hdata⟩ := List.append_of_mem hr
  rw [hdata] at hsep
  obtain ⟨hl, hrest, hcross⟩ := RangeList.separated_append.mp hsep
  constructor
  · cases l with
    | nil => exact (h.begin_eq_first (l := []) hdata rfl).le
    | cons r₀ l =>
        have := h.begin_eq_first (l := []) hdata rfl
        have := hcross r₀ List.mem_cons_self r List.mem_cons_self
        have := hl.nonempty r₀ List.mem_cons_self
        omega
  · rcases List.eq_nil_or_concat l' with rfl | ⟨l', r', rfl⟩
    · exact (h.stop_eq_second hdata rfl).ge
    · rw [List.concat_eq_append] at hrest hdata
      have hdata' : chunk.data = (l ++ r :: l') ++ r' :: [] := by simp [hdata]
      have := h.stop_eq_second hdata' rfl
      have := (RangeList.separated_cons.mp hrest).2.1 r' (by simp)
      have := hrest.nonempty r' (by simp)
      omega

/-- `find` in the chunk that has the index or is the first after it. -/
theorem find_inside (hv : Valid b v) {skipped after : ChunkedRangeVector} {chunk : Chunk}
    (hchunks : v = skipped ++ chunk :: after) (hbelow : Below (ranges skipped) index)
    (hstop : index < chunk.stop) {innerBegin : Nat} (hinner : innerBegin < chunk.data.length)
    (htake : Below (chunk.data.take innerBegin) index) :
    ∃ it A B, (if index < chunk.begin then .ok ⟨skipped.length, 0⟩
        else do
          let inner := innerBegin +
            lowerBound (fun r => r.second ≤ index) (chunk.data.drop innerBegin)
          realmAssert (inner ≠ chunk.data.length) "inner != it->data.end()"
          (.ok ⟨skipped.length, inner⟩ : Except Fault Iterator)) = .ok it ∧
      Splits v it A B ∧ Below A index ∧ Above B index := by
  subst hchunks
  obtain ⟨hskipped, hrest⟩ := tidy_append.mp hv.tidy
  obtain ⟨hchunk, hafter⟩ := tidy_cons.mp hrest
  have hsep := hv.separated
  rw [ranges_append] at hsep
  have hsep := (RangeList.separated_append.mp hsep).2.1
  split
  next hlt =>
    refine ⟨_, _, _, rfl, splits_start skipped (chunk :: after) hrest, hbelow, ?_⟩
    obtain ⟨r, l, hdata⟩ := List.exists_cons_of_ne_nil hchunk.data_ne_nil
    rw [ranges_cons, hdata] at hsep ⊢
    have := hchunk.begin_eq_first (l := []) hdata rfl
    have := hsep.nonempty r List.mem_cons_self
    exact hsep.above (by omega)
  next =>
    obtain ⟨l₁, l₂, hdrop, hidx, hnot, hhead⟩ :=
      exists_findIdx (fun r : Range => !decide (r.second ≤ index)) (chunk.data.drop innerBegin)
    have hdata : chunk.data = (chunk.data.take innerBegin ++ l₁) ++ l₂ := by
      rw [List.append_assoc, ← hdrop, List.take_append_drop]
    have hlength : innerBegin + l₁.length = (chunk.data.take innerBegin ++ l₁).length := by
      rw [List.length_append, List.length_take, Nat.min_eq_left hinner.le]
    have hl₁ : Below (chunk.data.take innerBegin ++ l₁) index := by
      intro r hr
      rcases List.mem_append.mp hr with hr | hr
      · exact htake r hr
      · simpa using hnot r hr
    cases l₂ with
    | nil =>
        -- the last range of the chunk reaches beyond the index
        obtain ⟨l, r, hlast⟩ := (List.eq_nil_or_concat chunk.data).resolve_left hchunk.data_ne_nil
        rw [List.concat_eq_append] at hlast
        have := hchunk.stop_eq_second hlast rfl
        have := hl₁ r (by rw [← List.append_nil (_ ++ l₁), ← hdata, hlast]; simp)
        omega
    | cons r l' =>
        have hlt : index < r.second := by simpa using hhead r rfl
        rw [lowerBound]
        simp only
        rw [hidx, hlength, realmAssert_of (by
          intro heq
          have := congrArg List.length hdata
          rw [List.length_append, List.length_cons] at this
          omega), ok_bind]
        have hsplits := Splits.inside (v := skipped ++ chunk :: after) skipped after chunk
          (chunk.data.take innerBegin ++ l₁) l' r rfl hdata
        refine ⟨_, _, _, rfl, hsplits, ?_, ?_⟩
        · intro r' hr'
          rcases List.mem_append.mp hr' with hr' | hr'
          · exact hbelow r' hr'
          · exact hl₁ r' hr'
        · refine Separated.above ?_ hlt
          have hall := hv.separated
          rw [hsplits.ranges_eq] at hall
          exact (RangeList.separated_append.mp hall).2.1

/-- `find` from an iterator behind which the index lies. -/
theorem find_spec (hv : Valid b v) {begin : Iterator} {A₀ B₀ : List Range}
    (hbegin : Splits v begin A₀ B₀) (hbelow : Below A₀ index) :
    ∃ it A B, find v index begin = .ok it ∧ Splits v it A B ∧ Below A index ∧ Above B index := by
  rw [find]
  cases hbegin with
  | atEnd =>
      have hnone : v[(cend v).outer + (List.drop (cend v).outer v).findIdx
          fun chunk => decide (index < chunk.stop)]? = none := by
        refine List.getElem?_eq_none ?_
        exact Nat.le_add_right ..
      simp only
      rw [hnone]
      exact ⟨_, _, _, rfl, .atEnd, hbelow, fun _ hr => absurd hr List.not_mem_nil⟩
  | inside before after chunk l l' r hchunks hdata =>
      have hdrop : List.drop before.length v = chunk :: after := by
        rw [hchunks]
        simp
      obtain ⟨l₁, l₂, hsplit, hidx, hnot, hhead⟩ :=
        exists_findIdx (fun chunk : Chunk => decide (index < chunk.stop)) (chunk :: after)
      have hv' : v = (before ++ l₁) ++ l₂ := by rw [hchunks, hsplit, List.append_assoc]
      have hbefore : Below (ranges (before ++ l₁)) index := by
        intro r' hr'
        rw [ranges_append] at hr'
        rcases List.mem_append.mp hr' with hr' | hr'
        · exact hbelow r' (List.mem_append_left _ hr')
        · obtain ⟨chunk', hmem, hr'⟩ := List.mem_flatMap.mp hr'
          have hmem' : chunk' ∈ v := by
            rw [hv']
            exact List.mem_append_left _ (List.mem_append_right _ hmem)
          have hstop := hnot chunk' hmem
          have := (chunk_bounds (hv.tidy chunk' hmem') (separated_chunk hv.separated hmem') hr').2
          have : ¬ index < chunk'.stop := by simpa using hstop
          omega
      have hlength : before.length + l₁.length = (before ++ l₁).length := (List.length_append).symm
      simp only
      rw [hdrop, hidx, hlength]
      cases l₂ with
      | nil =>
          rw [List.append_nil] at hv'
          rw [hv', List.getElem?_eq_none (Nat.le_refl _)]
          refine ⟨_, _, _, rfl, .atEnd, hbefore, fun _ hr => absurd hr List.not_mem_nil⟩
      | cons chunk' after' =>
          have hget : v[(before ++ l₁).length]? = some chunk' := by
            rw [hv', List.getElem?_append_right (Nat.le_refl _), Nat.sub_self]
            rfl
          rw [hget]
          have hstop : index < chunk'.stop := by simpa using hhead chunk' rfl
          cases l₁ with
          | nil =>
              cases hsplit
              simp only [List.append_nil] at hv' hbefore ⊢
              refine find_inside hv hv' hbefore hstop ?_ ?_
              · rw [if_pos trivial, hdata, List.length_append, List.length_cons]
                omega
              · intro r' hr'
                rw [if_pos trivial, hdata, List.take_left] at hr'
                exact hbelow r' (List.mem_append_right _ hr')
          | cons chunk₀ l₁ =>
              have hne : (before ++ chunk₀ :: l₁).length ≠ before.length := by simp
              refine find_inside hv hv' hbefore hstop ?_ ?_
              · rw [if_neg hne]
                refine List.length_pos_iff.mpr (hv.tidy chunk' ?_).data_ne_nil
                rw [hv']
                simp
              · rw [if_neg hne]
                intro r' hr'
                simp at hr'

/-- `find(index)` -/
theorem find_cbegin (hv : Valid b v) (index : Nat) :
    ∃ it A B, find v index cbegin = .ok it ∧ Splits v it A B ∧ Below A index ∧ Above B index :=
  find_spec hv (splits_cbegin hv.tidy) fun _ hr => absurd hr List.not_mem_nil

/-! ## The ranges at an iterator -/

theorem rangeAt_eq (h : Splits v it A B) : rangeAt v it = .ok B.head? := by
  rw [rangeAt]
  cases B with
  | nil => rw [if_pos (h.eq_cend_iff.mpr rfl)]; rfl
  | cons r B =>
      rw [if_neg fun hend => List.cons_ne_nil _ _ (h.eq_cend_iff.mp hend), h.deref_eq]
      rfl

theorem rangeBefore_eq (ht : Tidy b v) (h : Splits v it A B) :
    rangeBefore v it = .ok A.getLast? := by
  rw [rangeBefore]
  rcases List.eq_nil_or_concat A with rfl | ⟨A, r, rfl⟩
  · rw [if_pos ((h.eq_cbegin_iff ht).mpr rfl)]
    rfl
  · rw [List.concat_eq_append] at h ⊢
    obtain ⟨it', hprev, hsplits⟩ := h.prev ht
    rw [if_neg fun hbegin => absurd ((h.eq_cbegin_iff ht).mp hbegin) (by simp), hprev, ok_bind,
      hsplits.deref_eq, List.getLast?_concat]
    rfl

/-- `contains` -/
theorem contains_spec (hv : Valid b v) (index : Nat) :
    ∃ answer, contains v index = .ok answer ∧ (answer = true ↔ index ∈ members v) := by
  obtain ⟨it, A, B, hfind, hsplits, hA, hB⟩ := find_cbegin hv index
  rw [contains, hfind, ok_bind, rangeAt_eq hsplits, ok_bind]
  refine ⟨_, rfl, ?_⟩
  rw [members_of_splits hsplits, RangeList.mem_toSet_append]
  have hsep : Separated (A ++ B) := hsplits.ranges_eq ▸ hv.separated
  have hsep := (RangeList.separated_append.mp hsep).2.1
  cases B with
  | nil => simpa using hA.notMem (Nat.le_refl _)
  | cons r B =>
      have hlt := hB r List.mem_cons_self
      have htail : index ∉ toSet B := fun hmem => by
        have := hsep.lt_of_mem_tail hmem
        omega
      simp [hA.notMem (Nat.le_refl _), htail, RangeList.mem_range, hlt]

end IndexSet

end Realm
