/-
# `Realm.IndexSetShift` — an index among the positions of the set

`shift`, `add_shifted` and `erase_or_unshift` walk over the chunks and then over the
ranges before an index, and add up or take off what they pass.  A walk has an
invariant of what has been passed and what was counted (`walk_spec`,
`walkChunks_spec`); what comes out is where the index goes when the indices of the set
are inserted, or taken out.
-/
import CrashRealm.Realm.IndexSetPositions

namespace Realm

open Rx (Fault ok_bind)
open RangeList (Range Separated Below Above toSet total width total_append total_cons)
open Positions (below spread rank eraseAll)

variable {b : Build}

namespace IndexSet

open ChunkedRangeVector

variable {v : IndexSet} {it : Iterator} {A B : List Range} {r : Range} {index : Nat}

/-! ## The rules for a walk -/

section Walk

variable {α : Type} (P : List Range → α → Prop)

/-- What one range keeps, the walk over the ranges keeps; it ends at the end, or where
there is no more to pass. -/
theorem walk_spec (more : Iterator → Range → α → Bool) (step : Range → α → α)
    (hstep : ∀ {it : Iterator} {A : List Range} {r : Range} {B : List Range} {x : α},
      Splits v it A (r :: B) → P A x → more it r x = true → P (A ++ [r]) (step r x))
    (ht : Tidy b v) : ∀ {B A : List Range} {it : Iterator} {x : α} {k : Nat},
    Splits v it A B → P A x → B.length < k →
    ∃ it' A' B' x', walk more step k v it x = .ok (it', x') ∧ Splits v it' A' B' ∧ P A' x' ∧
      ∀ r ∈ B'.head?, more it' r x' = false := by
  intro B
  induction B with
  | nil =>
      intro A it x k h hP hk
      obtain ⟨k, rfl⟩ := Nat.exists_eq_succ_of_ne_zero (Nat.ne_of_gt hk)
      rw [walk, rangeAt_eq h]
      exact ⟨it, A, [], x, rfl, h, hP, fun _ hr => by cases hr⟩
  | cons r B ih =>
      intro A it x k h hP hk
      obtain ⟨k, rfl⟩ := Nat.exists_eq_succ_of_ne_zero (Nat.ne_of_gt (Nat.zero_lt_of_lt hk))
      rw [walk, rangeAt_eq h, ok_bind]
      simp only [List.head?_cons]
      split
      next hmore =>
        obtain ⟨it₁, hnext, h₁⟩ := h.next ht
        rw [hnext, ok_bind]
        exact ih h₁ (hstep h hP hmore) (Nat.lt_of_succ_lt_succ hk)
      next hmore =>
        refine ⟨it, A, r :: B, x, rfl, h, hP, fun r' hr' => ?_⟩
        cases hr'
        exact Bool.eq_false_iff.mpr hmore

/-- What one chunk keeps, the walk over the chunks keeps. -/
theorem walkChunks_spec (more : Chunk → α → Bool) (step : Chunk → α → α)
    (hstep : ∀ {before after : ChunkedRangeVector} {chunk : Chunk} {x : α},
      v = before ++ chunk :: after → P (ranges before) x → more chunk x = true →
      P (ranges before ++ chunk.data) (step chunk x)) :
    ∀ (chunks before : ChunkedRangeVector) {x : α}, v = before ++ chunks → P (ranges before) x →
    ∃ passed after, chunks = passed ++ after ∧
      (walkChunks more step chunks x).1 = passed.length ∧
      P (ranges (before ++ passed)) (walkChunks more step chunks x).2 := by
  intro chunks
  induction chunks with
  | nil =>
      intro before x _ hP
      exact ⟨[], [], rfl, rfl, by rwa [List.append_nil]⟩
  | cons chunk chunks ih =>
      intro before x hv hP
      rw [walkChunks]
      split
      next hmore =>
        have hv' : v = (before ++ [chunk]) ++ chunks := by rw [hv, List.append_assoc]; rfl
        have hP' : P (ranges (before ++ [chunk])) (step chunk x) := by
          simpa using hstep hv hP hmore
        obtain ⟨passed, after, rfl, hlength, hpassed⟩ := ih (before ++ [chunk]) hv' hP'
        refine ⟨chunk :: passed, after, rfl, ?_, ?_⟩
        · simp only
          rw [hlength]
          rfl
        · rw [List.append_assoc] at hpassed
          exact hpassed
      next hmore => exact ⟨[], chunk :: chunks, rfl, rfl, by rwa [List.append_nil]⟩

/-- The walk over the chunks, from the first. -/
theorem walkChunks_start (more : Chunk → α → Bool) (step : Chunk → α → α) (ht : Tidy b v)
    (hstep : ∀ {before after : ChunkedRangeVector} {chunk : Chunk} {x : α},
      v = before ++ chunk :: after → P (ranges before) x → more chunk x = true →
      P (ranges before ++ chunk.data) (step chunk x)) {x : α} (hP : P [] x) :
    ∃ passed x' A B, walkChunks more step v x = (passed, x') ∧ Splits v ⟨passed, 0⟩ A B ∧
      P A x' := by
  obtain ⟨passed, after, hv, hlength, hpassed⟩ := walkChunks_spec P more step hstep v [] rfl hP
  refine ⟨passed.length, (walkChunks more step v x).2, ranges passed, ranges after, ?_, ?_, hpassed⟩
  · rw [← hlength]
  · have hsplits := splits_start passed after (tidy_append.mp (hv ▸ ht)).2
    rw [← hv] at hsplits
    exact hsplits

end Walk

/-- The ranges of a chunk end where it does, or before. -/
theorem below_chunk (hv : Valid b v) {before after : ChunkedRangeVector} {chunk : Chunk}
    (hchunks : v = before ++ chunk :: after) {i : Nat} (hbefore : Below (ranges before) i)
    (hstop : chunk.stop ≤ i) : Below (ranges before ++ chunk.data) i := by
  intro r hr
  have hmem : chunk ∈ v := by simp [hchunks]
  rcases List.mem_append.mp hr with hr | hr
  · exact hbefore r hr
  · exact (chunk_bounds (hv.tidy chunk hmem) (separated_chunk hv.separated hmem) hr).2.trans hstop

theorem count_chunk (hv : Valid b v) {before after : ChunkedRangeVector} {chunk : Chunk}
    (hchunks : v = before ++ chunk :: after) : chunk.count = total chunk.data :=
  (hv.tidy chunk (by simp [hchunks])).count_eq

theorem below_concat (hA : Below A index) (hr : r.second ≤ index) : Below (A ++ [r]) index := by
  intro r' hr'
  rcases List.mem_append.mp hr' with hr' | hr'
  · exact hA r' hr'
  · rw [List.mem_singleton.mp hr']
    exact hr

/-- As many indices as lie before `index` fit before it. -/
theorem total_le_of_below (hsep : Separated (A ++ B)) (hA : Below A index) : total A ≤ index := by
  have := Positions.below_le (toSet (A ++ B)) index
  rw [Positions.below_toSet_append hsep hA] at this
  omega

/-! ## `shift` -/

theorem shiftOver_spec : ∀ {B A : List Range} {index : Nat}, Separated (A ++ B) →
    Below A (index + total A) →
    shiftOver B (index + total A) = spread (toSet (A ++ B)) index := by
  intro B
  induction B with
  | nil =>
      intro A index hsep hA
      exact (Positions.spread_toSet hsep hA fun _ hr => absurd hr List.not_mem_nil).symm
  | cons r B ih =>
      intro A index hsep hA
      obtain ⟨-, -, hne, -, hrB⟩ := RangeList.separated_middle.mp hsep
      rw [shiftOver]
      split
      next hlt =>
        refine (Positions.spread_toSet hsep hA fun r' hr' => ?_).symm
        rcases List.mem_cons.mp hr' with rfl | hr'
        · exact hlt
        · have := hrB r' hr'
          omega
      next hge =>
        have htotal : index + total A + (r.second - r.first) = index + total (A ++ [r]) := by
          rw [total_append, total_cons, width, RangeList.total_nil]
          omega
        have hassoc : A ++ r :: B = (A ++ [r]) ++ B := by simp
        rw [htotal, hassoc]
        rw [hassoc] at hsep
        refine ih hsep (below_concat (hA.mono ?_) ?_)
        · rw [total_append]
          omega
        · rw [← htotal]
          omega

theorem shift_spec (hv : Valid b v) (index : Nat) : shift v index = spread (members v) index := by
  have hshift : shiftOver (ranges v) (index + total []) = spread (toSet ([] ++ ranges v)) index :=
    shiftOver_spec hv.separated fun _ hr => absurd hr List.not_mem_nil
  exact hshift

/-! ## `add_shifted` -/

theorem addShifted_spec (hv : Valid b v) (index : Nat) :
    ∃ v', addShifted b v index = .ok (v', spread (members v) index) ∧ Valid b v' ∧
      members v' = insert (spread (members v) index) (members v) := by
  -- what was passed lies before the index, as far as it has been shifted
  obtain ⟨passed, x, A, B, hchunks, hsplits, hA, hx⟩ := walkChunks_start
    (fun A x => Below A x ∧ x = index + total A)
    (fun chunk x => chunk.stop ≤ x) (fun chunk x => x + chunk.count) hv.tidy
    (fun {before after chunk x} hchunks hP hmore => by
      have hmore : chunk.stop ≤ x := by simpa using hmore
      refine ⟨(below_chunk hv hchunks hP.1 hmore).mono (Nat.le_add_right ..), ?_⟩
      rw [hP.2, total_append, count_chunk hv hchunks, Nat.add_assoc])
    (x := index) ⟨fun _ hr => absurd hr List.not_mem_nil, rfl⟩
  obtain ⟨it, A, B, x, hwalk, hsplits, hP, hend⟩ := walk_spec
    (fun A x => Below A x ∧ x = index + total A)
    (fun _ r x => r.first ≤ x) (fun r x => x + (r.second - r.first))
    (fun {it A r B x} hsplits hP hmore => by
      have hmore : r.first ≤ x := by simpa using hmore
      refine ⟨below_concat (hP.1.mono (Nat.le_add_right ..)) (by omega), ?_⟩
      rw [hP.2, total_append, total_cons, width, RangeList.total_nil]
      omega)
    hv.tidy hsplits ⟨hA, hx⟩ (length_lt_rounds hsplits)
  obtain ⟨hA, hx⟩ := hP
  have hsep : Separated (A ++ B) := hsplits.ranges_eq ▸ hv.separated
  have hfirst : ∀ r ∈ B, x < r.first := by
    cases B with
    | nil => exact fun _ hr => absurd hr List.not_mem_nil
    | cons r B =>
        have hr : x < r.first := by simpa using hend r rfl
        intro r' hr'
        rcases List.mem_cons.mp hr' with rfl | hr'
        · exact hr
        · obtain ⟨-, -, hne, -, hrB⟩ := RangeList.separated_middle.mp hsep
          have := hrB r' hr'
          omega
  have hspread : spread (members v) index = x := by
    rw [members_of_splits hsplits, hx]
    refine Positions.spread_toSet hsep (hx ▸ hA) (hx ▸ hfirst)
  obtain ⟨v', it', A', r', B', hadd, ht', hsplits', hsep', -, -, hmembers⟩ :=
    doAdd_spec hv.tidy hsplits hsep hA fun r hr => by
      have := hfirst r hr
      have := (RangeList.separated_append.mp hsep).2.1.nonempty r hr
      omega
  rw [addShifted, overChunks, hchunks]
  simp only
  rw [overRanges, hwalk, ok_bind]
  simp only
  rw [hadd, ok_bind, hspread]
  exact ⟨v', rfl, .of_splits ht' hsplits' hsep', hmembers⟩

/-! ## `erase_or_unshift` -/

open scoped Classical in
theorem eraseOrUnshift_spec (hv : Valid b v) (index : Nat) :
    ∃ v', eraseOrUnshift v index =
        .ok (v', if index ∈ members v then none else some (rank (members v) index)) ∧
      Valid b v' ∧ members v' = eraseAll (members v) {index} := by
  -- what was passed lies before the index, and was taken off
  have hchunk : ∀ {before after : ChunkedRangeVector} {chunk : Chunk} {x : Nat},
      v = before ++ chunk :: after → Below (ranges before) index ∧ x + total (ranges before) = index →
      decide (chunk.stop ≤ index) = true → Below (ranges before ++ chunk.data) index ∧
        x - chunk.count + total (ranges before ++ chunk.data) = index := by
    intro before after chunk x hchunks hP hmore
    have hbelow := below_chunk hv hchunks hP.1 (by simpa using hmore)
    have hsep := hv.separated
    rw [hchunks, ranges_append, ranges_cons, ← List.append_assoc] at hsep
    have := total_le_of_below hsep hbelow
    rw [total_append] at this ⊢
    rw [count_chunk hv hchunks]
    exact ⟨hbelow, by omega⟩
  obtain ⟨passed, x, A, B, hchunks, hsplits, hA, hx⟩ := walkChunks_start
    (fun A x => Below A index ∧ x + total A = index)
    (fun chunk _ => chunk.stop ≤ index) (fun chunk x => x - chunk.count) hv.tidy
    hchunk (x := index) ⟨fun _ hr => absurd hr List.not_mem_nil, rfl⟩
  have hrange : ∀ {it : Iterator} {A : List Range} {r : Range} {B : List Range} {x : Nat},
      Splits v it A (r :: B) → Below A index ∧ x + total A = index →
      decide (r.second ≤ index) = true → Below (A ++ [r]) index ∧
        x - (r.second - r.first) + total (A ++ [r]) = index := by
    intro it A r B x hsplits hP hmore
    have hbelow := below_concat hP.1 (by simpa using hmore)
    have hsep := hv.separated
    have hassoc : A ++ r :: B = (A ++ [r]) ++ B := by simp
    rw [hsplits.ranges_eq, hassoc] at hsep
    have := total_le_of_below hsep hbelow
    rw [total_append, total_cons, width, RangeList.total_nil] at this ⊢
    exact ⟨hbelow, by omega⟩
  obtain ⟨it, A, B, x, hwalk, hsplits, hP, hend⟩ := walk_spec
    (fun A x => Below A index ∧ x + total A = index)
    (fun _ r _ => r.second ≤ index) (fun r x => x - (r.second - r.first)) hrange
    hv.tidy hsplits ⟨hA, hx⟩ (length_lt_rounds hsplits)
  obtain ⟨hA, hx⟩ := hP
  have hsep : Separated (A ++ B) := hsplits.ranges_eq ▸ hv.separated
  have hrank : (∀ r ∈ B, index ≤ r.first) → rank (members v) index = x := by
    intro hB
    rw [members_of_splits hsplits, rank, Positions.below_toSet_append hsep hA,
      Positions.below_toSet_eq_zero hB]
    omega
  rw [eraseOrUnshift, chunksBelow, hchunks]
  simp only
  rw [rangesBelow, hwalk, ok_bind]
  simp only
  rw [rangeAt_eq hsplits, ok_bind]
  cases B with
  | nil =>
      have hnot : index ∉ members v := by
        rw [members_of_splits hsplits, List.append_nil]
        exact hA.notMem (Nat.le_refl _)
      simp only [List.head?_nil]
      rw [if_neg hnot, hrank fun _ hr => absurd hr List.not_mem_nil]
      refine ⟨v, rfl, hv, ?_⟩
      -- nothing is at the index or behind it
      ext y
      rw [eraseAll_singleton, Set.mem_ofPred_eq, members_of_splits hsplits, List.append_nil]
      split
      · exact Iff.rfl
      · exact ⟨fun hy => absurd (hA.lt hy) (by omega), fun hy => absurd (hA.lt hy) (by omega)⟩
  | cons r B =>
      have hlt : index < r.second := by simpa using hend r rfl
      have hrB := (RangeList.separated_append.mp hsep).2.1
      obtain ⟨v', herase, hv', hmembers⟩ := doErase_spec hv.tidy hsplits hsep hA (hrB.above hlt)
      simp only [List.head?_cons]
      rw [herase, ok_bind]
      have hmem : index ∈ members v ↔ r.first ≤ index := by
        rw [members_of_splits hsplits, RangeList.mem_toSet_append, RangeList.mem_toSet_cons,
          RangeList.mem_range]
        have htail : index ∉ toSet B := fun h => by
          have := hrB.lt_of_mem_tail h
          omega
        simp [hA.notMem (Nat.le_refl _), htail, hlt]
      refine ⟨v', ?_, hv', hmembers⟩
      by_cases hin : r.first ≤ index
      · rw [if_pos hin, if_pos (hmem.mpr hin)]
      · rw [if_neg hin, if_neg fun h => hin (hmem.mp h), hrank fun r' hr' => ?_]
        rcases List.mem_cons.mp hr' with rfl | hr'
        · exact Nat.le_of_not_le hin
        · have := (RangeList.separated_cons.mp hrB).2.1 r' hr'
          omega

end IndexSet

end Realm
