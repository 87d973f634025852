/-
# `Realm.IndexSetEdit` — what an edit does to the set
-/
import CrashRealm.Lib.Positions
import CrashRealm.Realm.IndexSetFind

namespace Realm

open Rx (Fault ok_bind)
open RangeList (Range Separated Below Above toSet up down)

variable {b : Build}

namespace IndexSet

open ChunkedRangeVector

variable {v : IndexSet} {it : Iterator} {A B : List Range} {r : Range} {index : Nat}

/-! ## Adding an index -/

/-- The outcome of `do_add`: the index is added, and the iterator returned stands at the
range that has it. -/
def Adds (b : Build) (v : IndexSet) (index : Nat) (result : Except Fault (IndexSet × Iterator)) :
    Prop :=
  ∃ v' it' A r B, result = .ok (v', it') ∧ Tidy b v' ∧ Splits v' it' A (r :: B) ∧
    Separated (A ++ r :: B) ∧ index ∈ r ∧ Below A index ∧
    members v' = Insert.insert index (members v)

/-- The index is put next to the end of a range, and joins it to the next if it comes to
touch that. -/
theorem addAfter_spec (ht : Tidy b v) (h : Splits v it (A ++ [r]) B)
    (hsep : Separated (A ++ r :: B)) (hr : r.second = index) (hB : ∀ r ∈ B, index < r.first) :
    Adds b v index (addAfter v it B.head? index) := by
  obtain ⟨last, hprev, hlast⟩ := h.prev ht
  obtain ⟨hsA, hsB, hne, hAr, -⟩ := RangeList.separated_middle.mp hsep
  have hA : Below A index := fun a ha => by
    have := hAr a ha
    omega
  obtain ⟨v₁, hadjust, ht₁, hshape₁, hsplits₁⟩ := hlast.adjust ht 0 1
    ⟨r.first, index + 1⟩ (by simp) (by simp [hr]) hne.le (by simp only; omega)
  have hplain : (∀ r ∈ B, index + 1 < r.first) →
      Separated (A ++ ⟨r.first, index + 1⟩ :: B) ∧
        members v₁ = Insert.insert index (members v) := by
    intro hB
    refine ⟨RangeList.separated_middle.mpr ⟨hsA, hsB, by simp only; omega, hAr, hB⟩, ?_⟩
    rw [members_of_splits hsplits₁, members_of_splits hlast]
    ext x
    simp only [RangeList.mem_toSet_append, RangeList.mem_toSet_cons, RangeList.mem_range,
      Set.mem_insert_iff]
    grind
  rw [addAfter, hprev, ok_bind, hadjust, ok_bind]
  cases B with
  | nil =>
      obtain ⟨hsep', hmembers⟩ := hplain fun _ hr => absurd hr List.not_mem_nil
      exact ⟨v₁, last, A, _, [], rfl, ht₁, hsplits₁, hsep', ⟨by simp only; omega, Nat.lt_succ_self _⟩,
        hA, hmembers⟩
  | cons r' B =>
      obtain ⟨hne', hr'B, hsB'⟩ := RangeList.separated_cons.mp hsB
      have hr' := hB r' List.mem_cons_self
      simp only [List.head?_cons]
      split
      next hjoin =>
        obtain ⟨v₂, hadjust₂, ht₂, hshape₂, hsplits₂⟩ := hsplits₁.adjust ht₁ 0
          (r'.second - r'.first : Nat) ⟨r.first, r'.second⟩ (by simp)
          (by simp only; omega) (by simp only; omega) (by simp only; omega)
        have hit : Splits v₂ it (A ++ [⟨r.first, r'.second⟩]) (r' :: B) := by
          refine h.of_shape (hshape₂.trans hshape₁) ?_ (by simp)
          rw [hsplits₂.ranges_eq, List.append_assoc]
          rfl
        have hsep' : Separated (A ++ ⟨r.first, r'.second⟩ :: B) :=
          RangeList.separated_middle.mpr ⟨hsA, hsB', by simp only; omega, hAr, hr'B⟩
        obtain ⟨v₃, it₃, herase, ht₃, hsplits₃⟩ := hit.erase ht₂
          (by rw [List.append_assoc]; exact hsep')
        obtain ⟨it₄, hprev₄, hsplits₄⟩ := hsplits₃.prev ht₃
        rw [hadjust₂, ok_bind, herase, ok_bind]
        simp only
        rw [hprev₄, ok_bind]
        refine ⟨v₃, it₄, A, _, B, rfl, ht₃, hsplits₄, hsep', ⟨by simp only; omega, by simp only; omega⟩,
          hA, ?_⟩
        rw [members_of_splits hsplits₄, members_of_splits hlast]
        ext x
        simp only [RangeList.mem_toSet_append, RangeList.mem_toSet_cons, RangeList.mem_range,
          Set.mem_insert_iff]
        grind
      next hjoin =>
        obtain ⟨hsep', hmembers⟩ := hplain fun r₀ hr₀ => by
          rcases List.mem_cons.mp hr₀ with rfl | hr₀
          · omega
          · have := hr'B r₀ hr₀
            omega
        exact ⟨v₁, last, A, _, _, rfl, ht₁, hsplits₁, hsep',
          ⟨by simp only; omega, Nat.lt_succ_self _⟩, hA, hmembers⟩

/-- `do_add` at the place of the index. -/
theorem doAdd_spec (ht : Tidy b v) (h : Splits v it A B) (hsep : Separated (A ++ B))
    (hA : Below A index) (hB : Above B index) : Adds b v index (doAdd b v it index) := by
  rw [doAdd, (Valid.of_splits ht h hsep).verify_eq, ok_bind, rangeBefore_eq ht h, ok_bind,
    rangeAt_eq h, ok_bind, realmAssert_of (p := ∀ r ∈ A.getLast?, r.second ≤ index)
      (fun r hr => hA r (List.mem_of_getLast? hr)), ok_bind]
  obtain ⟨hsA, hsB, -⟩ := RangeList.separated_append.mp hsep
  split
  next hin =>
    cases B with
    | nil => cases hin
    | cons r B =>
        have hin : r.first ≤ index ∧ index < r.second := by simpa using hin
        refine ⟨v, it, A, r, B, rfl, ht, h, hsep, hin, hA, (Set.insert_eq_of_mem ?_).symm⟩
        rw [members_of_splits h]
        exact RangeList.mem_toSet_append.mpr (.inr (RangeList.mem_toSet_cons.mpr (.inl hin)))
  next hout =>
    -- what comes after the index starts after it
    have hfirst : ∀ r ∈ B, index < r.first := by
      cases B with
      | nil => exact fun _ hr => absurd hr List.not_mem_nil
      | cons r B =>
          have hlt := hB r List.mem_cons_self
          have hr : index < r.first := by
            have : ¬ (r.first ≤ index ∧ index < r.second) := by simpa using hout
            omega
          intro r' hr'
          rcases List.mem_cons.mp hr' with rfl | hr'
          · exact hr
          · have := (RangeList.separated_cons.mp hsB).2.1 r' hr'
            omega
    split
    next hafter =>
      rcases List.eq_nil_or_concat A with rfl | ⟨A, r, rfl⟩
      · cases hafter
      · rw [List.concat_eq_append] at h hsep hafter
        rw [List.getLast?_concat] at hafter
        rw [List.append_assoc] at hsep
        exact addAfter_spec ht h hsep (by simpa using hafter) hfirst
    next hnot =>
      have hlt : ∀ a ∈ A, a.second < index := by
        refine hsA.lt_of_getLast? hA fun r hr heq => hnot ?_
        rw [hr]
        simpa using heq
      split
      next hbefore =>
        cases B with
        | nil => cases hbefore
        | cons r B =>
            have hr : r.first = index + 1 := by simpa using hbefore
            obtain ⟨hne, hrB, hsB⟩ := RangeList.separated_cons.mp hsB
            obtain ⟨v', hadjust, ht', -, hsplits⟩ := h.adjust ht (-1) 0
              ⟨index, r.second⟩ (by simp only; omega) (by simp) hne.le (by simp only; omega)
            rw [hadjust, ok_bind]
            have hsep' : Separated (A ++ ⟨index, r.second⟩ :: B) :=
              RangeList.separated_middle.mpr ⟨hsA, hsB, by simp only; omega, hlt, hrB⟩
            refine ⟨v', it, A, _, B, rfl, ht', hsplits, hsep', ⟨Nat.le_refl _, by simp only; omega⟩, hA, ?_⟩
            rw [members_of_splits hsplits, members_of_splits h]
            ext x
            simp only [RangeList.mem_toSet_append, RangeList.mem_toSet_cons, RangeList.mem_range,
              Set.mem_insert_iff]
            grind
      next hnot' =>
        have hsep' : Separated (A ++ ⟨index, index + 1⟩ :: B) := by
          refine RangeList.separated_middle.mpr ⟨hsA, hsB, Nat.lt_succ_self _, hlt, ?_⟩
          cases B with
          | nil => exact fun _ hr => absurd hr List.not_mem_nil
          | cons r B =>
              have hr := hfirst r List.mem_cons_self
              have hr' : r.first ≠ index + 1 := by simpa using hnot'
              intro r₀ hr₀
              rcases List.mem_cons.mp hr₀ with rfl | hr₀
              · show index + 1 < _
                omega
              · have := (RangeList.separated_cons.mp hsB).2.1 r₀ hr₀
                have := hB r List.mem_cons_self
                show index + 1 < _
                omega
        obtain ⟨v', it', hinsert, ht', hsplits⟩ := h.insert ht hsep'
        rw [hinsert]
        refine ⟨v', it', A, _, B, rfl, ht', hsplits, hsep', ⟨Nat.le_refl _, Nat.lt_succ_self _⟩, hA, ?_⟩
        rw [members_of_splits hsplits, members_of_splits h]
        ext x
        simp only [RangeList.mem_toSet_append, RangeList.mem_toSet_cons, RangeList.mem_range,
          Set.mem_insert_iff]
        grind

theorem add_spec (hv : Valid b v) (index : Nat) :
    ∃ v', add b v index = .ok v' ∧ Valid b v' ∧ members v' = Insert.insert index (members v) := by
  obtain ⟨it, A, B, hfind, hsplits, hA, hB⟩ := find_cbegin hv index
  obtain ⟨v', it', A', r, B', hadd, ht', hsplits', hsep', -, -, hmembers⟩ :=
    doAdd_spec hv.tidy hsplits (hsplits.ranges_eq ▸ hv.separated) hA hB
  rw [add, hfind, ok_bind, hadd]
  exact ⟨v', rfl, .of_splits ht' hsplits' hsep', hmembers⟩

/-- Indices that no range has are added one after the other. -/
theorem addFrom_spec (count : Nat) : ∀ {v : IndexSet} {it : Iterator} {A B : List Range} {index : Nat},
    Tidy b v → Splits v it A B → Separated (A ++ B) → Below A index → Above B index →
    (∀ x ∈ Set.Ico index (index + count), x ∉ members v) →
    ∃ v', addFrom b count v it index = .ok v' ∧ Valid b v' ∧
      members v' = members v ∪ Set.Ico index (index + count) := by
  induction count with
  | zero =>
      intro v it A B index ht h hsep _ _ _
      refine ⟨v, rfl, .of_splits ht h hsep, ?_⟩
      rw [Nat.add_zero, Set.Ico_self, Set.union_empty]
  | succ count ih =>
      intro v it A B index ht h hsep hA hB hgap
      obtain ⟨v₁, it₁, A₁, r, B₁, hadd, ht₁, hsplits₁, hsep₁, hr, hA₁, hmembers⟩ :=
        doAdd_spec ht h hsep hA hB
      obtain ⟨it₂, hnext, hsplits₂⟩ := hsplits₁.next ht₁
      have hsep₂ : Separated ((A₁ ++ [r]) ++ B₁) := by
        rw [List.append_assoc]
        exact hsep₁
      rw [addFrom, hadd, ok_bind]
      simp only
      rw [hnext, ok_bind]
      cases count with
      | zero =>
          refine ⟨v₁, rfl, .of_splits ht₁ hsplits₂ hsep₂, ?_⟩
          rw [hmembers, Nat.zero_add, ← Set.union_singleton, Positions.singleton_eq_Ico]
      | succ count =>
          obtain ⟨-, hB₁, -, -, hrB₁⟩ := RangeList.separated_middle.mp hsep₁
          have hnotMem : index + 1 ∉ members v₁ := by
            rw [hmembers]
            rintro (heq | hmem)
            · omega
            · exact hgap (index + 1) ⟨by omega, by omega⟩ hmem
          -- the range ends with the index just added
          have hend : r.second = index + 1 := by
            refine Nat.le_antisymm (Nat.le_of_not_lt fun hlt => hnotMem ?_) hr.2
            rw [members_of_splits hsplits₁]
            exact RangeList.mem_toSet_append.mpr
              (.inr (RangeList.mem_toSet_cons.mpr (.inl ⟨Nat.le_succ_of_le hr.1, hlt⟩)))
          have hbelow : Below (A₁ ++ [r]) (index + 1) := by
            intro r' hr'
            rcases List.mem_append.mp hr' with hr' | hr'
            · exact Nat.le_succ_of_le (hA₁ r' hr')
            · rw [List.mem_singleton.mp hr', hend]
          have habove : Above B₁ (index + 1) := fun r' hr' => by
            have := hrB₁ r' hr'
            have := hB₁.nonempty r' hr'
            omega
          obtain ⟨v', hfrom, hv', hmembers'⟩ := ih ht₁ hsplits₂ hsep₂ hbelow habove fun x hx => by
            rw [hmembers]
            rintro (heq | hmem)
            · have := hx.1
              omega
            · exact hgap x ⟨by have := hx.1; omega, by have := hx.2; omega⟩ hmem
          refine ⟨v', hfrom, hv', ?_⟩
          rw [hmembers', hmembers]
          ext x
          simp only [Set.mem_union, Set.mem_insert_iff, Set.mem_Ico]
          grind

/-- `set(len)` -/
theorem set_spec (b : Build) (len : Nat) :
    ∃ v', set b len = .ok v' ∧ Valid b v' ∧ members v' = Set.Iio len := by
  rw [set]
  split
  next hzero =>
    refine ⟨clear, rfl, ⟨fun _ hmem => absurd hmem List.not_mem_nil, RangeList.separated_nil⟩, ?_⟩
    rw [hzero, members, clear, ranges_nil, RangeList.toSet_nil]
    simp
  next hpos =>
    have hsep : Separated (ranges clear ++ [⟨0, len⟩]) :=
      RangeList.separated_cons.mpr ⟨Nat.pos_of_ne_zero hpos, by simp, RangeList.separated_nil⟩
    obtain ⟨v', hpush, ht', hranges⟩ := pushBack_spec (b := b) (v := clear)
      (fun _ hmem => absurd hmem List.not_mem_nil) ⟨0, len⟩ hsep
    refine ⟨v', hpush, ⟨ht', hranges ▸ hsep⟩, ?_⟩
    rw [members, hranges]
    ext x
    simp [clear, RangeList.mem_range]

/-! ## Shifting what follows -/

/-- The ranges from an iterator on are shifted, each in its place. -/
theorem shiftUntilEnd_spec {distance : Int} {f : Range → Range} : ∀ {B A : List Range} {v : IndexSet}
    {it : Iterator} {k : Nat}, Tidy b v → Splits v it A B →
    (∀ r ∈ B, (r.first : Int) + distance = (f r).first ∧ (r.second : Int) + distance = (f r).second) →
    B.length < k →
    ∃ v', shiftUntilEnd distance k v it = .ok v' ∧ Tidy b v' ∧ shape v' = shape v ∧
      ranges v' = A ++ B.map f := by
  intro B
  induction B with
  | nil =>
      intro A v it k ht h _ hk
      obtain ⟨k, rfl⟩ := Nat.exists_eq_succ_of_ne_zero (Nat.ne_of_gt hk)
      rw [shiftUntilEnd, if_pos (h.eq_cend_iff.mpr rfl)]
      exact ⟨v, rfl, ht, rfl, h.ranges_eq⟩
  | cons r B ih =>
      intro A v it k ht h hf hk
      obtain ⟨k, rfl⟩ := Nat.exists_eq_succ_of_ne_zero (Nat.ne_of_gt (Nat.zero_lt_of_lt hk))
      obtain ⟨hfirst, hsecond⟩ := hf r List.mem_cons_self
      obtain ⟨v₁, hshift, ht₁, hshape₁, hsplits₁⟩ := h.shift ht distance (f r) hfirst hsecond
      obtain ⟨it₁, hnext, hsplits₂⟩ := hsplits₁.next ht₁
      obtain ⟨v', hrest, ht', hshape, hranges⟩ := ih ht₁ hsplits₂
        (fun r' hr' => hf r' (List.mem_cons_of_mem _ hr')) (Nat.lt_of_succ_lt_succ hk)
      rw [shiftUntilEnd, if_neg fun hend => List.cons_ne_nil _ _ (h.eq_cend_iff.mp hend), hshift,
        ok_bind, hnext, ok_bind]
      refine ⟨v', hrest, ht', hshape.trans hshape₁, ?_⟩
      rw [hranges, List.append_assoc]
      rfl

theorem length_lt_rounds (h : Splits v it A B) : B.length < rounds v := by
  rw [rounds, h.ranges_eq, List.length_append]
  omega

theorem shiftUp_spec (ht : Tidy b v) (h : Splits v it A B) (count : Nat) :
    ∃ v', shiftUntilEnd count (rounds v) v it = .ok v' ∧ Tidy b v' ∧ shape v' = shape v ∧
      ranges v' = A ++ up count B :=
  shiftUntilEnd_spec ht h (fun _ _ => ⟨by simp, by simp⟩) (length_lt_rounds h)

theorem shiftDown_spec (ht : Tidy b v) (h : Splits v it A B)
    (hB : ∀ r ∈ B, 0 < r.first ∧ 0 < r.second) :
    ∃ v', shiftUntilEnd (-1) (rounds v) v it = .ok v' ∧ Tidy b v' ∧ shape v' = shape v ∧
      ranges v' = A ++ down B := by
  refine shiftUntilEnd_spec ht h (fun r hr => ?_) (length_lt_rounds h)
  have := hB r hr
  constructor
  · simp only
    omega
  · simp only
    omega

end IndexSet

end Realm
