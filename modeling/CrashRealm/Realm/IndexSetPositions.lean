/-
# `Realm.IndexSetPositions` — one position is inserted or erased

`insert_at`, `shift_for_insert_at` and `erase_at` do to the indices what inserting and
erasing the positions of an interval does to a set of numbers, and leave a valid set.
-/
import CrashRealm.Realm.IndexSetEdit

namespace Realm

open Rx (Fault ok_bind)
open RangeList (Range Separated Below Above toSet up down)
open Positions (insertAll moveAll eraseAll)

variable {b : Build}

namespace IndexSet

open ChunkedRangeVector

variable {v : IndexSet} {it : Iterator} {A B : List Range} {r : Range} {index count : Nat}

/-- Where the indices before and behind an iterator are. -/
theorem before_behind (hsep : Separated (A ++ r :: B)) (hA : Below A index)
    (hB : Above (r :: B) index) : (∀ x ∈ toSet A, x < index) ∧ (∀ x ∈ toSet B, r.second < x) ∧
      index < r.second := by
  have hrB := (RangeList.separated_append.mp hsep).2.1
  exact ⟨fun x hx => hA.lt hx, fun x hx => hrB.lt_of_mem_tail hx, hB r List.mem_cons_self⟩

/-! ## `insert_at` -/

theorem insertAt_spec (hv : Valid b v) (index : Nat) (hcount : 0 < count) :
    ∃ v', insertAt b v index count = .ok v' ∧ Valid b v' ∧
      members v' = insertAll (members v) (Set.Ico index (index + count)) := by
  obtain ⟨it, A, B, hfind, hsplits, hA, hB⟩ := find_cbegin hv index
  have hsep : Separated (A ++ B) := hsplits.ranges_eq ▸ hv.separated
  rw [insertAt, realmAssert_of hcount, ok_bind, hfind, ok_bind, rangeAt_eq hsplits, ok_bind,
    Positions.insertAll_Ico, members_of_splits hsplits]
  cases B with
  | nil =>
      have hbelow : ∀ x ∈ toSet A, x < index := fun x hx => hA.lt hx
      obtain ⟨v', hfrom, hv', hmembers⟩ := addFrom_spec count hv.tidy hsplits hsep hA hB fun x hx => by
        rw [members_of_splits hsplits, List.append_nil]
        exact fun hmem => Nat.not_le_of_lt (hbelow x hmem) hx.1
      simp only [List.head?_nil]
      rw [hfrom, ok_bind, hv'.verify_eq, ok_bind]
      refine ⟨v', rfl, hv', ?_⟩
      rw [hmembers, members_of_splits hsplits]
      ext x
      have hx := hbelow x
      have hxc := hbelow (x - count)
      simp only [List.append_nil, Set.mem_union, Set.mem_Ico, Set.mem_ofPred_eq]
      grind
  | cons r B =>
      obtain ⟨hbelow, hbehind, hlt⟩ := before_behind hsep hA hB
      obtain ⟨hsA, hsB, hne, hAr, hrB⟩ := RangeList.separated_middle.mp hsep
      simp only [List.head?_cons]
      split
      next hin =>
        obtain ⟨v₁, hadjust, ht₁, -, hsplits₁⟩ := hsplits.adjust hv.tidy 0 count
          ⟨r.first, r.second + count⟩ (by simp) (by simp) hne.le (by simp only; omega)
        obtain ⟨it₂, hnext, hsplits₂⟩ := hsplits₁.next ht₁
        obtain ⟨v₂, hshift, ht₂, -, hranges⟩ := shiftUp_spec ht₁ hsplits₂ count
        have hsep₂ : Separated (ranges v₂) := by
          rw [hranges, List.append_assoc]
          refine RangeList.separated_middle.mpr ⟨hsA, hsB.up count, by simp only; omega, hAr, ?_⟩
          intro r' hr'
          obtain ⟨r₀, hr₀, rfl⟩ := List.mem_map.mp hr'
          exact Nat.add_lt_add_right (hrB r₀ hr₀) count
        have hv₂ : Valid b v₂ := ⟨ht₂, hsep₂⟩
        rw [hadjust, ok_bind, hnext, ok_bind, hshift, ok_bind, hv₂.verify_eq, ok_bind]
        refine ⟨v₂, rfl, hv₂, ?_⟩
        rw [members, hranges]
        ext x
        have hx := hbelow x
        have hxc := hbelow (x - count)
        have hy := hbehind x
        have hyc := hbehind (x - count)
        simp only [RangeList.mem_toSet_append, RangeList.mem_toSet_cons, RangeList.mem_toSet_up,
          RangeList.mem_range, RangeList.mem_toSet_nil, Set.mem_ofPred_eq]
        grind
      next hout =>
        obtain ⟨v₁, hshift₁, ht₁, hshape₁, hsplits₁⟩ := hsplits.shift hv.tidy count
          ⟨r.first + count, r.second + count⟩ (by simp) (by simp)
        obtain ⟨it₂, hnext, hsplits₂⟩ := hsplits₁.next ht₁
        obtain ⟨v₂, hshift, ht₂, hshape₂, hranges⟩ := shiftUp_spec ht₁ hsplits₂ count
        have hranges : ranges v₂ = A ++ up count (r :: B) := by
          rw [hranges, List.append_assoc]
          rfl
        have hpos : Splits v₂ it A (up count (r :: B)) :=
          hsplits.of_shape (hshape₂.trans hshape₁) hranges rfl
        have hrest := (RangeList.separated_append.mp hsep).2.1
        have hsep₂ : Separated (A ++ up count (r :: B)) := by
          rw [RangeList.up_cons]
          refine RangeList.separated_middle.mpr ⟨hsA, hsB.up count, Nat.add_lt_add_right hne count,
            fun a ha => Nat.lt_add_right count (hAr a ha), fun r' hr' => ?_⟩
          obtain ⟨r₀, hr₀, rfl⟩ := List.mem_map.mp hr'
          exact Nat.add_lt_add_right (hrB r₀ hr₀) count
        have habove : Above (up count (r :: B)) index := by
          intro r' hr'
          obtain ⟨r₀, hr₀, rfl⟩ := List.mem_map.mp hr'
          exact Nat.lt_add_right count (hB r₀ hr₀)
        obtain ⟨v', hfrom, hv', hmembers⟩ := addFrom_spec count ht₂ hpos hsep₂ hA habove fun x hx => by
          rw [members_of_splits hpos, RangeList.mem_toSet_append, RangeList.mem_toSet_up]
          have hxi := hx.1
          have hxc := hx.2
          rintro (hmem | ⟨hle, hmem⟩)
          · exact Nat.not_le_of_lt (hbelow x hmem) hxi
          · have := hrest.first_le hmem
            omega
        rw [hshift₁, ok_bind, hnext, ok_bind, hshift, ok_bind, hfrom, ok_bind, hv'.verify_eq, ok_bind]
        refine ⟨v', rfl, hv', ?_⟩
        rw [hmembers, members_of_splits hpos]
        ext x
        have hx := hbelow x
        have hxc := hbelow (x - count)
        have hy := hbehind x
        have hyc := hbehind (x - count)
        simp only [Set.mem_union, RangeList.mem_toSet_append, RangeList.up_cons,
          RangeList.mem_toSet_cons, RangeList.mem_toSet_up, RangeList.mem_range, Set.mem_Ico,
          Set.mem_ofPred_eq]
        grind

/-! ## `shift_for_insert_at` -/

theorem shiftForInsertAt_spec (hv : Valid b v) (index : Nat) (hcount : 0 < count) :
    ∃ v', shiftForInsertAt b v index count = .ok v' ∧ Valid b v' ∧
      members v' = moveAll (members v) (Set.Ico index (index + count)) := by
  obtain ⟨it, A, B, hfind, hsplits, hA, hB⟩ := find_cbegin hv index
  have hsep : Separated (A ++ B) := hsplits.ranges_eq ▸ hv.separated
  rw [shiftForInsertAt, realmAssert_of hcount, ok_bind, hfind, ok_bind, Positions.moveAll_Ico,
    members_of_splits hsplits]
  cases B with
  | nil =>
      rw [if_pos (hsplits.eq_cend_iff.mpr rfl)]
      refine ⟨v, rfl, hv, ?_⟩
      rw [members_of_splits hsplits]
      have hbelow : ∀ x ∈ toSet A, x < index := fun x hx => hA.lt hx
      ext x
      have hx := hbelow x
      have hxc := hbelow (x - count)
      simp only [List.append_nil, Set.mem_ofPred_eq]
      grind
  | cons r B =>
      obtain ⟨hbelow, hbehind, hlt⟩ := before_behind hsep hA hB
      obtain ⟨hsA, hsB, hne, hAr, hrB⟩ := RangeList.separated_middle.mp hsep
      obtain ⟨v₁, hshift, ht₁, hshape₁, hranges₁⟩ := shiftUp_spec hv.tidy hsplits count
      have hsplits₁ : Splits v₁ it A (⟨r.first + count, r.second + count⟩ :: up count B) :=
        hsplits.of_shape hshape₁ hranges₁ rfl
      have hrBup : ∀ r' ∈ up count B, r.second + count < r'.first := by
        intro r' hr'
        obtain ⟨r₀, hr₀, rfl⟩ := List.mem_map.mp hr'
        exact Nat.add_lt_add_right (hrB r₀ hr₀) count
      rw [if_neg fun hend => List.cons_ne_nil _ _ (hsplits.eq_cend_iff.mp hend), hshift, ok_bind,
        hsplits₁.deref_eq, ok_bind]
      split
      next hin =>
        -- the range has the insertion point in it, and is split
        have hin : r.first < index := Nat.lt_of_add_lt_add_right hin
        obtain ⟨v₂, hset, ht₂, -, hsplits₂⟩ := hsplits₁.set ht₁ (r.first + count - count) index
        obtain ⟨it₃, hnext, hsplits₃⟩ := hsplits₂.next ht₂
        rw [Nat.add_sub_cancel] at hset hsplits₂ hsplits₃
        have hsep₃ : Separated ((A ++ [⟨r.first, index⟩]) ++
            ⟨index + count, r.second + count⟩ :: up count B) := by
          rw [List.append_assoc]
          refine RangeList.separated_middle.mpr ⟨hsA, RangeList.separated_cons.mpr
            ⟨Nat.add_lt_add_right hlt count, hrBup, hsB.up count⟩, hin, hAr, fun r' hr' => ?_⟩
          rcases List.mem_cons.mp hr' with rfl | hr'
          · exact Nat.lt_add_of_pos_right hcount
          · have := hrBup r' hr'
            show index < _
            omega
        obtain ⟨v', it', hinsert, ht', hsplits'⟩ := hsplits₃.insert ht₂ hsep₃
        have hv' : Valid b v' := .of_splits ht' hsplits' hsep₃
        simp only [Nat.add_sub_cancel]
        rw [hset, ok_bind, hnext, ok_bind, hinsert, ok_bind]
        simp only
        rw [hv'.verify_eq, ok_bind]
        refine ⟨v', rfl, hv', ?_⟩
        rw [members_of_splits hsplits']
        ext x
        have hx := hbelow x
        have hxc := hbelow (x - count)
        have hy := hbehind x
        have hyc := hbehind (x - count)
        simp only [RangeList.mem_toSet_append, RangeList.mem_toSet_cons, RangeList.mem_toSet_up,
          RangeList.mem_range, RangeList.mem_toSet_nil, Set.mem_ofPred_eq]
        grind
      next hout =>
        have hout : index ≤ r.first := Nat.le_of_not_lt fun hin => hout (Nat.add_lt_add_right hin count)
        have hv₁ : Valid b v₁ := by
          refine .of_splits ht₁ hsplits₁ (RangeList.separated_middle.mpr
            ⟨hsA, hsB.up count, Nat.add_lt_add_right hne count, fun a ha => ?_, hrBup⟩)
          exact Nat.lt_add_right count (hAr a ha)
        rw [hv₁.verify_eq, ok_bind]
        refine ⟨v₁, rfl, hv₁, ?_⟩
        rw [members_of_splits hsplits₁]
        ext x
        have hx := hbelow x
        have hxc := hbelow (x - count)
        have hy := hbehind x
        have hyc := hbehind (x - count)
        simp only [RangeList.mem_toSet_append, RangeList.mem_toSet_cons, RangeList.mem_toSet_up,
          RangeList.mem_range, Set.mem_ofPred_eq]
        grind

/-! ## `erase_at` -/

/-- What the erasing of the index leaves, in terms of the ranges. -/
theorem eraseAll_singleton (S : Set Nat) (index : Nat) : eraseAll S {index} =
    {x | if x < index then x ∈ S else x + 1 ∈ S} := by
  rw [Positions.singleton_eq_Ico, Positions.eraseAll_Ico]

theorem doErase_spec (ht : Tidy b v) (h : Splits v it A (r :: B)) (hsep : Separated (A ++ r :: B))
    (hA : Below A index) (hB : Above (r :: B) index) :
    ∃ v', doErase v it index = .ok v' ∧ Valid b v' ∧
      members v' = eraseAll (members v) {index} := by
  obtain ⟨hbelow, hbehind, hlt⟩ := before_behind hsep hA hB
  obtain ⟨hsA, hsB, hne, hAr, hrB⟩ := RangeList.separated_middle.mp hsep
  have hposB : ∀ r' ∈ B, 0 < r'.first ∧ 0 < r'.second := by
    intro r' hr'
    have := hrB r' hr'
    have := hsB.nonempty r' hr'
    omega
  have hdownB : ∀ r' ∈ down B, r.second ≤ r'.first := by
    intro r' hr'
    obtain ⟨r₀, hr₀, rfl⟩ := List.mem_map.mp hr'
    have := hrB r₀ hr₀
    show r.second ≤ r₀.first - 1
    omega
  have hsdown : Separated (down B) := hsB.down fun r' hr' => (hposB r' hr').1
  have hmemdown : ∀ {x : Nat}, x ∈ toSet (down B) ↔ x + 1 ∈ toSet B :=
    RangeList.mem_toSet_down fun r' hr' => (hposB r' hr').1
  rw [doErase, h.deref_eq, ok_bind, rangeBefore_eq ht h, ok_bind, eraseAll_singleton,
    members_of_splits h]
  split
  next hin =>
    split
    next hone =>
      have hsepAB : Separated (A ++ B) := RangeList.separated_append.mpr ⟨hsA, hsB, fun a ha r' hr' => by
        have := hAr a ha
        have := hrB r' hr'
        omega⟩
      obtain ⟨v₁, it₁, herase, ht₁, hsplits₁⟩ := h.erase ht hsepAB
      obtain ⟨v', hshift, ht', -, hranges⟩ := shiftDown_spec ht₁ hsplits₁ hposB
      rw [herase, ok_bind]
      refine ⟨v', hshift, ⟨ht', ?_⟩, ?_⟩
      · rw [hranges]
        refine RangeList.separated_append.mpr ⟨hsA, hsdown, fun a ha r' hr' => ?_⟩
        have := hAr a ha
        have := hdownB r' hr'
        omega
      · rw [members, hranges]
        ext x
        have hx := hbelow x
        have hxc := hbelow (x + 1)
        have hy := hbehind x
        have hyc := hbehind (x + 1)
        simp only [RangeList.mem_toSet_append, hmemdown, RangeList.mem_toSet_cons,
          RangeList.mem_range, Set.mem_ofPred_eq]
        grind
    next hwide =>
      obtain ⟨v₁, hadjust, ht₁, -, hsplits₁⟩ := h.adjust ht 0 (-1) ⟨r.first, r.second - 1⟩ (by simp)
        (by simp only; omega) hne.le (by simp only; omega)
      obtain ⟨it₂, hnext, hsplits₂⟩ := hsplits₁.next ht₁
      obtain ⟨v', hshift, ht', -, hranges⟩ := shiftDown_spec ht₁ hsplits₂ hposB
      rw [hadjust, ok_bind, hnext, ok_bind]
      refine ⟨v', hshift, ⟨ht', ?_⟩, ?_⟩
      · rw [hranges, List.append_assoc]
        refine RangeList.separated_middle.mpr ⟨hsA, hsdown, by simp only; omega, hAr, fun r' hr' => ?_⟩
        have := hdownB r' hr'
        show r.second - 1 < r'.first
        omega
      · rw [members, hranges]
        ext x
        have hx := hbelow x
        have hxc := hbelow (x + 1)
        have hy := hbehind x
        have hyc := hbehind (x + 1)
        simp only [RangeList.mem_toSet_append, hmemdown, RangeList.mem_toSet_cons,
          RangeList.mem_toSet_nil, RangeList.mem_range, Set.mem_ofPred_eq]
        grind
  next hout =>
    have hout : index < r.first := Nat.lt_of_not_le hout
    split
    next hjoin =>
      rcases List.eq_nil_or_concat A with rfl | ⟨A, p, rfl⟩
      · cases hjoin
      · rw [List.concat_eq_append] at *
        have hp : p.second + 1 = r.first := by
          rw [List.getLast?_concat] at hjoin
          simpa using hjoin
        obtain ⟨hsA', hnep, hAp⟩ : Separated A ∧ p.first < p.second ∧ ∀ a ∈ A, a.second < p.first := by
          obtain ⟨hsA', -, hnep, hAp, -⟩ := RangeList.separated_middle.mp hsA
          exact ⟨hsA', hnep, hAp⟩
        obtain ⟨it₀, hprev, hsplits₀⟩ := h.prev ht
        obtain ⟨v₁, hadjust, ht₁, hshape₁, hsplits₁⟩ := hsplits₀.adjust ht 0 (r.second - r.first : Nat)
          ⟨p.first, r.second - 1⟩ (by simp) (by simp only; omega) hnep.le (by simp only; omega)
        have hranges₁ : ranges v₁ = (A ++ [⟨p.first, r.second - 1⟩]) ++ r :: B := by
          rw [hsplits₁.ranges_eq, List.append_assoc]
          rfl
        have hit : Splits v₁ it (A ++ [⟨p.first, r.second - 1⟩]) (r :: B) :=
          h.of_shape hshape₁ hranges₁ (by simp)
        have hsep₁ : Separated ((A ++ [⟨p.first, r.second - 1⟩]) ++ B) := by
          rw [List.append_assoc]
          refine RangeList.separated_middle.mpr ⟨hsA', hsB, by simp only; omega, hAp, fun r' hr' => ?_⟩
          have := hrB r' hr'
          show r.second - 1 < r'.first
          omega
        obtain ⟨v₂, it₂, herase, ht₂, hsplits₂⟩ := hit.erase ht₁ hsep₁
        obtain ⟨v', hshift, ht', -, hranges⟩ := shiftDown_spec ht₂ hsplits₂ hposB
        rw [hprev, ok_bind, hadjust, ok_bind, herase, ok_bind]
        refine ⟨v', hshift, ⟨ht', ?_⟩, ?_⟩
        · rw [hranges, List.append_assoc]
          refine RangeList.separated_middle.mpr ⟨hsA', hsdown, by simp only; omega, hAp,
            fun r' hr' => ?_⟩
          have := hdownB r' hr'
          show r.second - 1 < r'.first
          omega
        · rw [members, hranges]
          have hpi : p.second ≤ index := hA p (by simp)
          have hbelow' : ∀ x ∈ toSet A, x < p.first := fun x hx => by
            obtain ⟨a, ha, hxa⟩ := hx
            exact hxa.2.trans (hAp a ha)
          ext x
          have hx := hbelow' x
          have hxc := hbelow' (x + 1)
          have hy := hbehind x
          have hyc := hbehind (x + 1)
          simp only [RangeList.mem_toSet_append, hmemdown, RangeList.mem_toSet_cons,
            RangeList.mem_toSet_nil, RangeList.mem_range, Set.mem_ofPred_eq]
          grind
    next hapart =>
      have hAr' : ∀ a ∈ A, a.second < r.first - 1 := by
        refine hsA.lt_of_getLast? (fun a ha => Nat.le_pred_of_lt (hAr a ha)) fun p hp heq => hapart ?_
        rw [hp]
        have := hAr p (List.mem_of_getLast? hp)
        simp only [Option.any_some, decide_eq_true_eq]
        omega
      have hpos : ∀ r' ∈ r :: B, 0 < r'.first ∧ 0 < r'.second := by
        intro r' hr'
        rcases List.mem_cons.mp hr' with rfl | hr'
        · exact ⟨Nat.zero_lt_of_lt hout, Nat.zero_lt_of_lt hne⟩
        · exact hposB r' hr'
      obtain ⟨v', hshift, ht', -, hranges⟩ := shiftDown_spec ht h hpos
      refine ⟨v', hshift, ⟨ht', ?_⟩, ?_⟩
      · rw [hranges, RangeList.down_cons]
        refine RangeList.separated_middle.mpr ⟨hsA, hsdown, by simp only; omega, hAr', fun r' hr' => ?_⟩
        have := hdownB r' hr'
        show r.second - 1 < r'.first
        omega
      · rw [members, hranges]
        ext x
        have hx := hbelow x
        have hxc := hbelow (x + 1)
        have hy := hbehind x
        have hyc := hbehind (x + 1)
        simp only [RangeList.mem_toSet_append, RangeList.down_cons, hmemdown,
          RangeList.mem_toSet_cons, RangeList.mem_range, Set.mem_ofPred_eq]
        grind

theorem eraseAt_spec (hv : Valid b v) (index : Nat) :
    ∃ v', eraseAt v index = .ok v' ∧ Valid b v' ∧ members v' = eraseAll (members v) {index} := by
  obtain ⟨it, A, B, hfind, hsplits, hA, hB⟩ := find_cbegin hv index
  rw [eraseAt, hfind, ok_bind]
  cases B with
  | nil =>
      rw [if_pos (hsplits.eq_cend_iff.mpr rfl)]
      refine ⟨v, rfl, hv, ?_⟩
      rw [eraseAll_singleton, members_of_splits hsplits, List.append_nil]
      have hbelow : ∀ x ∈ toSet A, x < index := fun x hx => hA.lt hx
      ext x
      have hx := hbelow x
      have hxc := hbelow (x + 1)
      simp only [Set.mem_ofPred_eq]
      grind
  | cons r B =>
      rw [if_neg fun hend => List.cons_ne_nil _ _ (hsplits.eq_cend_iff.mp hend)]
      exact doErase_spec hv.tidy hsplits (hsplits.ranges_eq ▸ hv.separated) hA hB

end IndexSet

end Realm
