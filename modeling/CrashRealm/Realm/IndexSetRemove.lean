/-
# `Realm.IndexSetRemove` — indices are removed where they are

`do_remove` goes through the ranges that meet the interval to remove: each is erased,
trimmed or split, and then meets it no more.  So there are at most as many rounds as
there are ranges, and the last one finds the end of the interval.
-/
import CrashRealm.Lib.Positions
import CrashRealm.Realm.IndexSetFind

namespace Realm

open Rx (Fault ok_bind)
open RangeList (Range Separated Below Above toSet)

variable {b : Build}

namespace IndexSet

open ChunkedRangeVector

variable {v : IndexSet} {it : Iterator} {A B : List Range} {r : Range} {begin stop : Nat}

/-- A range that meets the interval. -/
def meets (begin stop : Nat) (r : Range) : Bool := begin < r.second ∧ r.first < stop

/-- How many ranges meet it. -/
def pending (begin stop : Nat) (l : List Range) : Nat := l.countP (meets begin stop)

@[simp] theorem pending_append (l l' : List Range) :
    pending begin stop (l ++ l') = pending begin stop l + pending begin stop l' := List.countP_append

theorem pending_below (h : Below A begin) : pending begin stop A = 0 := by
  refine List.countP_eq_zero.mpr fun r hr => ?_
  have := h r hr
  simp only [meets, decide_eq_true_eq]
  omega

theorem pending_cons_of_meets (h : meets begin stop r) :
    pending begin stop (r :: B) = pending begin stop B + 1 := List.countP_cons_of_pos h

theorem pending_cons_of_not (h : ¬ meets begin stop r) :
    pending begin stop (r :: B) = pending begin stop B := List.countP_cons_of_neg h

/-- Fewer ranges meet a shorter interval. -/
theorem pending_mono {begin' : Nat} (h : begin ≤ begin') (l : List Range) :
    pending begin' stop l ≤ pending begin stop l := by
  refine List.countP_mono_left fun r _ hr => ?_
  simp only [meets, decide_eq_true_eq] at hr ⊢
  omega

/-- The outcome of `do_remove`: nothing of the interval is left, and the iterator returned
stands at the first range behind it. -/
def Removes (b : Build) (v : IndexSet) (begin stop : Nat)
    (result : Except Fault (IndexSet × Iterator)) : Prop :=
  ∃ v' it' A B, result = .ok (v', it') ∧ Valid b v' ∧ Splits v' it' A B ∧ Below A stop ∧
    (∀ r ∈ B, stop ≤ r.first) ∧ members v' = members v \ Set.Ico begin stop

/-- What remains to remove after one round is what there was, without what was removed. -/
theorem Removes.of_round {v₁ : IndexSet} {begin' : Nat} {result : Except Fault (IndexSet × Iterator)}
    (h : Removes b v₁ begin' stop result)
    (hround : members v₁ \ Set.Ico begin' stop = members v \ Set.Ico begin stop) :
    Removes b v begin stop result := by
  obtain ⟨v', it', A, B, hresult, hv', hsplits, hA, hB, hmembers⟩ := h
  exact ⟨v', it', A, B, hresult, hv', hsplits, hA, hB, hmembers.trans hround⟩

theorem doRemove_spec (k : Nat) : ∀ {v : IndexSet} {it : Iterator} {A B : List Range} {begin : Nat},
    Valid b v → Splits v it A B → Below A begin → begin < stop →
    pending begin stop (ranges v) < k →
    Removes b v begin stop (doRemove b k v it begin stop) := by
  induction k with
  | zero => exact fun _ _ _ _ hk => absurd hk (Nat.not_lt_zero _)
  | succ k ih =>
      intro v it₀ A₀ B₀ begin hv hsplits₀ hA₀ hlt hk
      obtain ⟨it, A, B, hfind, hsplits, hA, hB⟩ := find_spec hv hsplits₀ hA₀
      have hranges := hsplits.ranges_eq
      have hsep : Separated (A ++ B) := hranges ▸ hv.separated
      rw [doRemove, hfind, ok_bind, rangeAt_eq hsplits, ok_bind]
      have hbelow : ∀ x ∈ toSet A, x < begin := fun x hx => hA.lt hx
      cases B with
      | nil =>
          refine ⟨v, it, A, [], rfl, hv, hsplits, hA.mono hlt.le,
            fun _ hr => absurd hr List.not_mem_nil, ?_⟩
          rw [members_of_splits hsplits, List.append_nil]
          ext x
          exact ⟨fun hx => ⟨hx, fun hmem => Nat.not_le_of_lt (hbelow x hx) hmem.1⟩, And.left⟩
      | cons r B =>
          obtain ⟨hsA, hsB, hne, hAr, hrB⟩ := RangeList.separated_middle.mp hsep
          have hsecond := hB r List.mem_cons_self
          have hbehind : ∀ x ∈ toSet B, r.second < x := fun x hx =>
            (RangeList.separated_append.mp hsep).2.1.lt_of_mem_tail hx
          simp only [List.head?_cons]
          split
          next hpast =>
            have hall : ∀ r' ∈ r :: B, stop ≤ r'.first := by
              intro r' hr'
              rcases List.mem_cons.mp hr' with rfl | hr'
              · exact hpast
              · have := hrB r' hr'
                omega
            refine ⟨v, it, A, r :: B, rfl, hv, hsplits, hA.mono hlt.le, hall, ?_⟩
            rw [members_of_splits hsplits]
            ext x
            refine ⟨fun hx => ⟨hx, fun hmem => ?_⟩, And.left⟩
            rcases RangeList.mem_toSet_append.mp hx with hx | ⟨r', hr', hx⟩
            · exact Nat.not_le_of_lt (hbelow x hx) hmem.1
            · have := hall r' hr'
              have := hx.1
              have := hmem.2
              omega
          next hmeet =>
            have hmeet : r.first < stop := Nat.lt_of_not_le hmeet
            have hmax : max r.first begin < stop := Nat.max_lt.mpr ⟨hmeet, hlt⟩
            have hcount : pending begin stop B + 1 < k + 1 := by
              rw [hranges, pending_append, pending_below hA, Nat.zero_add,
                pending_cons_of_meets (by simp [meets, hsecond, hmeet])] at hk
              exact hk
            -- what is left of the range meets the rest of the interval no more
            have hdone : ∀ {l : List Range}, (∀ r' ∈ l, ¬ meets (max r.first begin) stop r') →
                pending (max r.first begin) stop (A ++ (l ++ B)) < k := by
              intro l hl
              have hmono : pending (max r.first begin) stop B ≤ pending begin stop B :=
                pending_mono (Nat.le_max_right r.first begin) B
              rw [pending_append, pending_append, pending_below (hA.mono (Nat.le_max_right ..)),
                pending, List.countP_eq_zero.mpr fun r' hr' => by simpa using hl r' hr']
              omega
            split
            next hboth =>
              obtain ⟨v₁, hset, ht₁, -, hsplits₁⟩ :=
                hsplits.set hv.tidy r.first (max r.first begin)
              obtain ⟨it₂, hnext, hsplits₂⟩ := hsplits₁.next ht₁
              have hsep₂ : Separated ((A ++ [⟨r.first, max r.first begin⟩]) ++ ⟨stop, r.second⟩ :: B) := by
                rw [List.append_assoc]
                refine RangeList.separated_middle.mpr ⟨hsA, RangeList.separated_cons.mpr
                  ⟨hboth.2, hrB, hsB⟩, hboth.1, hAr, fun r' hr' => ?_⟩
                rcases List.mem_cons.mp hr' with rfl | hr'
                · exact hmax
                · have := hrB r' hr'
                  show max r.first begin < _
                  omega
              obtain ⟨v₃, it₃, hinsert, ht₃, hsplits₃⟩ := hsplits₂.insert ht₁ hsep₂
              obtain ⟨it₄, hprev, hsplits₄⟩ := hsplits₃.prev ht₃
              rw [hset, ok_bind, hnext, ok_bind, hinsert, ok_bind]
              simp only
              rw [hprev, ok_bind]
              have hv₃ : Valid b v₃ := .of_splits ht₃ hsplits₃ hsep₂
              refine (ih hv₃ hsplits₄ (hA.mono (Nat.le_max_right ..)) hmax ?_).of_round ?_
              · rw [hsplits₄.ranges_eq]
                refine hdone (l := [⟨r.first, max r.first begin⟩, ⟨stop, r.second⟩]) fun r' hr' => ?_
                rw [meets, decide_eq_true_eq]
                simp only [List.mem_cons, List.not_mem_nil, or_false] at hr'
                rcases hr' with rfl | rfl
                · exact fun h => Nat.lt_irrefl _ h.1
                · exact fun h => Nat.lt_irrefl _ h.2
              · rw [members_of_splits hsplits₃, members_of_splits hsplits]
                ext x
                have hx := hbelow x
                have hy := hbehind x
                simp only [Set.mem_sdiff, RangeList.mem_toSet_append, RangeList.mem_toSet_cons,
                  RangeList.mem_toSet_nil, RangeList.mem_range, Set.mem_Ico]
                grind
            next hnotBoth =>
              split
              next hcovered =>
                have hsepAB : Separated (A ++ B) :=
                  RangeList.separated_append.mpr ⟨hsA, hsB, fun a ha r' hr' => by
                    have := hAr a ha
                    have := hrB r' hr'
                    omega⟩
                obtain ⟨v₁, it₁, herase, ht₁, hsplits₁⟩ := hsplits.erase hv.tidy hsepAB
                rw [herase, ok_bind]
                refine (ih (.of_splits ht₁ hsplits₁ hsepAB) hsplits₁
                  (hA.mono (Nat.le_max_right ..)) hmax ?_).of_round ?_
                · rw [hsplits₁.ranges_eq]
                  exact hdone (l := []) fun _ hr' => absurd hr' List.not_mem_nil
                · rw [members_of_splits hsplits₁, members_of_splits hsplits]
                  ext x
                  have hx := hbelow x
                  have hy := hbehind x
                  simp only [Set.mem_sdiff, RangeList.mem_toSet_append, RangeList.mem_toSet_cons,
                    RangeList.mem_range, Set.mem_Ico]
                  grind
              next hnotCovered =>
                split
                next hfront =>
                  have hstop : stop < r.second := Nat.lt_of_not_le fun h => hnotCovered ⟨hfront, h⟩
                  obtain ⟨v₁, hset, ht₁, -, hsplits₁⟩ := hsplits.set hv.tidy stop r.second
                  have hsep₁ : Separated (A ++ ⟨stop, r.second⟩ :: B) :=
                    RangeList.separated_middle.mpr ⟨hsA, hsB, hstop, fun a ha => by
                      have := hAr a ha
                      show a.second < stop
                      omega, hrB⟩
                  rw [hset, ok_bind]
                  refine (ih (.of_splits ht₁ hsplits₁ hsep₁) hsplits₁
                    (hA.mono (Nat.le_max_right ..)) hmax ?_).of_round ?_
                  · rw [hsplits₁.ranges_eq]
                    refine hdone (l := [⟨stop, r.second⟩]) fun r' hr' => ?_
                    rw [List.mem_singleton.mp hr', meets, decide_eq_true_eq]
                    exact fun h => Nat.lt_irrefl _ h.2
                  · rw [members_of_splits hsplits₁, members_of_splits hsplits]
                    ext x
                    have hx := hbelow x
                    have hy := hbehind x
                    simp only [Set.mem_sdiff, RangeList.mem_toSet_append, RangeList.mem_toSet_cons,
                      RangeList.mem_range, Set.mem_Ico]
                    grind
                next hback =>
                  have hfirst : r.first < max r.first begin :=
                    Nat.lt_of_le_of_ne (Nat.le_max_left ..) fun h => hback h.symm
                  have hstop : r.second ≤ stop := Nat.le_of_not_lt fun h => hnotBoth ⟨hfirst, h⟩
                  have hcut : max r.first begin ≤ r.second := Nat.max_le.mpr ⟨hne.le, hsecond.le⟩
                  obtain ⟨v₁, hset, ht₁, -, hsplits₁⟩ :=
                    hsplits.set hv.tidy r.first (max r.first begin)
                  have hsep₁ : Separated (A ++ ⟨r.first, max r.first begin⟩ :: B) :=
                    RangeList.separated_middle.mpr ⟨hsA, hsB, hfirst, hAr,
                      fun r' hr' => Nat.lt_of_le_of_lt hcut (hrB r' hr')⟩
                  rw [hset, ok_bind]
                  refine (ih (.of_splits ht₁ hsplits₁ hsep₁) hsplits₁
                    (hA.mono (Nat.le_max_right ..)) hmax ?_).of_round ?_
                  · rw [hsplits₁.ranges_eq]
                    refine hdone (l := [⟨r.first, max r.first begin⟩]) fun r' hr' => ?_
                    rw [List.mem_singleton.mp hr', meets, decide_eq_true_eq]
                    exact fun h => Nat.lt_irrefl _ h.1
                  · rw [members_of_splits hsplits₁, members_of_splits hsplits]
                    ext x
                    have hx := hbelow x
                    have hy := hbehind x
                    simp only [Set.mem_sdiff, RangeList.mem_toSet_append, RangeList.mem_toSet_cons,
                      RangeList.mem_range, Set.mem_Ico]
                    grind

theorem pending_lt_rounds (begin stop : Nat) (v : IndexSet) :
    pending begin stop (ranges v) < rounds v := Nat.lt_succ_of_le List.countP_le_length

theorem remove_spec (hv : Valid b v) (index : Nat) {count : Nat} (hcount : 0 < count) :
    ∃ v', remove b v index count = .ok v' ∧ Valid b v' ∧
      members v' = members v \ Set.Ico index (index + count) := by
  obtain ⟨it, A, B, hfind, hsplits, hA, hB⟩ := find_cbegin hv index
  obtain ⟨v', it', A', B', hremove, hv', -, -, -, hmembers⟩ := doRemove_spec (rounds v) hv hsplits hA
    (Nat.lt_add_of_pos_right hcount) (pending_lt_rounds index (index + count) v)
  rw [remove, hfind, ok_bind, hremove]
  exact ⟨v', rfl, hv', hmembers⟩

/-- The ranges to remove come one behind the other, and the iterator goes along. -/
theorem removeRanges_spec : ∀ {l : List Range} {v : IndexSet} {it : Iterator} {A B : List Range},
    Valid b v → Splits v it A B → Separated l → (∀ r ∈ l, Below A r.first) →
    ∃ v', removeRanges b v it l = .ok v' ∧ Valid b v' ∧ members v' = members v \ toSet l := by
  intro l
  induction l with
  | nil =>
      intro v it A B hv _ _ _
      exact ⟨v, rfl, hv, by simp⟩
  | cons r l ih =>
      intro v it A B hv hsplits hsep hA
      obtain ⟨hne, hr, hl⟩ := RangeList.separated_cons.mp hsep
      obtain ⟨v₁, it₁, A₁, B₁, hremove, hv₁, hsplits₁, hA₁, hB₁, hmembers₁⟩ :=
        doRemove_spec (rounds v) hv hsplits (hA r List.mem_cons_self) hne
          (pending_lt_rounds r.first r.second v)
      rw [removeRanges, hremove, ok_bind]
      simp only
      split
      next hend =>
        refine ⟨v₁, rfl, hv₁, ?_⟩
        -- nothing is left behind the range just removed
        have hempty : ∀ x ∈ members v₁, x ∉ toSet l := by
          rw [members_of_splits hsplits₁, hsplits₁.eq_cend_iff.mp hend, List.append_nil]
          intro x hx hmem
          have := hA₁.lt hx
          have := hsep.lt_of_mem_tail hmem
          omega
        rw [hmembers₁] at hempty ⊢
        ext x
        have hx := hempty x
        simp only [Set.mem_sdiff, Set.mem_Ico, RangeList.mem_toSet_cons, RangeList.mem_range] at hx ⊢
        grind
      next =>
        obtain ⟨v', hrest, hv', hmembers⟩ := ih hv₁ hsplits₁ hl fun r' hr' =>
          hA₁.mono (hr r' hr').le
        refine ⟨v', hrest, hv', ?_⟩
        rw [hmembers, hmembers₁]
        ext x
        simp only [Set.mem_sdiff, Set.mem_Ico, RangeList.mem_toSet_cons, RangeList.mem_range]
        grind

theorem removeAll_spec {values : IndexSet} (hv : Valid b v) (hvalues : Valid b values) :
    ∃ v', removeAll b v values = .ok v' ∧ Valid b v' ∧ members v' = members v \ members values :=
  removeRanges_spec hv (splits_cbegin hv.tidy) hvalues.separated
    fun _ _ _ hr => absurd hr List.not_mem_nil

end IndexSet

end Realm
