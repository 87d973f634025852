/-
# `Lib.RangeList` — lists of half-open ranges of natural numbers

A range `[first, second)` is a set of numbers, and a list of ranges their union
(`toSet`).  In a `Separated` list the ranges are not empty and neither touch nor
overlap, in increasing order: such a list is the only one for its set
(`Separated.ext`).

A list is edited at a number by a split into the ranges that end at or before it
(`Below`) and those that end after it (`Above`); the second part may be moved up or
down as a whole (`up`, `down`).
-/
import Mathlib.Algebra.GroupWithZero.Nat
import Mathlib.Data.List.Pairwise
import Mathlib.Data.Set.Insert

namespace RangeList

/-- `[first, second)` -/
structure Range where
  first : Nat
  second : Nat
  deriving DecidableEq, Repr

instance : Membership Nat Range := ⟨fun r x => r.first ≤ x ∧ x < r.second⟩

theorem mem_range {r : Range} {x : Nat} : x ∈ r ↔ r.first ≤ x ∧ x < r.second := Iff.rfl

/-- How many numbers a range has. -/
def width (r : Range) : Nat := r.second - r.first

/-- The numbers of all ranges. -/
def toSet (l : List Range) : Set Nat := {x | ∃ r ∈ l, x ∈ r}

variable {l l' A B : List Range} {r : Range} {i x : Nat}

@[simp] theorem mem_toSet_nil : x ∉ toSet [] := by
  rintro ⟨r, hr, -⟩
  cases hr

@[simp] theorem toSet_nil : toSet [] = ∅ := Set.eq_empty_iff_forall_notMem.mpr fun _ => mem_toSet_nil

@[simp] theorem mem_toSet_cons : x ∈ toSet (r :: l) ↔ x ∈ r ∨ x ∈ toSet l := by
  constructor
  · rintro ⟨r', hmem, hx⟩
    rcases List.mem_cons.mp hmem with rfl | hmem
    · exact .inl hx
    · exact .inr ⟨r', hmem, hx⟩
  · rintro (hx | ⟨r', hmem, hx⟩)
    · exact ⟨r, List.mem_cons_self, hx⟩
    · exact ⟨r', List.mem_cons_of_mem _ hmem, hx⟩

@[simp] theorem mem_toSet_append : x ∈ toSet (A ++ B) ↔ x ∈ toSet A ∨ x ∈ toSet B := by
  induction A with
  | nil => simp
  | cons r A ih => rw [List.cons_append, mem_toSet_cons, mem_toSet_cons, ih, or_assoc]

/-! ## Separated lists -/

structure Separated (l : List Range) : Prop where
  nonempty : ∀ r ∈ l, r.first < r.second
  apart : l.Pairwise fun r r' => r.second < r'.first

theorem separated_nil : Separated [] :=
  ⟨fun _ hr => absurd hr List.not_mem_nil, List.Pairwise.nil⟩

theorem separated_append : Separated (A ++ B) ↔
    Separated A ∧ Separated B ∧ ∀ a ∈ A, ∀ b ∈ B, a.second < b.first := by
  constructor
  · rintro ⟨hne, hapart⟩
    obtain ⟨hA, hB, hcross⟩ := List.pairwise_append.mp hapart
    exact ⟨⟨fun r hr => hne r (List.mem_append_left _ hr), hA⟩,
      ⟨fun r hr => hne r (List.mem_append_right _ hr), hB⟩, hcross⟩
  · rintro ⟨hA, hB, hcross⟩
    refine ⟨fun r hr => ?_, List.pairwise_append.mpr ⟨hA.apart, hB.apart, hcross⟩⟩
    rcases List.mem_append.mp hr with hr | hr
    · exact hA.nonempty r hr
    · exact hB.nonempty r hr

theorem separated_cons : Separated (r :: l) ↔
    r.first < r.second ∧ (∀ r' ∈ l, r.second < r'.first) ∧ Separated l := by
  constructor
  · rintro ⟨hne, hapart⟩
    obtain ⟨hr, hl⟩ := List.pairwise_cons.mp hapart
    exact ⟨hne r List.mem_cons_self, hr, ⟨fun r' hr' => hne r' (List.mem_cons_of_mem _ hr'), hl⟩⟩
  · rintro ⟨hne, hr, hl⟩
    refine ⟨fun r' hr' => ?_, List.pairwise_cons.mpr ⟨hr, hl.apart⟩⟩
    rcases List.mem_cons.mp hr' with rfl | hr'
    · exact hne
    · exact hl.nonempty r' hr'

/-- A range in the middle. -/
theorem separated_middle : Separated (A ++ r :: B) ↔ Separated A ∧ Separated B ∧
    r.first < r.second ∧ (∀ a ∈ A, a.second < r.first) ∧ ∀ b ∈ B, r.second < b.first := by
  rw [separated_append, separated_cons]
  constructor
  · rintro ⟨hA, ⟨hr, hrB, hB⟩, hcross⟩
    exact ⟨hA, hB, hr, fun a ha => hcross a ha r List.mem_cons_self, hrB⟩
  · rintro ⟨hA, hB, hr, hAr, hrB⟩
    refine ⟨hA, ⟨hr, hrB, hB⟩, fun a ha b hb => ?_⟩
    have := hAr a ha
    rcases List.mem_cons.mp hb with rfl | hb
    · exact this
    · have := hrB b hb
      omega

/-- How many numbers the ranges have together. -/
def total (l : List Range) : Nat := (l.map width).sum

theorem total_append (l l' : List Range) : total (l ++ l') = total l + total l' := by
  simp [total]

@[simp] theorem total_cons (r : Range) (l : List Range) : total (r :: l) = width r + total l := by
  simp [total]

@[simp] theorem total_nil : total [] = 0 := rfl

/-- There is room for them between the first range and the end of the last. -/
theorem Separated.total_add_first_le (h : Separated (r :: l)) {stop : Nat}
    (hstop : (r :: l).getLast?.map Range.second = some stop) : total (r :: l) + r.first ≤ stop := by
  induction l generalizing r with
  | nil =>
      have := (separated_cons.mp h).1
      have hstop : r.second = stop := Option.some.inj hstop
      show width r + 0 + r.first ≤ stop
      rw [width]
      omega
  | cons r' l ih =>
      obtain ⟨hne, hr, hl⟩ := separated_cons.mp h
      have hrest := ih hl (by simpa using hstop)
      have := hr r' List.mem_cons_self
      show width r + total (r' :: l) + r.first ≤ stop
      rw [width]
      omega

/-! ## The numbers, one by one -/

/-- The numbers of the ranges, in order. -/
def indices (l : List Range) : List Nat := l.flatMap fun r => List.range' r.first (width r)

@[simp] theorem indices_nil : indices [] = [] := rfl

@[simp] theorem indices_cons (r : Range) (l : List Range) :
    indices (r :: l) = List.range' r.first (width r) ++ indices l := rfl

theorem mem_indices : x ∈ indices l ↔ x ∈ toSet l := by
  induction l with
  | nil => simp
  | cons r l ih =>
      have hrange : x ∈ List.range' r.first (width r) ↔ x ∈ r := by
        rw [List.mem_range'_1, mem_range, width]
        omega
      rw [indices_cons, List.mem_append, ih, mem_toSet_cons, hrange]

theorem length_indices (l : List Range) : (indices l).length = total l := by
  induction l with
  | nil => rfl
  | cons r l ih => rw [indices_cons, List.length_append, List.length_range', ih, total_cons]

/-! ## Before and after a number -/

/-- No range reaches beyond `i`. -/
def Below (A : List Range) (i : Nat) : Prop := ∀ r ∈ A, r.second ≤ i

/-- Every range reaches beyond `i`. -/
def Above (B : List Range) (i : Nat) : Prop := ∀ r ∈ B, i < r.second

theorem Below.mono (h : Below A i) {j : Nat} (hij : i ≤ j) : Below A j :=
  fun r hr => (h r hr).trans hij

theorem Below.notMem (h : Below A i) (hix : i ≤ x) : x ∉ toSet A := by
  rintro ⟨r, hr, hx⟩
  exact absurd ((h r hr).trans hix) (Nat.not_le_of_lt hx.2)

theorem Below.lt (h : Below A i) (hx : x ∈ toSet A) : x < i :=
  Nat.lt_of_not_le fun hix => h.notMem hix hx

/-- All ranges of a separated list reach beyond `i` if the first does. -/
theorem Separated.above (h : Separated (r :: l)) (hi : i < r.second) : Above (r :: l) i := by
  intro r' hr'
  obtain ⟨-, hr, hl⟩ := separated_cons.mp h
  rcases List.mem_cons.mp hr' with rfl | hr'
  · exact hi
  · have := hr r' hr'
    have := hl.nonempty r' hr'
    omega

/-- What follows a range of a separated list lies beyond it. -/
theorem Separated.first_le (h : Separated (r :: l)) (hx : x ∈ toSet (r :: l)) : r.first ≤ x := by
  obtain ⟨-, hr, -⟩ := separated_cons.mp h
  rcases mem_toSet_cons.mp hx with hx | ⟨r', hr', hx⟩
  · exact hx.1
  · have := hr r' hr'
    have := (separated_cons.mp h).1
    have := hx.1
    omega

theorem Separated.lt_of_mem_tail (h : Separated (r :: l)) (hx : x ∈ toSet l) : r.second < x := by
  obtain ⟨-, hr, -⟩ := separated_cons.mp h
  obtain ⟨r', hr', hx⟩ := hx
  exact Nat.lt_of_lt_of_le (hr r' hr') hx.1

theorem Separated.indices_sorted (h : Separated l) : (indices l).Pairwise (· < ·) := by
  induction l with
  | nil => exact List.Pairwise.nil
  | cons r l ih =>
      refine List.pairwise_append.mpr
        ⟨List.pairwise_lt_range', ih (separated_cons.mp h).2.2, fun x hx y hy => ?_⟩
      have := h.lt_of_mem_tail (mem_indices.mp hy)
      have := (separated_cons.mp h).1
      have := (List.mem_range'_1.mp hx).2
      rw [width] at this
      omega

/-- The number after a range is in no range. -/
theorem Separated.second_notMem (h : Separated (r :: l)) : r.second ∉ toSet (r :: l) := by
  intro hx
  rcases mem_toSet_cons.mp hx with hx | hx
  · exact Nat.lt_irrefl _ hx.2
  · exact Nat.lt_irrefl _ (h.lt_of_mem_tail hx)

/-- A separated list is determined by its numbers. -/
theorem Separated.ext (hl : Separated l) : ∀ {l' : List Range}, Separated l' →
    toSet l = toSet l' → l = l' := by
  induction l with
  | nil =>
      intro l' hl' heq
      cases l' with
      | nil => rfl
      | cons r' l' =>
          have hmem : r'.first ∈ toSet (r' :: l') :=
            mem_toSet_cons.mpr (.inl ⟨Nat.le_refl _, (separated_cons.mp hl').1⟩)
          rw [← heq] at hmem
          exact absurd hmem mem_toSet_nil
  | cons r l ih =>
      intro l' hl' heq
      cases l' with
      | nil =>
          have hmem : r.first ∈ toSet (r :: l) :=
            mem_toSet_cons.mpr (.inl ⟨Nat.le_refl _, (separated_cons.mp hl).1⟩)
          rw [heq] at hmem
          exact absurd hmem mem_toSet_nil
      | cons r' l' =>
          have hne := (separated_cons.mp hl).1
          have hne' := (separated_cons.mp hl').1
          have hfirst : r.first = r'.first := by
            have hmem : r.first ∈ toSet (r' :: l') :=
              heq ▸ mem_toSet_cons.mpr (.inl ⟨Nat.le_refl _, hne⟩)
            have hmem' : r'.first ∈ toSet (r :: l) :=
              heq ▸ mem_toSet_cons.mpr (.inl ⟨Nat.le_refl _, hne'⟩)
            exact Nat.le_antisymm (hl.first_le hmem') (hl'.first_le hmem)
          have hsecond : r.second = r'.second := by
            refine Nat.le_antisymm (Nat.le_of_not_lt fun hlt => ?_) (Nat.le_of_not_lt fun hlt => ?_)
            · refine hl'.second_notMem (heq ▸ mem_toSet_cons.mpr (.inl ⟨?_, hlt⟩))
              omega
            · refine hl.second_notMem (heq ▸ mem_toSet_cons.mpr (.inl ⟨?_, hlt⟩))
              omega
          have hr : r = r' := by
            cases r
            cases r'
            cases hfirst
            cases hsecond
            rfl
          subst hr
          congr 1
          refine ih (separated_cons.mp hl).2.2 (separated_cons.mp hl').2.2 ?_
          ext x
          have hiff : x ∈ toSet (r :: l) ↔ x ∈ toSet (r :: l') := by rw [heq]
          rw [mem_toSet_cons, mem_toSet_cons] at hiff
          constructor
          · intro hx
            have := hl.lt_of_mem_tail hx
            rcases hiff.mp (.inr hx) with hx' | hx'
            · have := hx'.2
              omega
            · exact hx'
          · intro hx
            have := hl'.lt_of_mem_tail hx
            rcases hiff.mpr (.inr hx) with hx' | hx'
            · have := hx'.2
              omega
            · exact hx'

/-- The ranges end before `i` if the last does. -/
theorem Separated.lt_of_getLast? (h : Separated A) (hA : Below A i)
    (hlast : ∀ r ∈ A.getLast?, r.second ≠ i) : ∀ a ∈ A, a.second < i := by
  intro a ha
  obtain ⟨l, l', rfl⟩ := List.append_of_mem ha
  refine Nat.lt_of_le_of_ne (hA a ha) fun heq => ?_
  rcases List.eq_nil_or_concat l' with rfl | ⟨l', r', rfl⟩
  · exact hlast a (by simp) heq
  · have hrest := (separated_middle.mp h).2.2.2.2 r' (by simp)
    have := h.nonempty r' (by simp)
    have := hA r' (by simp)
    omega

/-! ## Moving ranges -/

/-- Each range, further up by `c`. -/
def up (c : Nat) (l : List Range) : List Range := l.map fun r => ⟨r.first + c, r.second + c⟩

/-- Each range, further down by one. -/
def down (l : List Range) : List Range := l.map fun r => ⟨r.first - 1, r.second - 1⟩

@[simp] theorem up_cons (c : Nat) (r : Range) (l : List Range) :
    up c (r :: l) = ⟨r.first + c, r.second + c⟩ :: up c l := rfl

@[simp] theorem down_cons (r : Range) (l : List Range) :
    down (r :: l) = ⟨r.first - 1, r.second - 1⟩ :: down l := rfl

theorem mem_toSet_up {c : Nat} : x ∈ toSet (up c l) ↔ c ≤ x ∧ x - c ∈ toSet l := by
  induction l with
  | nil => simp [up]
  | cons r l ih =>
      rw [up_cons, mem_toSet_cons, mem_toSet_cons, ih, mem_range, mem_range]
      by_cases hcx : c ≤ x
      · have : r.first + c ≤ x ∧ x < r.second + c ↔ r.first ≤ x - c ∧ x - c < r.second := by omega
        simp [hcx, this]
      · simp only [hcx, false_and, or_false, iff_false]
        omega

theorem mem_toSet_down (h : ∀ r ∈ l, 0 < r.first) : x ∈ toSet (down l) ↔ x + 1 ∈ toSet l := by
  induction l with
  | nil => simp [down]
  | cons r l ih =>
      rw [down_cons, mem_toSet_cons, mem_toSet_cons, ih fun r' hr' => h r' (List.mem_cons_of_mem _ hr'),
        mem_range, mem_range]
      have := h r List.mem_cons_self
      have : r.first - 1 ≤ x ∧ x < r.second - 1 ↔ r.first ≤ x + 1 ∧ x + 1 < r.second := by omega
      rw [this]

theorem Separated.up (h : Separated l) (c : Nat) : Separated (RangeList.up c l) := by
  constructor
  · intro r hr
    obtain ⟨r₀, hr₀, rfl⟩ := List.mem_map.mp hr
    exact Nat.add_lt_add_right (h.nonempty r₀ hr₀) c
  · refine List.pairwise_map.mpr (h.apart.imp fun hlt => ?_)
    exact Nat.add_lt_add_right hlt c

theorem Separated.down (h : Separated l) (hpos : ∀ r ∈ l, 0 < r.first) :
    Separated (RangeList.down l) := by
  constructor
  · intro r hr
    obtain ⟨r₀, hr₀, rfl⟩ := List.mem_map.mp hr
    have := h.nonempty r₀ hr₀
    have := hpos r₀ hr₀
    show r₀.first - 1 < r₀.second - 1
    omega
  · refine List.pairwise_map.mpr (h.apart.imp_of_mem fun {r r'} hr _ hlt => ?_)
    have := h.nonempty r hr
    show r.second - 1 < r'.first - 1
    omega

end RangeList
