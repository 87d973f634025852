/-
# `Lib.Positions` — what inserting and erasing positions does to a set

A finite set `P` of positions is inserted into the natural numbers, or taken out of
them.  A place `x` goes to `spread P x`, the `x`-th number that is not a position, and
a number that is no position comes back to its `rank`.

A set `S` of numbers goes along: `moveAll` moves it, `insertAll` also puts the
positions in, and `eraseAll` is what is left of it when the positions are taken out.
Several positions may be inserted one by one, from the least to the greatest, and taken
out one by one, from the greatest to the least.
-/
import CrashRealm.Lib.RangeList
import Mathlib.Data.Nat.Nth
import Mathlib.Data.Set.Card
import Mathlib.Data.Set.Finite.Basic
import Mathlib.Order.Interval.Set.Basic

namespace Positions

variable {P Q S : Set Nat} {x y p : Nat}

open scoped Classical in
/-- How many positions there are below a number. -/
noncomputable def below (P : Set Nat) (y : Nat) : Nat := Nat.count (· ∈ P) y

/-- Where a place goes when the positions are inserted. -/
noncomputable def spread (P : Set Nat) (x : Nat) : Nat := Nat.nth (· ∉ P) x

/-- Where a number goes when the positions are taken out. -/
noncomputable def rank (P : Set Nat) (y : Nat) : Nat := y - below P y

def moveAll (S P : Set Nat) : Set Nat := Set.image (spread P) S

def insertAll (S P : Set Nat) : Set Nat := moveAll S P ∪ P

def eraseAll (S P : Set Nat) : Set Nat := Set.preimage (spread P) S

/-! ## Counting positions -/

@[simp] theorem below_zero : below P 0 = 0 := by
  rw [below, Nat.count_zero]

theorem below_succ_of_mem (h : y ∈ P) : below P (y + 1) = below P y + 1 := by
  rw [below, below, Nat.count_succ, if_pos h]

theorem below_succ_of_notMem (h : y ∉ P) : below P (y + 1) = below P y := by
  rw [below, below, Nat.count_succ, if_neg h, Nat.add_zero]

open scoped Classical in
/-- Each number below `y` is a position or not. -/
theorem below_add_count (P : Set Nat) (y : Nat) : below P y + Nat.count (· ∉ P) y = y := by
  induction y with
  | zero => simp
  | succ y ih =>
      by_cases h : y ∈ P
      · simp only [below_succ_of_mem h, Nat.count_succ, h, not_true_eq_false, if_false]
        omega
      · simp only [below_succ_of_notMem h, Nat.count_succ, h, not_false_eq_true, if_true]
        omega

theorem below_le (P : Set Nat) (y : Nat) : below P y ≤ y := by
  have := below_add_count P y
  omega

/-- Positions that come later do not count. -/
theorem below_congr (h : ∀ z < y, z ∈ P ↔ z ∈ Q) : below P y = below Q y := by
  induction y with
  | zero => simp
  | succ y ih =>
      have hbefore := ih fun z hz => h z (Nat.lt_succ_of_lt hz)
      have hy := h y (Nat.lt_succ_self y)
      by_cases hmem : y ∈ P
      · rw [below_succ_of_mem hmem, below_succ_of_mem (hy.mp hmem), hbefore]
      · rw [below_succ_of_notMem hmem, below_succ_of_notMem fun hQ => hmem (hy.mpr hQ), hbefore]

theorem below_eq_zero (h : ∀ z ∈ P, y ≤ z) : below P y = 0 := by
  induction y with
  | zero => simp
  | succ y ih =>
      rw [below_succ_of_notMem fun hmem => Nat.not_succ_le_self y (h y hmem)]
      exact ih fun z hz => Nat.le_of_succ_le (h z hz)

@[simp] theorem below_empty (y : Nat) : below ∅ y = 0 := below_eq_zero fun _ hz => hz.elim

theorem below_union (h : ∀ z ∈ P, z ∉ Q) (y : Nat) : below (P ∪ Q) y = below P y + below Q y := by
  induction y with
  | zero => simp
  | succ y ih =>
      by_cases hP : y ∈ P
      · have hQ : y ∉ Q := h y hP
        rw [below_succ_of_mem (Or.inl hP), below_succ_of_mem hP, below_succ_of_notMem hQ, ih]
        omega
      · by_cases hQ : y ∈ Q
        · rw [below_succ_of_mem (Or.inr hQ), below_succ_of_notMem hP, below_succ_of_mem hQ, ih]
          omega
        · rw [below_succ_of_notMem fun hy => hy.elim hP hQ, below_succ_of_notMem hP,
            below_succ_of_notMem hQ, ih]

/-- The positions of an interval. -/
theorem below_Ico (i j y : Nat) : below (Set.Ico i j) y = min y j - i := by
  induction y with
  | zero => simp
  | succ y ih =>
      by_cases hy : y ∈ Set.Ico i j
      · rw [below_succ_of_mem hy, ih]
        have := hy.1
        have := hy.2
        omega
      · rw [below_succ_of_notMem hy, ih]
        have hy : i ≤ y → j ≤ y := fun hi => Nat.le_of_not_lt fun hj => hy ⟨hi, hj⟩
        omega

/-- The positions from `x` on, and below `y`. -/
theorem ncard_add_below (P : Set Nat) (h : x ≤ y) :
    (P ∩ Set.Ico x y).ncard + below P x = below P y := by
  induction y, h using Nat.le_induction with
  | base => simp
  | succ y hxy ih =>
      have hfinite : (P ∩ Set.Ico x y).Finite := (Set.finite_Ico x y).subset Set.inter_subset_right
      by_cases hy : y ∈ P
      · have hset : P ∩ Set.Ico x (y + 1) = insert y (P ∩ Set.Ico x y) := by
          ext z
          simp only [Set.mem_inter_iff, Set.mem_Ico, Set.mem_insert_iff]
          grind
        have hnot : y ∉ P ∩ Set.Ico x y := fun hmem => Nat.lt_irrefl y hmem.2.2
        rw [hset, Set.ncard_insert_of_notMem hnot hfinite, below_succ_of_mem hy]
        omega
      · have hset : P ∩ Set.Ico x (y + 1) = P ∩ Set.Ico x y := by
          ext z
          simp only [Set.mem_inter_iff, Set.mem_Ico]
          grind
        rw [hset, below_succ_of_notMem hy, ih]

theorem singleton_eq_Ico (p : Nat) : ({p} : Set Nat) = Set.Ico p (p + 1) := by
  ext y
  rw [Set.mem_singleton_iff, Set.mem_Ico]
  omega

/-! ## Where a place goes -/

theorem infinite_compl (hP : P.Finite) : (Set.ofPred (· ∉ P)).Infinite := hP.infinite_compl

theorem spread_notMem (hP : P.Finite) (x : Nat) : spread P x ∉ P :=
  Nat.nth_mem_of_infinite (infinite_compl hP) x

theorem spread_strictMono (hP : P.Finite) : StrictMono (spread P) :=
  Nat.nth_strictMono (infinite_compl hP)

/-- A place goes as far as there are positions before where it goes. -/
theorem below_spread (hP : P.Finite) (x : Nat) : below P (spread P x) + x = spread P x := by
  classical
  have hcount : Nat.count (· ∉ P) (spread P x) = x :=
    Nat.count_nth_of_infinite (infinite_compl hP) x
  have := below_add_count P (spread P x)
  omega

/-- Nothing else goes there. -/
theorem spread_eq (hy : y ∉ P) (hx : below P y + x = y) : spread P x = y := by
  classical
  have hcount : Nat.count (· ∉ P) y = x := by
    have := below_add_count P y
    omega
  rw [spread, ← hcount]
  exact Nat.nth_count hy

theorem spread_rank (hy : y ∉ P) : spread P (rank P y) = y := by
  refine spread_eq hy ?_
  have := below_le P y
  rw [rank]
  omega

theorem rank_spread (hP : P.Finite) (x : Nat) : rank P (spread P x) = x := by
  have := below_spread hP x
  rw [rank]
  omega

@[simp] theorem spread_empty (x : Nat) : spread ∅ x = x :=
  spread_eq (Set.notMem_empty x) (by simp)

/-- Where the places go when an interval is inserted. -/
theorem spread_Ico (i c x : Nat) : spread (Set.Ico i (i + c)) x = if x < i then x else x + c := by
  split
  next hlt =>
    refine spread_eq (fun hmem => Nat.not_le_of_lt hlt hmem.1) ?_
    rw [below_Ico]
    omega
  next hge =>
    refine spread_eq (fun hmem => ?_) ?_
    · have := hmem.2
      omega
    · rw [below_Ico]
      omega

theorem rank_mono (P : Set Nat) (h : x ≤ y) : rank P x ≤ rank P y := by
  induction y, h using Nat.le_induction with
  | base => exact Nat.le_refl _
  | succ y _ ih =>
      refine ih.trans ?_
      have := below_le P y
      rw [rank, rank]
      by_cases hy : y ∈ P
      · rw [below_succ_of_mem hy]
        omega
      · rw [below_succ_of_notMem hy]
        omega

/-- A number that is no position stays apart from what comes after it. -/
theorem rank_lt (hx : x ∉ P) (h : x < y) : rank P x < rank P y := by
  refine Nat.lt_of_lt_of_le ?_ (rank_mono P h)
  have := below_le P x
  rw [rank, rank, below_succ_of_notMem hx]
  omega

/-! ## Positions in a list -/

section List

variable {d l : List Nat}

/-- The positions of a sorted list, cut in two before and behind `y`. -/
theorem below_list (hsorted : (d ++ l).Pairwise (· < ·)) (hd : ∀ p ∈ d, p < y) (hl : ∀ p ∈ l, y ≤ p) :
    below {z | z ∈ d ++ l} y = d.length := by
  induction d with
  | nil => exact below_eq_zero hl
  | cons p d ih =>
      obtain ⟨hp, hrest⟩ := List.pairwise_cons.mp hsorted
      have hset : {z | z ∈ p :: d ++ l} = {p} ∪ {z | z ∈ d ++ l} := by
        ext z
        exact List.mem_cons
      have hone : below {p} y = 1 := by
        have := hd p List.mem_cons_self
        rw [singleton_eq_Ico, below_Ico]
        omega
      rw [hset, below_union, hone, ih hrest fun q hq => hd q (List.mem_cons_of_mem _ hq),
        List.length_cons, Nat.add_comm]
      rintro z rfl hz
      exact Nat.lt_irrefl z (hp z hz)

theorem spread_list (hsorted : (d ++ l).Pairwise (· < ·)) (hd : ∀ p ∈ d, p < x + d.length)
    (hl : ∀ p ∈ l, x + d.length < p) : spread {z | z ∈ d ++ l} x = x + d.length := by
  refine spread_eq (fun hmem => ?_) ?_
  · rcases List.mem_append.mp hmem with hmem | hmem
    · exact Nat.lt_irrefl _ (hd _ hmem)
    · exact Nat.lt_irrefl _ (hl _ hmem)
  · rw [below_list hsorted hd fun p hp => (hl p hp).le, Nat.add_comm]

end List

/-! ## Sets that go along -/

theorem mem_moveAll (hP : P.Finite) : y ∈ moveAll S P ↔ y ∉ P ∧ rank P y ∈ S := by
  constructor
  · rintro ⟨x, hx, rfl⟩
    rw [rank_spread hP]
    exact ⟨spread_notMem hP x, hx⟩
  · rintro ⟨hy, hmem⟩
    exact ⟨rank P y, hmem, spread_rank hy⟩

theorem mem_insertAll (hP : P.Finite) : y ∈ insertAll S P ↔ y ∈ P ∨ y ∉ P ∧ rank P y ∈ S := by
  rw [insertAll, Set.mem_union, mem_moveAll hP, or_comm]

theorem mem_eraseAll : x ∈ eraseAll S P ↔ spread P x ∈ S := Iff.rfl

/-- What is left is what was no position, each where it has gone. -/
theorem eraseAll_eq_image (hP : P.Finite) (S : Set Nat) :
    eraseAll S P = Set.image (rank P) (S \ P) := by
  ext x
  constructor
  · intro hx
    exact ⟨spread P x, ⟨hx, spread_notMem hP x⟩, rank_spread hP x⟩
  · rintro ⟨y, hy, rfl⟩
    rw [mem_eraseAll, spread_rank hy.2]
    exact hy.1

/-- What was inserted can be taken out again. -/
theorem eraseAll_insertAll (hP : P.Finite) (S : Set Nat) : eraseAll (insertAll S P) P = S := by
  ext x
  rw [mem_eraseAll, mem_insertAll hP, rank_spread hP]
  simp [spread_notMem hP x]

/-- What was taken out comes back where it was. -/
theorem insertAll_eraseAll (hP : P.Finite) (S : Set Nat) : insertAll (eraseAll S P) P = S ∪ P := by
  ext y
  rw [mem_insertAll hP, Set.mem_union]
  by_cases hy : y ∈ P
  · simp [hy]
  · simp [hy, mem_eraseAll, spread_rank hy]

theorem moveAll_eraseAll (hP : P.Finite) (S : Set Nat) : moveAll (eraseAll S P) P = S \ P := by
  ext y
  rw [mem_moveAll hP, Set.mem_sdiff]
  by_cases hy : y ∈ P
  · simp [hy]
  · simp [hy, mem_eraseAll, spread_rank hy]

theorem insertAll_Ico (S : Set Nat) (i c : Nat) : insertAll S (Set.Ico i (i + c)) =
    {y | y < i ∧ y ∈ S ∨ i ≤ y ∧ y < i + c ∨ i + c ≤ y ∧ y - c ∈ S} := by
  ext y
  rw [mem_insertAll (Set.finite_Ico _ _), Set.mem_Ico, rank, below_Ico, Set.mem_ofPred_eq]
  rcases Nat.lt_or_ge y i with hlt | hge
  · have h₁ : y - (min y (i + c) - i) = y := by omega
    rw [h₁]
    grind
  · rcases Nat.lt_or_ge y (i + c) with hlt' | hge'
    · grind
    · have h₁ : y - (min y (i + c) - i) = y - c := by omega
      rw [h₁]
      grind

theorem moveAll_Ico (S : Set Nat) (i c : Nat) : moveAll S (Set.Ico i (i + c)) =
    {y | y < i ∧ y ∈ S ∨ i + c ≤ y ∧ y - c ∈ S} := by
  ext y
  rw [mem_moveAll (Set.finite_Ico _ _), Set.mem_Ico, rank, below_Ico, Set.mem_ofPred_eq]
  rcases Nat.lt_or_ge y i with hlt | hge
  · have h₁ : y - (min y (i + c) - i) = y := by omega
    rw [h₁]
    grind
  · rcases Nat.lt_or_ge y (i + c) with hlt' | hge'
    · grind
    · have h₁ : y - (min y (i + c) - i) = y - c := by omega
      rw [h₁]
      grind

theorem eraseAll_Ico (S : Set Nat) (i c : Nat) : eraseAll S (Set.Ico i (i + c)) =
    {x | if x < i then x ∈ S else x + c ∈ S} := by
  ext x
  rw [mem_eraseAll, spread_Ico, Set.mem_ofPred_eq]
  split
  · exact Iff.rfl
  · exact Iff.rfl

/-! ## One position after the other -/

theorem spread_singleton (p x : Nat) : spread {p} x = if x < p then x else x + 1 := by
  rw [singleton_eq_Ico, spread_Ico]

/-- A position behind all others is inserted last. -/
theorem spread_insert (hP : P.Finite) (h : ∀ q ∈ P, q < p) (x : Nat) :
    spread (insert p P) x = spread {p} (spread P x) := by
  have hbelow := below_spread hP x
  have hnot := spread_notMem hP x
  rw [spread_singleton]
  split
  next hlt =>
    refine spread_eq (fun hmem => ?_) ?_
    · rcases hmem with heq | hmem
      · exact absurd heq (Nat.ne_of_lt hlt)
      · exact hnot hmem
    · rw [below_congr (Q := P) fun z hz => ?_, hbelow]
      rw [Set.mem_insert_iff, or_iff_right (by omega)]
  next hge =>
    have hle : p ≤ spread P x := Nat.le_of_not_lt hge
    refine spread_eq (fun hmem => ?_) ?_
    · rcases hmem with heq | hmem
      · omega
      · have := h _ hmem
        omega
    · have hdisj : ∀ z ∈ ({p} : Set Nat), z ∉ P := by
        rintro z rfl hz
        exact Nat.lt_irrefl z (h z hz)
      have hsame : below {p} (spread P x + 1) = 1 := by
        rw [singleton_eq_Ico, below_Ico]
        omega
      rw [Set.insert_eq, below_union hdisj, hsame, below_succ_of_notMem hnot]
      omega

theorem insertAll_insert (hP : P.Finite) (h : ∀ q ∈ P, q < p) (S : Set Nat) :
    insertAll S (insert p P) = insertAll (insertAll S P) {p} := by
  have hspread : spread (insert p P) = spread {p} ∘ spread P := funext (spread_insert hP h)
  have hfix : Set.image (spread {p}) P = P := by
    refine (Set.image_congr fun q hq => ?_).trans (Set.image_id P)
    rw [spread_singleton, if_pos (h q hq), id]
  rw [insertAll, insertAll, insertAll, moveAll, moveAll, moveAll, hspread, Set.image_comp,
    Set.image_union, hfix, Set.insert_eq, Set.union_comm {p}, Set.union_assoc]

theorem eraseAll_insert (hP : P.Finite) (h : ∀ q ∈ P, q < p) (S : Set Nat) :
    eraseAll S (insert p P) = eraseAll (eraseAll S {p}) P := by
  have hspread : spread (insert p P) = spread {p} ∘ spread P := funext (spread_insert hP h)
  rw [eraseAll, eraseAll, eraseAll, hspread, Set.preimage_comp]

/-! ## Positions that are given by ranges -/

section Ranges

open RangeList

variable {A B l : List Range} {r : Range}

theorem toSet_cons (r : Range) (l : List Range) :
    toSet (r :: l) = Set.Ico r.first r.second ∪ toSet l := by
  ext z
  exact mem_toSet_cons

theorem finite_toSet (l : List Range) : (toSet l).Finite := by
  induction l with
  | nil => simp
  | cons r l ih =>
      rw [toSet_cons]
      exact (Set.finite_Ico _ _).union ih

theorem below_toSet_cons (h : Separated (r :: l)) (y : Nat) :
    below (toSet (r :: l)) y = (min y r.second - r.first) + below (toSet l) y := by
  rw [toSet_cons, below_union, below_Ico]
  intro z hz hmem
  have := h.lt_of_mem_tail hmem
  have := hz.2
  omega

/-- All numbers of the ranges that end before `y` are below it. -/
theorem below_toSet_append (h : Separated (A ++ B)) (hA : Below A y) :
    below (toSet (A ++ B)) y = total A + below (toSet B) y := by
  induction A with
  | nil => simp
  | cons r A ih =>
      have hr := hA r List.mem_cons_self
      rw [List.cons_append] at h ⊢
      rw [below_toSet_cons h, ih (separated_cons.mp h).2.2 fun r' hr' => hA r' (List.mem_cons_of_mem _ hr'),
        Nat.min_eq_right hr, total_cons, width]
      omega

/-- No number of the ranges that begin at `y` or behind it is below it. -/
theorem below_toSet_eq_zero (hB : ∀ r ∈ B, y ≤ r.first) : below (toSet B) y = 0 := by
  refine below_eq_zero ?_
  rintro z ⟨r, hr, hz⟩
  exact (hB r hr).trans hz.1

/-- Where a place goes that is between the ranges. -/
theorem spread_toSet (h : Separated (A ++ B)) (hA : Below A (x + total A))
    (hB : ∀ r ∈ B, x + total A < r.first) : spread (toSet (A ++ B)) x = x + total A := by
  refine spread_eq ?_ ?_
  · rw [mem_toSet_append]
    rintro (hmem | ⟨r, hr, hmem⟩)
    · exact hA.notMem (Nat.le_refl _) hmem
    · exact Nat.not_le_of_lt (hB r hr) hmem.1
  · rw [below_toSet_append h hA, below_toSet_eq_zero fun r hr => (hB r hr).le]
    omega

end Ranges

end Positions
