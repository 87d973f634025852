/-
# `Lib.Occurrence` — where a list occurs in another

**Searching.**  `search` finds the first occurrence (`search_eq_some_iff`).

**Leftmost occurrences.**  `Leftmost needle s stop e os`: the list `os` is what one
gets by taking the first occurrence from `e` on, going on behind it, and stopping
where none fits before `stop`.  There is exactly one such list, and no list of
occurrences that do not overlap is longer (`Leftmost.length_le`).

**Cutting.**  `pieces` cuts a list at given positions.  Cut at occurrences, the
pieces joined by the needle give the list back (`intercalate_pieces`), and none of
them contains the needle exactly when no occurrence lies in a gap
(`pieces_free_iff`).
-/
import Mathlib.Data.List.Basic
import Mathlib.Order.Basic
import Mathlib.Order.Nat

universe u

namespace Occurrence

variable {α : Type u} [DecidableEq α]

/-- `needle` stands in `s` at `i`. -/
def OccursAt (needle s : List α) (i : Nat) : Prop := i ≤ s.length ∧ needle <+: s.drop i

instance (needle s : List α) (i : Nat) : Decidable (OccursAt needle s i) :=
  inferInstanceAs (Decidable (_ ∧ _))

/-- The first place `needle` stands at. -/
def search (needle : List α) : List α → Option Nat
  | [] => if needle <+: [] then some 0 else none
  | c :: s => if needle <+: c :: s then some 0 else (search needle s).map (· + 1)

/-- The first occurrence at or after `c`. -/
structure IsFirst (needle s : List α) (c o : Nat) : Prop where
  le : c ≤ o
  occurs : OccursAt needle s o
  first : ∀ j, c ≤ j → j < o → ¬ OccursAt needle s j

section Occurs
omit [DecidableEq α]
variable {needle s : List α} {i c o : Nat}

theorem OccursAt.end_le (h : OccursAt needle s i) : i + needle.length ≤ s.length := by
  have hlen := h.2.length_le
  have hle := h.1
  rw [List.length_drop] at hlen
  omega

theorem occursAt_cons {a : α} : OccursAt needle (a :: s) (i + 1) ↔ OccursAt needle s i := by
  rw [OccursAt, OccursAt, List.length_cons, List.drop_succ_cons, Nat.add_le_add_iff_right]

theorem occursAt_zero : OccursAt needle s 0 ↔ needle <+: s := by
  simp [OccursAt]

/-- Behind `c`, positions count from `c`. -/
theorem occursAt_drop (hc : c ≤ s.length) :
    OccursAt needle (s.drop c) i ↔ OccursAt needle s (c + i) := by
  rw [OccursAt, OccursAt, List.length_drop, List.drop_drop]
  exact and_congr_left' (by omega)

theorem IsFirst.le_of_occurs (h : IsFirst needle s c o) (hi : OccursAt needle s i)
    (hc : c ≤ i) : o ≤ i := by
  by_contra hlt
  exact h.first i hc (Nat.not_le.mp hlt) hi

theorem IsFirst.unique {o' : Nat} (h : IsFirst needle s c o) (h' : IsFirst needle s c o') :
    o = o' :=
  Nat.le_antisymm (h.le_of_occurs h'.occurs h'.le) (h'.le_of_occurs h.occurs h.le)

/-- It is the first from any later start that does not pass it. -/
theorem IsFirst.later {c' : Nat} (h : IsFirst needle s c o) (hc : c ≤ c') (ho : c' ≤ o) :
    IsFirst needle s c' o :=
  ⟨ho, h.occurs, fun j hj => h.first j (Nat.le_trans hc hj)⟩

end Occurs

section Search
variable {needle s : List α} {c o : Nat}

theorem search_eq_some_iff : search needle s = some o ↔ IsFirst needle s 0 o := by
  induction s generalizing o with
  | nil =>
      rw [search]
      constructor
      · intro h
        split at h
        next hp =>
          cases h
          exact ⟨Nat.le_refl 0, occursAt_zero.mpr hp, fun j _ hj => absurd hj (Nat.not_lt_zero j)⟩
        next => cases h
      · intro h
        have hzero : o = 0 := Nat.le_zero.mp h.occurs.1
        subst hzero
        rw [if_pos (occursAt_zero.mp h.occurs)]
  | cons a s ih =>
      rw [search]
      by_cases hp : needle <+: a :: s
      · rw [if_pos hp]
        have hzero : IsFirst needle (a :: s) 0 0 :=
          ⟨Nat.le_refl 0, occursAt_zero.mpr hp, fun j _ hj => absurd hj (Nat.not_lt_zero j)⟩
        exact ⟨fun h => by cases h; exact hzero, fun h => by rw [hzero.unique h]⟩
      · rw [if_neg hp, Option.map_eq_some_iff]
        constructor
        · rintro ⟨k, hk, rfl⟩
          have hfirst := ih.mp hk
          refine ⟨Nat.zero_le _, occursAt_cons.mpr hfirst.occurs, fun j _ hj => ?_⟩
          cases j with
          | zero => exact fun h => hp (occursAt_zero.mp h)
          | succ j =>
              exact fun h => hfirst.first j (Nat.zero_le j) (Nat.lt_of_succ_lt_succ hj)
                (occursAt_cons.mp h)
        · intro h
          cases o with
          | zero => exact absurd (occursAt_zero.mp h.occurs) hp
          | succ k =>
              refine ⟨k, ih.mpr ⟨Nat.zero_le k, occursAt_cons.mp h.occurs, fun j _ hj => ?_⟩, rfl⟩
              exact fun hocc => h.first (j + 1) (Nat.zero_le _) (Nat.succ_lt_succ hj)
                (occursAt_cons.mpr hocc)

theorem search_eq_none_iff : search needle s = none ↔ ∀ i, ¬ OccursAt needle s i := by
  induction s with
  | nil =>
      rw [search]
      constructor
      · intro h i hi
        split at h
        next => cases h
        next hp =>
          have hzero : i = 0 := Nat.le_zero.mp hi.1
          subst hzero
          exact hp (occursAt_zero.mp hi)
      · exact fun h => if_neg fun hp => h 0 (occursAt_zero.mpr hp)
  | cons a s ih =>
      rw [search]
      by_cases hp : needle <+: a :: s
      · rw [if_pos hp]
        exact iff_of_false nofun fun h => h 0 (occursAt_zero.mpr hp)
      · rw [if_neg hp, Option.map_eq_none_iff, ih]
        constructor
        · intro h i
          cases i with
          | zero => exact fun hi => hp (occursAt_zero.mp hi)
          | succ i => exact fun hi => h i (occursAt_cons.mp hi)
        · exact fun h i hi => h (i + 1) (occursAt_cons.mpr hi)

/-- Searching behind `c`. -/
theorem search_drop_eq_some_iff (hc : c ≤ s.length) :
    (search needle (s.drop c)).map (c + ·) = some o ↔ IsFirst needle s c o := by
  rw [Option.map_eq_some_iff]
  constructor
  · rintro ⟨k, hk, rfl⟩
    have hfirst := search_eq_some_iff.mp hk
    refine ⟨Nat.le_add_right c k, (occursAt_drop hc).mp hfirst.occurs, fun j hj hlt hocc => ?_⟩
    refine hfirst.first (j - c) (Nat.zero_le _) (by omega) ((occursAt_drop hc).mpr ?_)
    rwa [Nat.add_sub_cancel' hj]
  · intro h
    have hle := h.le
    refine ⟨o - c, search_eq_some_iff.mpr ⟨Nat.zero_le _, ?_, fun j _ hj hocc => ?_⟩, by omega⟩
    · rw [occursAt_drop hc, Nat.add_sub_cancel' hle]
      exact h.occurs
    · exact h.first (c + j) (Nat.le_add_right c j) (by omega) ((occursAt_drop hc).mp hocc)

theorem search_drop_eq_none_iff (hc : c ≤ s.length) :
    (search needle (s.drop c)).map (c + ·) = none ↔ ∀ i, c ≤ i → ¬ OccursAt needle s i := by
  rw [Option.map_eq_none_iff, search_eq_none_iff]
  constructor
  · intro h i hi hocc
    refine h (i - c) ((occursAt_drop hc).mpr ?_)
    rwa [Nat.add_sub_cancel' hi]
  · exact fun h i hi => h (c + i) (Nat.le_add_right c i) ((occursAt_drop hc).mp hi)

end Search

/-! ## Leftmost occurrences -/

/-- The leftmost occurrences that do not overlap, from `e` on and up to `stop`. -/
inductive Leftmost (needle s : List α) (stop : Nat) : Nat → List Nat → Prop where
  | nil {e : Nat} (hnone : ∀ i, e ≤ i → i + needle.length ≤ stop → ¬ OccursAt needle s i) :
      Leftmost needle s stop e []
  | cons {e o : Nat} {os : List Nat} (hfirst : IsFirst needle s e o)
      (hfits : o + needle.length ≤ stop) (hrest : Leftmost needle s stop (o + needle.length) os) :
      Leftmost needle s stop e (o :: os)

/-- Occurrences from `e` on, none overlapping the one before. -/
inductive Apart (needle s : List α) (stop : Nat) : Nat → List Nat → Prop where
  | nil {e : Nat} : Apart needle s stop e []
  | cons {e o : Nat} {os : List Nat} (hle : e ≤ o) (hocc : OccursAt needle s o)
      (hfits : o + needle.length ≤ stop) (hrest : Apart needle s stop (o + needle.length) os) :
      Apart needle s stop e (o :: os)

section Leftmost
omit [DecidableEq α]
variable {needle s : List α} {stop e : Nat} {os : List Nat}

theorem Apart.mono {e' : Nat} (h : Apart needle s stop e os) (he : e' ≤ e) :
    Apart needle s stop e' os := by
  cases h with
  | nil => exact .nil
  | cons hle hocc hfits hrest => exact .cons (Nat.le_trans he hle) hocc hfits hrest

/-- There is only one such list. -/
theorem Leftmost.unique {os' : List Nat} (h : Leftmost needle s stop e os)
    (h' : Leftmost needle s stop e os') : os = os' := by
  induction h generalizing os' with
  | nil hnone =>
      cases h' with
      | nil => rfl
      | cons hfirst hfits => exact absurd hfirst.occurs (hnone _ hfirst.le hfits)
  | cons hfirst hfits _ ih =>
      cases h' with
      | nil hnone => exact absurd hfirst.occurs (hnone _ hfirst.le hfits)
      | cons hfirst' _ hrest' =>
          cases hfirst.unique hfirst'
          rw [ih hrest']

/-- And it is the longest. -/
theorem Leftmost.length_le {es : List Nat} (h : Leftmost needle s stop e es)
    (ha : Apart needle s stop e os) : os.length ≤ es.length := by
  induction h generalizing os with
  | nil hnone =>
      cases ha with
      | nil => exact Nat.le_refl _
      | cons hle hocc hfits => exact absurd hocc (hnone _ hle hfits)
  | cons hfirst hfits _ ih =>
      cases ha with
      | nil => exact Nat.zero_le _
      | cons hle hocc _ hrest =>
          have hbefore := hfirst.le_of_occurs hocc hle
          exact Nat.succ_le_succ (ih (hrest.mono (Nat.add_le_add_right hbefore _)))

end Leftmost

/-- For a needle that is not empty there is one. -/
theorem exists_leftmost {needle s : List α} (hneedle : needle ≠ []) (stop e : Nat) :
    ∃ os, Leftmost needle s stop e os := by
  have hlen : 0 < needle.length := List.length_pos_iff.mpr hneedle
  induction hk : stop - e using Nat.strong_induction_on generalizing e with
  | _ k ih =>
      by_cases hany : ∃ i, e ≤ i ∧ i + needle.length ≤ stop ∧ OccursAt needle s i
      · -- the least of them is the first occurrence from `e` on
        obtain ⟨hle, hfits, hocc⟩ := Nat.find_spec hany
        have hfirst : IsFirst needle s e (Nat.find hany) := by
          refine ⟨hle, hocc, fun j hj hlt hoccj => Nat.find_min hany hlt ⟨hj, ?_, hoccj⟩⟩
          omega
        obtain ⟨os, hos⟩ := ih (stop - (Nat.find hany + needle.length)) (by omega)
          (Nat.find hany + needle.length) rfl
        exact ⟨_, .cons hfirst hfits hos⟩
      · refine ⟨[], .nil fun i hi hfits hocc => hany ⟨i, hi, hfits, hocc⟩⟩

/-! ## Cutting -/

/-- What lies between the occurrences at `os`, from `g` on. -/
def pieces (s : List α) (len : Nat) : Nat → List Nat → List (List α)
  | g, [] => [s.drop g]
  | g, o :: os => (s.drop g).take (o - g) :: pieces s len (o + len) os

/-- No occurrence lies between those at `os`, from `g` on. -/
def GapFree (needle s : List α) : Nat → List Nat → Prop
  | g, [] => ∀ i, g ≤ i → ¬ OccursAt needle s i
  | g, o :: os => (∀ i, g ≤ i → i + needle.length ≤ o → ¬ OccursAt needle s i) ∧
      GapFree needle s (o + needle.length) os

section Pieces
omit [DecidableEq α]
variable {needle s : List α} {g : Nat} {os : List Nat}

theorem length_pieces (s : List α) (len : Nat) :
    ∀ (os : List Nat) (g : Nat), (pieces s len g os).length = os.length + 1
  | [], _ => rfl
  | o :: os, _ => congrArg (· + 1) (length_pieces s len os (o + len))

theorem exists_pieces (s : List α) (len g : Nat) (os : List Nat) :
    ∃ p ps, pieces s len g os = p :: ps := by
  cases os with
  | nil => exact ⟨_, _, rfl⟩
  | cons o os => exact ⟨_, _, rfl⟩

/-- An occurrence, and what follows it. -/
theorem OccursAt.drop_eq {o : Nat} (h : OccursAt needle s o) :
    s.drop o = needle ++ s.drop (o + needle.length) := by
  obtain ⟨t, ht⟩ := h.2
  rw [← List.drop_drop, ← ht, List.drop_left]

/-- The pieces joined by the needle are the list. -/
theorem intercalate_pieces {stop : Nat} (h : Apart needle s stop g os) :
    needle.intercalate (pieces s needle.length g os) = s.drop g := by
  induction h with
  | nil => exact List.intercalate_singleton
  | @cons g o os hle hocc _ _ ih =>
      obtain ⟨p, ps, hp⟩ := exists_pieces s needle.length (o + needle.length) os
      rw [pieces, hp, List.intercalate_cons_cons, ← hp, ih, List.append_assoc, ← hocc.drop_eq]
      have hsplit : s.drop o = (s.drop g).drop (o - g) := by
        rw [List.drop_drop, Nat.add_sub_cancel' hle]
      rw [hsplit, List.take_append_drop]

theorem infix_iff : needle <:+: s ↔ ∃ i, OccursAt needle s i := by
  constructor
  · rintro ⟨a, b, rfl⟩
    refine ⟨a.length, ?_, ?_⟩
    · rw [List.length_append, List.length_append]
      omega
    · rw [List.append_assoc, List.drop_left]
      exact List.prefix_append needle b
  · rintro ⟨i, -, hi⟩
    exact hi.isInfix.trans (List.drop_suffix i s).isInfix

/-- A stretch of a list contains the needle where an occurrence lies in it. -/
theorem infix_stretch_iff {k : Nat} (hk : g + k ≤ s.length) :
    needle <:+: (s.drop g).take k ↔
      ∃ i, g ≤ i ∧ i + needle.length ≤ g + k ∧ OccursAt needle s i := by
  rw [infix_iff]
  constructor
  · rintro ⟨i, hi⟩
    have hend := hi.end_le
    rw [List.length_take, List.length_drop] at hend
    have hpre := hi.2
    rw [List.drop_take, List.drop_drop] at hpre
    refine ⟨g + i, Nat.le_add_right g i, by omega, by omega, ?_⟩
    exact hpre.trans (List.take_prefix _ _)
  · rintro ⟨i, hg, hend, hocc⟩
    refine ⟨i - g, ?_, ?_⟩
    · rw [List.length_take, List.length_drop]
      omega
    · rw [List.drop_take, List.drop_drop, Nat.add_sub_cancel' hg]
      exact List.prefix_take_iff.mpr ⟨hocc.2, by omega⟩

/-- No piece contains the needle exactly when no occurrence lies in a gap. -/
theorem pieces_free_iff {stop : Nat} (h : Apart needle s stop g os) (hg : g ≤ s.length) :
    (∀ p ∈ pieces s needle.length g os, ¬ needle <:+: p) ↔ GapFree needle s g os := by
  induction h with
  | @nil g =>
      rw [pieces, GapFree, List.forall_mem_singleton, infix_iff]
      constructor
      · intro hno i hi hocc
        refine hno ⟨i - g, (occursAt_drop hg).mpr ?_⟩
        rwa [Nat.add_sub_cancel' hi]
      · rintro hno ⟨i, hi⟩
        exact hno (g + i) (Nat.le_add_right g i) ((occursAt_drop hg).mp hi)
  | @cons g o os hle hocc hfits hrest ih =>
      have hend := hocc.end_le
      rw [pieces, GapFree, List.forall_mem_cons, ih hend,
        infix_stretch_iff (by omega), Nat.add_sub_cancel' hle]
      refine and_congr_left' ⟨fun hno i hi hfit hocc' => hno ⟨i, hi, hfit, hocc'⟩, ?_⟩
      rintro hno ⟨i, hi, hfit, hocc'⟩
      exact hno i hi hfit hocc'

/-- One occurrence overlaps an earlier one. -/
def Overlaps (len e o : Nat) : Prop := e ≤ o ∧ o < e + len

/-- Occurrences that do not overlap and leave no gap with another are as many as
the leftmost ones exactly when each overlaps the leftmost one of its rank. -/
theorem overlaps_iff {e : Nat} {es : List Nat}
    (hl : Leftmost needle s s.length e es) (ha : Apart needle s s.length g os) (he : e ≤ g) :
    es.length = os.length ∧ GapFree needle s g os ↔
      List.Forall₂ (Overlaps needle.length) es os := by
  induction ha generalizing e es with
  | nil =>
      cases hl with
      | nil hnone =>
          refine iff_of_true ⟨rfl, fun i hi hocc => ?_⟩ .nil
          exact hnone i (Nat.le_trans he hi) hocc.end_le hocc
      | cons => exact iff_of_false (fun h => nomatch h.1) nofun
  | @cons g o os hle hocc hfits hrest ih =>
      cases hl with
      | nil hnone => exact iff_of_false (fun h => nomatch h.1) nofun
      | @cons _ e₀ es hfirst hfits' hrest' =>
          have hbefore : e₀ ≤ o := hfirst.le_of_occurs hocc (Nat.le_trans he hle)
          have hnext : e₀ + needle.length ≤ o + needle.length := Nat.add_le_add_right hbefore _
          rw [List.forall₂_cons, ← ih hrest' hnext, GapFree, List.length_cons, List.length_cons,
            Nat.add_right_cancel_iff]
          constructor
          · rintro ⟨hcount, hgap, hfree⟩
            refine ⟨⟨hbefore, ?_⟩, hcount, hfree⟩
            by_contra hpast
            have hpast := Nat.not_lt.mp hpast
            rcases Nat.lt_or_ge e₀ g with hlt | hge
            · -- the leftmost ones would be more
              have hmore := hrest'.length_le (.cons hpast hocc hfits hrest)
              rw [List.length_cons] at hmore
              omega
            · exact hgap e₀ hge hpast hfirst.occurs
          · rintro ⟨⟨-, hover⟩, hcount, hfree⟩
            refine ⟨hcount, fun i hi hfit hocc' => ?_, hfree⟩
            have hlater := hfirst.le_of_occurs hocc' (Nat.le_trans he hi)
            omega

end Pieces

end Occurrence
