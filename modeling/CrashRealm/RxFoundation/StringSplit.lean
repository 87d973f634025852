/-
# `RxFoundation.StringSplit` — when splitting is right

Whatever `findResults` has found, the components are what lies between
(`split_iff`), so joined they always give the string back where the separator
stands at every offset found.  That none contains the separator and that they are
as many as they should be are not two conditions but one: each offset found
overlaps the leftmost occurrence of its rank (`splitsRight_iff`).
-/
import CrashRealm.RxFoundation.StringSpec
import Mathlib.Data.List.Forall2

namespace Rx

open Occurrence

namespace ByteString

variable {s separator : ByteString} {p o : Nat} {os es : List Nat}

/-! ## What lies between -/

theorem bytes_injective : Function.Injective bytes := by
  rintro ⟨bytes, _⟩ ⟨bytes', _⟩ h
  cases h
  rfl

theorem substr_eq {pos n : Nat} (hpos : pos ≤ s.length) (hn : n < 2 ^ 64) :
    ∃ r, s.substr pos n = .ok r ∧ r.bytes = (s.bytes.drop pos).take n := by
  have hmax := s.length_lt
  rw [← length] at hmax
  have hpos' : sizeT pos = pos := sizeT_natCast (by omega)
  refine ⟨_, if_pos (by rwa [hpos']), ?_⟩
  show (s.bytes.drop (sizeT pos)).take (sizeT n) = _
  rw [hpos', sizeT_natCast hn]

/-- The loop leaves all pieces but the last, which starts at `startIndex`. -/
theorem splitLoop_of_matches (h : Matches s separator p os) {g : Nat} (hg : g ≤ p)
    {n : Nat} (hn : n ≤ g) (acc : List ByteString) :
    ∃ (g' n' : Nat) (array : List ByteString),
      s.splitLoop (os.map separator.rangeAt) g n acc = .ok (g', n', acc ++ array) ∧
        g' ≤ s.length ∧ n' ≤ g' ∧
        array.map bytes ++ [s.bytes.drop g'] = pieces s.bytes separator.length g os := by
  induction h generalizing g n acc with
  | stop hp =>
      refine ⟨g, n, [], ?_, Nat.le_trans hg hp, hn, rfl⟩
      rw [List.append_nil]
      rfl
  | @found p o os hp hmatch hrest ih =>
      have hpo : p ≤ o := by
        obtain ⟨k, -, rfl⟩ := Option.map_eq_some_iff.mp hmatch
        exact Nat.le_add_right p k
      have hle := hrest.le
      have hmax := s.length_lt
      rw [← length] at hmax
      have hstart : g ≤ s.length := Nat.le_trans hg hp
      obtain ⟨r, hr, hbytes⟩ := substr_eq hstart (show o - g < 2 ^ 64 by omega)
      have hchars : (o : Int) - g = ((o - g : Nat) : Int) := by omega
      obtain ⟨g', n', array, hrun, hg', hn', hpieces⟩ :=
        ih (g := o + separator.length) (by omega) (n := o - g) (by omega) (acc ++ [r])
      refine ⟨g', n', r :: array, ?_, hg', hn', ?_⟩
      · rw [List.map_cons, splitLoop, rangeAt]
        show (do let subString ← s.substr g ((o : Int) - g); _) = _
        rw [hchars, hr, ok_bind]
        rw [List.append_assoc] at hrun
        exact hrun
      · rw [pieces, ← hpieces, ← hbytes]
        rfl

/-- What the ranges are made into. -/
theorem split_of_matches (h : Matches s separator 0 os) :
    ∃ comps : List ByteString, comps.map bytes = pieces s.bytes separator.length 0 os ∧
      ∀ rounds, s.findResults rounds separator ⟨0, s.length⟩ = .ok (os.map separator.rangeAt) →
        s.componetsSeparatedByString rounds separator = .ok comps := by
  have hmax := s.length_lt
  rw [← length] at hmax
  cases os with
  | nil =>
      refine ⟨[s], rfl, fun rounds hrun => ?_⟩
      rw [componetsSeparatedByString, hrun]
      rfl
  | cons o os =>
      obtain ⟨g, n, array, hloop, hg, hn, hpieces⟩ :=
        splitLoop_of_matches h (Nat.le_refl 0) (Nat.le_refl 0) []
      have hrest : (s.length : Int) - n = ((s.length - n : Nat) : Int) := by omega
      obtain ⟨r, hr, hbytes⟩ := substr_eq hg (show s.length - n < 2 ^ 64 by omega)
      refine ⟨array ++ [r], ?_, fun rounds hrun => ?_⟩
      · -- the count reaches the end of the string, and past it
        have hall : (s.bytes.drop g).length ≤ s.length - n := by
          rw [List.length_drop, ← length]
          omega
        rw [← hpieces, List.map_append, List.map_singleton, hbytes, List.take_of_length_le hall]
      · have hany : ¬(List.map separator.rangeAt (o :: os)).length = 0 := Nat.succ_ne_zero _
        have hloop' : s.splitLoop ((o :: os).map separator.rangeAt) 0 0 [] = .ok (g, n, array) :=
          hloop
        rw [componetsSeparatedByString, hrun, ok_bind, if_neg hany, hloop', ok_bind]
        show s.substr g (s.length - n) >>= _ = _
        rw [hrest, hr]
        rfl

/-- What `componetsSeparatedByString` returns. -/
theorem split_iff {comps : List ByteString} :
    (∃ rounds, s.componetsSeparatedByString rounds separator = .ok comps) ↔
      (s.length < separator.length ∧ comps = [s]) ∨
      (separator.length ≤ s.length ∧
        ∃ os, Matches s separator 0 os ∧
          comps.map bytes = pieces s.bytes separator.length 0 os) := by
  have hfind (ranges : List Range) :
      (∃ rounds, s.findResults rounds separator ⟨0, s.length⟩ = .ok ranges) ↔ _ :=
    findResults_iff (Int.le_refl 0) (Int.natCast_nonneg s.length) (Int.le_of_eq (Int.zero_add _))
  constructor
  · rintro ⟨rounds, hsplit⟩
    obtain ⟨ranges, hrun, hrest⟩ := bind_eq_ok.mp hsplit
    rcases (hfind ranges).mp ⟨rounds, hrun⟩ with ⟨hshort, rfl⟩ | ⟨hle, os, hos, rfl⟩
    · cases hrest
      exact Or.inl ⟨Int.ofNat_lt.mp hshort, rfl⟩
    · obtain ⟨comps', hpieces, hall⟩ := split_of_matches hos
      cases hsplit.symm.trans (hall rounds hrun)
      exact Or.inr ⟨Int.ofNat_le.mp hle, os, hos, hpieces⟩
  · rintro (⟨hshort, rfl⟩ | ⟨hle, os, hos, hpieces⟩)
    · obtain ⟨rounds, hrun⟩ := (hfind []).mpr (Or.inl ⟨Int.ofNat_lt.mpr hshort, rfl⟩)
      refine ⟨rounds, ?_⟩
      rw [componetsSeparatedByString, hrun]
      rfl
    · obtain ⟨rounds, hrun⟩ := (hfind _).mpr (Or.inr ⟨Int.ofNat_le.mpr hle, os, hos, rfl⟩)
      obtain ⟨comps', hpieces', hall⟩ := split_of_matches hos
      cases List.map_injective_iff.mpr bytes_injective (hpieces.trans hpieces'.symm)
      exact ⟨rounds, hall rounds hrun⟩

/-! ## Keeping to the leftmost occurrences -/

/-- From each place the pointer is moved to, the first occurrence overlaps the
leftmost one of its rank, and behind the last place in the string there is none. -/
def Tracks (find bytes : List UInt8) (len : Nat) : Nat → List Nat → Prop
  | p, [] => p ≤ bytes.length ∧ ∀ i, p ≤ i → ¬ OccursAt find bytes i
  | p, e :: es => ∃ o, IsFirst find bytes p o ∧ o < e + len ∧
      Tracks find bytes len (p + (o + len)) es

theorem tracks_iff (hs : 0 ∉ s.bytes) {stop e : Nat}
    (hl : Leftmost separator.bytes s.bytes stop e es) (he : e ≤ p) :
    (∃ os, Matches s separator p os ∧ List.Forall₂ (Overlaps separator.length) es os) ↔
      Tracks (cString separator.bytes) s.bytes separator.length p es := by
  induction hl generalizing p with
  | nil =>
      rw [Tracks, ← length, ← matches_nil_iff hs]
      constructor
      · rintro ⟨os, hos, hover⟩
        rwa [List.forall₂_nil_left_iff.mp hover] at hos
      · exact fun hos => ⟨[], hos, .nil⟩
  | @cons e e₀ es hfirst _ _ ih =>
      have hstring := cString_of_occurs hs hfirst.occurs
      rw [Tracks]
      constructor
      · rintro ⟨_, hos, _ | ⟨⟨hbefore, hover⟩, hovers⟩⟩
        obtain ⟨hmatch, hrest⟩ := (matches_cons_iff hs).mp hos
        exact ⟨_, hmatch, hover, (ih (by rw [← length]; omega)).mp ⟨_, hrest, hovers⟩⟩
      · rintro ⟨o, hmatch, hover, hrest⟩
        have hbefore : e₀ ≤ o := by
          rw [hstring] at hmatch
          exact hfirst.le_of_occurs hmatch.occurs (Nat.le_trans he hmatch.le)
        obtain ⟨os, hos, hovers⟩ := (ih (by rw [← length]; omega)).mpr hrest
        exact ⟨o :: os, (matches_cons_iff hs).mpr ⟨hmatch, hos⟩, .cons ⟨hbefore, hover⟩ hovers⟩

/-- What the loop finds are occurrences of the separator, where `strstr` is given
all of it. -/
theorem Matches.apart (hs : 0 ∉ s.bytes) (hsep : cString separator.bytes = separator.bytes)
    {g : Nat} (h : Matches s separator p os) (hg : g ≤ p) :
    Apart separator.bytes s.bytes s.bytes.length g os := by
  induction os generalizing g p with
  | nil => exact .nil
  | cons o os ih =>
      obtain ⟨hfirst, hrest⟩ := (matches_cons_iff hs).mp h
      rw [hsep] at hfirst
      refine .cons (Nat.le_trans hg hfirst.le) hfirst.occurs hfirst.occurs.end_le (ih hrest ?_)
      exact Nat.le_add_left _ p

/-- What `componetsSeparatedByString` is to return: components that joined give the
string back, none with the separator in it, and one more than there are leftmost
occurrences. -/
def SplitsRight (s separator : ByteString) : Prop :=
  ∃ comps : List ByteString,
    (∃ rounds, s.componetsSeparatedByString rounds separator = .ok comps) ∧
    separator.bytes.intercalate (comps.map bytes) = s.bytes ∧
    (∀ c ∈ comps, ¬ separator.bytes <:+: c.bytes) ∧
    ∃ es, Leftmost separator.bytes s.bytes s.length 0 es ∧ comps.length = es.length + 1

/-- Pieces that join to a string without zero bytes were cut at a separator
without. -/
theorem eq_nil_or_cString (hs : 0 ∉ s.bytes)
    (hjoin : separator.bytes.intercalate (pieces s.bytes separator.length 0 os) = s.bytes) :
    os = [] ∨ cString separator.bytes = separator.bytes := by
  cases os with
  | nil => exact Or.inl rfl
  | cons o os =>
      obtain ⟨p, ps, hp⟩ := exists_pieces s.bytes separator.length (o + separator.length) os
      rw [pieces, hp, List.intercalate_cons_cons] at hjoin
      refine Or.inr (cString_eq_self fun hzero => hs ?_)
      rw [← hjoin]
      exact List.mem_append_left _ (List.mem_append_right _ hzero)

/-- Components that are the pieces are right where their places overlap the leftmost. -/
theorem pieces_right_iff {comps : List ByteString}
    (hpieces : comps.map bytes = pieces s.bytes separator.length 0 os)
    (ha : Apart separator.bytes s.bytes s.bytes.length 0 os)
    (hl : Leftmost separator.bytes s.bytes s.length 0 es) :
    (∀ c ∈ comps, ¬ separator.bytes <:+: c.bytes) ∧ comps.length = es.length + 1 ↔
      List.Forall₂ (Overlaps separator.length) es os := by
  have hcount : comps.length = os.length + 1 := by
    rw [← List.length_map, hpieces, length_pieces]
  have hfree : (∀ c ∈ comps, ¬ separator.bytes <:+: c.bytes) ↔
      GapFree separator.bytes s.bytes 0 os := by
    rw [← pieces_free_iff ha (Nat.zero_le _), ← length, ← hpieces, List.forall_mem_map]
  rw [length, ← overlaps_iff hl ha (Nat.le_refl 0), hfree, hcount, and_comm]
  exact and_congr_left' ⟨by omega, by omega⟩

/-- Splitting is right exactly when the string is shorter than the separator, or the
first occurrence from each place the pointer is moved to overlaps the leftmost one of
its rank. -/
theorem splitsRight_iff (s separator : ByteString) (hs : 0 ∉ s.bytes) :
    SplitsRight s separator ↔
      s.length < separator.length ∨
      ∃ es, Leftmost separator.bytes s.bytes s.length 0 es ∧
        Tracks (cString separator.bytes) s.bytes separator.length 0 es := by
  simp only [SplitsRight, split_iff]
  rcases Nat.lt_or_ge s.length separator.length with hshort | hle
  · have hnone (i : Nat) : ¬ OccursAt separator.bytes s.bytes i := fun hocc =>
      Nat.not_lt.mpr hocc.end_le (Nat.lt_of_lt_of_le hshort (Nat.le_add_left _ i))
    refine iff_of_true ⟨[s], Or.inl ⟨hshort, rfl⟩, List.intercalate_singleton, ?_, [],
      .nil fun i _ _ => hnone i, rfl⟩ (Or.inl hshort)
    rw [List.forall_mem_singleton, infix_iff]
    exact fun ⟨i, hi⟩ => hnone i hi
  · constructor
    · rintro ⟨comps, ⟨hshort, -⟩ | ⟨-, os, hos, hpieces⟩, hjoin, hfree, es, hl, hcount⟩
      · exact Or.inl hshort
      · rw [hpieces] at hjoin
        have ha : Apart separator.bytes s.bytes s.bytes.length 0 os := by
          rcases eq_nil_or_cString hs hjoin with rfl | hsep
          · exact .nil
          · exact hos.apart hs hsep (Nat.le_refl 0)
        have hovers := (pieces_right_iff hpieces ha hl).mp ⟨hfree, hcount⟩
        exact Or.inr ⟨es, hl, (tracks_iff hs hl (Nat.le_refl 0)).mp ⟨os, hos, hovers⟩⟩
    · rintro (hshort | ⟨es, hl, htracks⟩)
      · exact absurd hshort (Nat.not_lt.mpr hle)
      · obtain ⟨os, hos, hovers⟩ := (tracks_iff hs hl (Nat.le_refl 0)).mpr htracks
        have ha : Apart separator.bytes s.bytes s.bytes.length 0 os := by
          cases hl with
          | nil =>
              rw [List.forall₂_nil_left_iff.mp hovers]
              exact .nil
          | cons hfirst => exact hos.apart hs (cString_of_occurs hs hfirst.occurs) (Nat.le_refl 0)
        obtain ⟨comps, hpieces, -⟩ := split_of_matches hos
        obtain ⟨hfree, hcount⟩ := (pieces_right_iff hpieces ha hl).mpr hovers
        have hjoin : separator.bytes.intercalate (comps.map bytes) = s.bytes := by
          rw [hpieces]
          exact intercalate_pieces ha
        exact ⟨comps, Or.inr ⟨hle, os, hos, hpieces⟩, hjoin, hfree, es, hl, hcount⟩

/-- Two pieces around the one comma. -/
theorem splitsRight_iff_comma : SplitsRight ⟨[97, 44, 98], by decide⟩ ⟨[44], by decide⟩ := by
  refine (splitsRight_iff _ _ (by decide)).mpr (Or.inr ⟨[1], ?_, 1, ?_, by decide, by decide, ?_⟩)
  · refine .cons ((search_drop_eq_some_iff (by decide)).mp rfl) (by decide) (.nil ?_)
    exact fun i hi _ => (search_drop_eq_none_iff (by decide)).mp rfl i hi
  · exact (search_drop_eq_some_iff (by decide)).mp rfl
  · exact (search_drop_eq_none_iff (by decide)).mp rfl

/-- The third comma of `a,b,c,d` stays in the last component; the fourth of
`a,b,c,d,e` is found, and sends the pointer behind the terminating zero. -/
theorem third_comma_stays :
    ¬ SplitsRight ⟨[97, 44, 98, 44, 99, 44, 100], by decide⟩ ⟨[44], by decide⟩ ∧
      componetsSeparatedByString 4 ⟨[97, 44, 98, 44, 99, 44, 100, 44, 101], by decide⟩
        ⟨[44], by decide⟩ = .error .outOfBounds := by
  refine ⟨?_, rfl⟩
  rintro ⟨comps, hrun, -, hfree, -⟩
  rcases split_iff.mp hrun with ⟨hshort, -⟩ | ⟨-, os, hos, hpieces⟩
  · exact absurd hshort (by decide)
  · cases hos.unique
      (.found (by decide) rfl (.found (by decide) rfl (.stop (by decide) rfl)) : Matches _ _ 0 [1, 3])
    have hlast : [99, 44, 100] ∈ comps.map bytes := by
      rw [hpieces]
      decide
    obtain ⟨c, hc, hbytes⟩ := List.mem_map.mp hlast
    exact hfree c hc (hbytes ▸ ⟨[99], [100], rfl⟩)

end ByteString

end Rx
