/-
# `RxFoundation.StringSpec` — when finding is right

`Matches s separator p os` says that the loop of `findResults`, started at `p`,
ends in bounds having found the offsets `os`; everything else is read off it.  A
pointer at `p` with a match at `o` goes to `p + o + |separator|`, which is the end of
the match only for `p = 0`.  So

* the loop ends in bounds when every match has as many bytes behind it as there
  are before the pointer it was found from, and the separator does not begin with
  a zero byte (`scan_ends_iff`);
* what it finds are the leftmost occurrences when the pointer passes none of them,
  and nothing is left to be found behind the range (`findsLeftmost_iff`).
-/
import CrashRealm.RxFoundation.String
import Mathlib.Data.List.TakeWhile

namespace Rx

open Occurrence

namespace ByteString

variable {s separator : ByteString} {p o : Nat} {os : List Nat}

/-- The range of a match. -/
def rangeAt (separator : ByteString) (offset : Nat) : Range := ⟨offset, separator.length⟩

/-- From `p` the loop finds `os` and ends, never starting `strstr` behind the
terminating zero. -/
inductive Matches (s separator : ByteString) : Nat → List Nat → Prop where
  | stop {p : Nat} (hp : p ≤ s.length) (hnone : s.matchFrom separator p = none) :
      Matches s separator p []
  | found {p o : Nat} {os : List Nat} (hp : p ≤ s.length)
      (hmatch : s.matchFrom separator p = some o)
      (hrest : Matches s separator (p + (o + separator.length)) os) : Matches s separator p (o :: os)

/-! ## The loop -/

theorem Matches.le (h : Matches s separator p os) : p ≤ s.length := by
  cases h with
  | stop hp => exact hp
  | found hp => exact hp

theorem Matches.unique {os' : List Nat} (h : Matches s separator p os)
    (h' : Matches s separator p os') : os = os' := by
  induction h generalizing os' with
  | stop _ hnone =>
      cases h' with
      | stop => rfl
      | found _ hmatch => cases hnone.symm.trans hmatch
  | found _ hmatch _ ih =>
      cases h' with
      | stop _ hnone => cases hnone.symm.trans hmatch
      | found _ hmatch' hrest' =>
          cases hmatch.symm.trans hmatch'
          rw [ih hrest']

theorem strstr_ok (hp : p ≤ s.length) : s.strstr separator p = .ok (s.matchFrom separator p) :=
  if_pos hp

theorem findLoop_of_matches (h : Matches s separator p os) (acc : List Range) :
    ∃ rounds, s.findLoop separator rounds p acc = .ok (acc ++ os.map separator.rangeAt) := by
  induction h generalizing acc with
  | stop hp hnone =>
      refine ⟨1, ?_⟩
      rw [findLoop, strstr_ok hp, hnone, List.map_nil, List.append_nil]
      rfl
  | @found p o os hp hmatch _ ih =>
      obtain ⟨rounds, hrun⟩ := ih (acc ++ [separator.rangeAt o])
      refine ⟨rounds + 1, ?_⟩
      rw [findLoop, strstr_ok hp, hmatch, ok_bind, List.map_cons]
      rw [List.append_assoc] at hrun
      exact hrun

theorem matches_of_findLoop {rounds : Nat} {acc ranges : List Range}
    (h : s.findLoop separator rounds p acc = .ok ranges) :
    ∃ os, Matches s separator p os ∧ ranges = acc ++ os.map separator.rangeAt := by
  induction rounds generalizing p acc with
  | zero => cases h
  | succ rounds ih =>
      rw [findLoop] at h
      obtain ⟨result, hresult, hrest⟩ := bind_eq_ok.mp h
      rw [strstr] at hresult
      split at hresult
      next hp =>
        cases hresult
        cases hmatch : s.matchFrom separator p with
        | none =>
            rw [hmatch] at hrest
            cases hrest
            exact ⟨[], .stop hp hmatch, (List.append_nil _).symm⟩
        | some o =>
            rw [hmatch] at hrest
            obtain ⟨os, hos, hranges⟩ := ih hrest
            refine ⟨o :: os, .found hp hmatch hos, ?_⟩
            rw [hranges, List.append_assoc]
            rfl
      next => cases hresult

section Range
variable {range : Range}

/-- A range inside the string passes the first check. -/
theorem findResults_eq (hloc : 0 ≤ range.location) (hlen : 0 ≤ range.length)
    (hend : range.location + range.length ≤ s.length) (rounds : Nat) :
    s.findResults rounds separator range =
      if range.length < separator.length then .ok []
      else s.findLoop separator rounds range.location.toNat [] := by
  have hmax := s.length_lt
  have hfirst : sizeT (range.location + range.length) ≤ s.length := by
    rw [sizeT, length] at *
    omega
  have hsecond : (sizeT range.length : Int) = range.length := by
    rw [sizeT]
    rw [length] at hend
    omega
  rw [findResults, if_neg (Nat.not_lt.mpr hfirst), if_neg (Int.not_lt.mpr hloc)]
  exact if_congr (by omega) rfl rfl

/-- What `findResults` returns. -/
theorem findResults_iff (hloc : 0 ≤ range.location) (hlen : 0 ≤ range.length)
    (hend : range.location + range.length ≤ s.length) {ranges : List Range} :
    (∃ rounds, s.findResults rounds separator range = .ok ranges) ↔
      (range.length < separator.length ∧ ranges = []) ∨
      (separator.length ≤ range.length ∧
        ∃ os, Matches s separator range.location.toNat os ∧ ranges = os.map separator.rangeAt) := by
  simp only [findResults_eq hloc hlen hend]
  by_cases hshort : range.length < separator.length
  · simp only [if_pos hshort, Except.ok.injEq, exists_const]
    constructor
    · exact fun h => Or.inl ⟨hshort, h.symm⟩
    · rintro (⟨-, h⟩ | ⟨hle, -⟩)
      · exact h.symm
      · exact absurd hshort (Int.not_lt.mpr hle)
  · simp only [if_neg hshort]
    constructor
    · rintro ⟨rounds, h⟩
      exact Or.inr ⟨Int.not_lt.mp hshort, matches_of_findLoop h⟩
    · rintro (⟨h, -⟩ | ⟨-, os, hos, rfl⟩)
      · exact absurd h hshort
      · exact findLoop_of_matches hos []

end Range

/-! ## Ending in bounds -/

/-- The pointer, moved from `p` on by the matches at `os`, passes none of them. -/
def Clears (len : Nat) : Nat → List Nat → Prop
  | _, [] => True
  | p, o :: os => p ≤ o ∧ Clears len (p + (o + len)) os

/-- Where the pointer, moved from `p` on by the matches at `os`, ends. -/
def scanEnd (len : Nat) : Nat → List Nat → Nat
  | p, [] => p
  | p, o :: os => scanEnd len (p + (o + len)) os

section Leftmost

theorem cString_eq_self {bytes : List UInt8} (h : 0 ∉ bytes) : cString bytes = bytes := by
  refine List.takeWhile_eq_self_iff.mpr fun b hb => ?_
  have hne : b ≠ 0 := fun hzero => h (hzero ▸ hb)
  simp [hne]

/-- What occurs in a string without zero bytes has none. -/
theorem cString_of_occurs (hs : 0 ∉ s.bytes) (h : OccursAt separator.bytes s.bytes o) :
    cString separator.bytes = separator.bytes :=
  cString_eq_self fun hzero => hs (List.mem_of_mem_drop (h.2.subset hzero))

theorem matchFrom_eq (hs : 0 ∉ s.bytes) (p : Nat) :
    s.matchFrom separator p =
      (search (cString separator.bytes) (s.bytes.drop p)).map (p + ·) := by
  rw [matchFrom, cString_eq_self fun hzero => hs (List.mem_of_mem_drop hzero)]

/-- Where nothing is left, the loop stops. -/
theorem matches_nil_iff (hs : 0 ∉ s.bytes) :
    Matches s separator p [] ↔
      p ≤ s.length ∧ ∀ i, p ≤ i → ¬ OccursAt (cString separator.bytes) s.bytes i := by
  constructor
  · rintro ⟨hp, hnone⟩
    rw [matchFrom_eq hs] at hnone
    exact ⟨hp, (search_drop_eq_none_iff hp).mp hnone⟩
  · rintro ⟨hp, hnone⟩
    refine .stop hp ?_
    rw [matchFrom_eq hs]
    exact (search_drop_eq_none_iff hp).mpr hnone

theorem matches_cons_iff (hs : 0 ∉ s.bytes) :
    Matches s separator p (o :: os) ↔
      IsFirst (cString separator.bytes) s.bytes p o ∧
        Matches s separator (p + (o + separator.length)) os := by
  constructor
  · rintro (_ | ⟨hp, hmatch, hrest⟩)
    rw [matchFrom_eq hs] at hmatch
    exact ⟨(search_drop_eq_some_iff hp).mp hmatch, hrest⟩
  · rintro ⟨hfirst, hrest⟩
    have hp : p ≤ s.bytes.length := Nat.le_trans hfirst.le hfirst.occurs.1
    refine .found hp ?_ hrest
    rw [matchFrom_eq hs]
    exact (search_drop_eq_some_iff hp).mpr hfirst

/-- The loop finds the leftmost occurrences when it passes none of them, and there
is nothing left where it ends. -/
theorem matches_leftmost_iff (hs : 0 ∉ s.bytes) {stop e : Nat}
    (hl : Leftmost separator.bytes s.bytes stop e os) (he : e ≤ p) :
    Matches s separator p os ↔
      Clears separator.length p os ∧ scanEnd separator.length p os ≤ s.length ∧
        ∀ i, scanEnd separator.length p os ≤ i →
          ¬ OccursAt (cString separator.bytes) s.bytes i := by
  induction hl generalizing p with
  | nil => rw [matches_nil_iff hs, Clears, scanEnd, true_and]
  | @cons e o os hfirst _ _ ih =>
      have hnext : o + separator.bytes.length ≤ p + (o + separator.length) :=
        Nat.le_add_left _ p
      rw [matches_cons_iff hs, ih hnext, Clears, scanEnd, cString_of_occurs hs hfirst.occurs,
        and_assoc]
      exact and_congr_left' ⟨fun h => h.le, fun hp => hfirst.later he hp⟩

theorem rangeAt_injective : Function.Injective separator.rangeAt := by
  intro o o' h
  have hloc := congrArg Range.location h
  exact Int.ofNat_inj.mp hloc

/-- What `findResults` is to return: the leftmost occurrences inside the range. -/
def FindsLeftmost (s separator : ByteString) (range : Range) : Prop :=
  ∃ os, Leftmost separator.bytes s.bytes (range.location + range.length).toNat
      range.location.toNat os ∧
    ∃ rounds, s.findResults rounds separator range = .ok (os.map separator.rangeAt)

/-- For a separator that is not empty there is one such list, so this may be said of
every such list. -/
theorem findsLeftmost_iff_forall {range : Range} (hsep : separator.bytes ≠ []) :
    FindsLeftmost s separator range ↔
      ∀ os, Leftmost separator.bytes s.bytes (range.location + range.length).toNat
          range.location.toNat os →
        ∃ rounds, s.findResults rounds separator range = .ok (os.map separator.rangeAt) := by
  constructor
  · rintro ⟨os, hos, hrun⟩ os' hos'
    rwa [hos'.unique hos]
  · intro h
    obtain ⟨os, hos⟩ := exists_leftmost hsep (range.location + range.length).toNat
      range.location.toNat
    exact ⟨os, hos, h os hos⟩

/-- Searching finds the leftmost occurrences exactly when the range is too short for
one, or the pointer passes none of them and ends in the string with nothing left
behind it. -/
theorem findsLeftmost_iff (s separator : ByteString) (range : Range) (hs : 0 ∉ s.bytes)
    (hloc : 0 ≤ range.location) (hlen : 0 ≤ range.length)
    (hend : range.location + range.length ≤ s.length) :
    FindsLeftmost s separator range ↔
      range.length < separator.length ∨
      ∃ os, Leftmost separator.bytes s.bytes (range.location + range.length).toNat
          range.location.toNat os ∧
        Clears separator.length range.location.toNat os ∧
        scanEnd separator.length range.location.toNat os ≤ s.length ∧
        ∀ i, scanEnd separator.length range.location.toNat os ≤ i →
          ¬ OccursAt (cString separator.bytes) s.bytes i := by
  simp only [FindsLeftmost, findResults_iff hloc hlen hend]
  rcases Int.lt_or_le range.length separator.length with hshort | hle
  · refine iff_of_true ⟨[], .nil fun i hi hfits _ => ?_, Or.inl ⟨hshort, rfl⟩⟩ (Or.inl hshort)
    rw [length] at hshort
    omega
  · constructor
    · rintro ⟨os, hos, ⟨hshort, -⟩ | ⟨-, os', hos', heq⟩⟩
      · exact Or.inl hshort
      · cases List.map_injective_iff.mpr rangeAt_injective heq
        exact Or.inr ⟨os, hos, (matches_leftmost_iff hs hos (Nat.le_refl _)).mp hos'⟩
    · rintro (hshort | ⟨os, hos, hclear⟩)
      · exact absurd hshort (Int.not_lt.mpr hle)
      · exact ⟨os, hos, Or.inr
          ⟨hle, os, (matches_leftmost_iff hs hos (Nat.le_refl _)).mpr hclear, rfl⟩⟩

/-- The one comma of three bytes. -/
theorem findsLeftmost_iff_comma :
    FindsLeftmost ⟨[97, 44, 98], by decide⟩ ⟨[44], by decide⟩ ⟨0, 3⟩ := by
  refine (findsLeftmost_iff _ _ _ (by decide) (by decide) (by decide) (by decide)).mpr
    (Or.inr ⟨[1], ?_, ⟨by decide, trivial⟩, by decide, ?_⟩)
  · refine .cons ((search_drop_eq_some_iff (by decide)).mp rfl) (by decide) (.nil ?_)
    exact fun i hi _ => (search_drop_eq_none_iff (by decide)).mp rfl i hi
  · exact (search_drop_eq_none_iff (by decide)).mp rfl

/-- What the loop finds is then leftmost. -/
theorem FindsLeftmost.leftmost {range : Range} (h : FindsLeftmost s separator range)
    (hloc : 0 ≤ range.location) (hle : separator.length ≤ range.length)
    (hend : range.location + range.length ≤ s.length)
    (hos : Matches s separator range.location.toNat os) :
    Leftmost separator.bytes s.bytes (range.location + range.length).toNat
      range.location.toNat os := by
  obtain ⟨os', hos', hrun⟩ := h
  rcases (findResults_iff hloc (by omega) hend).mp hrun with ⟨hshort, -⟩ | ⟨-, os'', hos'', heq⟩
  · exact absurd hshort (Int.not_lt.mpr hle)
  · cases List.map_injective_iff.mpr rangeAt_injective heq
    rwa [hos.unique hos'']

/-- The second comma of `a,b,c,d` sends the pointer behind the third; the comma of
`a,` lies behind the range of its first byte. -/
theorem misses_leftmost :
    ¬ FindsLeftmost ⟨[97, 44, 98, 44, 99, 44, 100], by decide⟩ ⟨[44], by decide⟩ ⟨0, 7⟩ ∧
      ¬ FindsLeftmost ⟨[97, 44], by decide⟩ ⟨[44], by decide⟩ ⟨0, 1⟩ := by
  constructor
  · intro h
    have hleft := h.leftmost (by decide) (by decide) (by decide)
      (.found (by decide) rfl (.found (by decide) rfl (.stop (by decide) rfl)) : Matches _ _ 0 [1, 3])
    obtain _ | ⟨-, -, _ | ⟨-, -, hnone | _⟩⟩ := hleft
    exact hnone 5 (by decide) (by decide) (by decide)
  · intro h
    have hleft := h.leftmost (by decide) (by decide) (by decide)
      (.found (by decide) rfl (.stop (by decide) rfl) : Matches _ _ 0 [1])
    obtain _ | ⟨-, hfits, -⟩ := hleft
    exact absurd hfits (by decide)

end Leftmost

end ByteString

end Rx
