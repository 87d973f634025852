/-
# `RxFoundation.DataCapacity` — how large a buffer is made

`flsl` is read through one fact, `flsl_le_iff`: it is the least exponent whose
power is above the value.  With it a rounded capacity covers what was asked
for, stays within its size range, and grows with the request.

On Android `flsl` is the lowest set bit.  Of `2 ^ t * q` with `q` odd it sees
the `t` only (`ffs_two_pow_mul`), so the result covers the request just where it
agrees with the real one.
-/
import CrashRealm.RxFoundation.Data
import Mathlib.Algebra.Group.Nat.Defs

namespace Rx

/-! ## The two `flsl` -/

theorem flsl_le_iff {value k : Nat} : flsl value ≤ k ↔ value < 2 ^ k := by
  rw [flsl]
  split
  next h =>
    subst h
    exact iff_of_true (Nat.zero_le k) (Nat.two_pow_pos k)
  next h => rw [Nat.add_one_le_iff, Nat.log2_lt h]

theorem lt_two_pow_flsl (value : Nat) : value < 2 ^ flsl value := flsl_le_iff.mp (Nat.le_refl _)

theorem lt_flsl_iff {value k : Nat} : k < flsl value ↔ 2 ^ k ≤ value := by
  rw [← Nat.not_le, flsl_le_iff, Nat.not_lt]

theorem flsl_mono {value value' : Nat} (h : value ≤ value') : flsl value ≤ flsl value' :=
  flsl_le_iff.mpr (Nat.lt_of_le_of_lt h (lt_two_pow_flsl value'))

theorem flsl_two_pow (k : Nat) : flsl (2 ^ k) = k + 1 :=
  Nat.le_antisymm (flsl_le_iff.mpr (Nat.pow_lt_pow_succ (by decide)))
    (lt_flsl_iff.mpr (Nat.le_refl _))

theorem flsl_three_mul_two_pow (k : Nat) : flsl (2 ^ k * 3) = k + 2 :=
  Nat.le_antisymm (flsl_le_iff.mpr (by rw [Nat.pow_add]; have := Nat.two_pow_pos k; omega))
    (lt_flsl_iff.mpr (by rw [Nat.pow_succ]; omega))

/-- The lowest set bit of an odd multiple of `2 ^ t`. -/
theorem ffs_two_pow_mul {t q : Nat} (ht : t < 32) (hq : q % 2 = 1) : ffs (2 ^ t * q) = t + 1 := by
  have hset : (2 ^ t * q).testBit t = true := by
    rw [Nat.testBit_two_pow_mul, Nat.sub_self, Nat.testBit_zero, hq]
    simp
  have hbelow : ∀ i < t, (2 ^ t * q).testBit i = false := fun i hi => by
    rw [Nat.testBit_two_pow_mul, decide_eq_false (Nat.not_le.mpr hi), Bool.false_and]
  have hfind : (List.range 32).find? (2 ^ t * q).testBit = some t := by
    rw [List.find?_range_eq_some]
    exact ⟨hset, List.mem_range.mpr ht, fun i hi => by rw [hbelow i hi]; rfl⟩
  rw [ffs, hfind]

/-- A number that is not zero is an odd multiple of a power of two. -/
theorem exists_two_pow_mul_odd {value : Nat} (h : value ≠ 0) :
    ∃ t q, value = 2 ^ t * q ∧ q % 2 = 1 := by
  induction value using Nat.strongRecOn with
  | ind value ih =>
      by_cases hodd : value % 2 = 1
      · exact ⟨0, value, by rw [Nat.pow_zero, Nat.one_mul], hodd⟩
      · obtain ⟨t, q, hvalue, hq⟩ := ih (value / 2) (by omega) (by omega)
        exact ⟨t + 1, q, by rw [Nat.pow_succ', Nat.mul_assoc, ← hvalue]; omega, hq⟩

/-! ## The real `flsl` -/

/-- `Up to 4x`. -/
def evenUp (idx : Nat) : Nat := idx + if idx % 2 = 0 then 0 else 1

theorem evenUp_mono {idx idx' : Nat} (h : idx ≤ idx') : evenUp idx ≤ evenUp idx' := by
  unfold evenUp
  split <;> split <;> omega

theorem le_evenUp (idx : Nat) : idx ≤ evenUp idx := Nat.le_add_right _ _

theorem evenUp_le {idx k : Nat} (h : idx ≤ 2 * k) : evenUp idx ≤ 2 * k := by
  unfold evenUp
  split <;> omega

namespace Platform

/-- The size constants, as powers of two. -/
structure Sized (P : Platform) (b h m : Nat) : Prop where
  chunkSize : P.chunkSize = 2 ^ b
  lowThreshold : P.lowThreshold = 2 ^ 20
  highThreshold : P.highThreshold = 2 ^ h
  dataMaxSize : P.dataMaxSize = 2 ^ m - 1
  low_le_high : 20 ≤ h
  high_lt_max : h < m
  high_le_ffs : h ≤ 32
  chunk_lt_ffs : b < 32
  max_le_index : P.dataMaxSize ≤ P.indexMax

theorem sized_lp64 : lp64.Sized 29 32 42 := by
  constructor <;> decide

theorem sized_ilp32 : ilp32.Sized 26 29 31 := by
  constructor <;> decide

section Ranges
variable {P : Platform} {b h m c : Nat} (hs : P.Sized b h m)

theorem roundUpCapacity_small (hc : c < 16) : P.roundUpCapacity c = 16 := if_pos hc

include hs

theorem roundUpCapacity_low (h16 : 16 ≤ c) (hc : c < 2 ^ 20) :
    P.roundUpCapacity c = 2 ^ evenUp (P.flsl c) := by
  rw [roundUpCapacity, if_neg (Nat.not_lt.mpr h16), hs.lowThreshold, if_pos hc]
  rfl

theorem roundUpCapacity_mid (hlow : 2 ^ 20 ≤ c) (hc : c < 2 ^ h) :
    P.roundUpCapacity c = 2 ^ P.flsl c := by
  rw [roundUpCapacity, if_neg (by omega), hs.lowThreshold, if_neg (Nat.not_lt.mpr hlow),
    hs.highThreshold, if_pos hc]

theorem roundUpCapacity_high (hchunk : P.flsl (2 ^ b) = b + 1) (hc : 2 ^ h ≤ c) :
    P.roundUpCapacity c = min (2 ^ b * (1 + c / 2 ^ b)) P.dataMaxSize := by
  have hlow : 2 ^ 20 ≤ 2 ^ h := Nat.pow_le_pow_right (by decide) hs.low_le_high
  rw [roundUpCapacity, if_neg (by omega), hs.lowThreshold, if_neg (by omega), hs.highThreshold,
    if_neg (Nat.not_lt.mpr hc), hs.chunkSize, hchunk, Nat.add_sub_cancel, Nat.shiftRight_eq_div_pow]

end Ranges

/-- What a request relies on. -/
structure RoundsUp (P : Platform) (c : Nat) : Prop where
  covers : c ≤ P.roundUpCapacity c
  index : P.roundUpCapacity c ≤ P.indexMax
  monotone : ∀ c' ≤ c, P.roundUpCapacity c' ≤ P.roundUpCapacity c

section Real
variable {P : Platform} {b h m c : Nat} (hs : P.Sized b h m) (hreal : P.flsl = Rx.flsl)
include hs hreal

theorem le_roundUpCapacity (hc : c ≤ P.dataMaxSize) : c ≤ P.roundUpCapacity c := by
  have hlt := lt_two_pow_flsl c
  rcases Nat.lt_or_ge c 16 with h16 | h16
  · rw [roundUpCapacity_small h16]
    omega
  · rcases Nat.lt_or_ge c (2 ^ 20) with hlow | hlow
    · rw [roundUpCapacity_low hs h16 hlow, hreal]
      exact Nat.le_trans (Nat.le_of_lt hlt)
        (Nat.pow_le_pow_right (by decide) (le_evenUp (Rx.flsl c)))
    · rcases Nat.lt_or_ge c (2 ^ h) with hhigh | hhigh
      · rw [roundUpCapacity_mid hs hlow hhigh, hreal]
        exact Nat.le_of_lt hlt
      · rw [roundUpCapacity_high hs (by rw [hreal, flsl_two_pow]) hhigh, Nat.add_comm]
        exact Nat.le_min.mpr ⟨Nat.le_of_lt (Nat.lt_mul_div_succ c (Nat.two_pow_pos b)), hc⟩

/-- A request below a threshold is not rounded past it. -/
theorem roundUpCapacity_le_low (hlow : c < 2 ^ 20) : P.roundUpCapacity c ≤ 2 ^ 20 := by
  rcases Nat.lt_or_ge c 16 with h16 | h16
  · rw [roundUpCapacity_small h16]
    decide
  · rw [roundUpCapacity_low hs h16 hlow, hreal]
    exact Nat.pow_le_pow_right (by decide) (evenUp_le (k := 10) (flsl_le_iff.mpr hlow))

theorem roundUpCapacity_le_high (hhigh : c < 2 ^ h) : P.roundUpCapacity c ≤ 2 ^ h := by
  rcases Nat.lt_or_ge c (2 ^ 20) with hlow | hlow
  · exact Nat.le_trans (roundUpCapacity_le_low hs hreal hlow)
      (Nat.pow_le_pow_right (by decide) hs.low_le_high)
  · rw [roundUpCapacity_mid hs hlow hhigh, hreal]
    exact Nat.pow_le_pow_right (by decide) (flsl_le_iff.mpr hhigh)

theorem roundUpCapacity_le_dataMaxSize : P.roundUpCapacity c ≤ P.dataMaxSize := by
  rcases Nat.lt_or_ge c (2 ^ h) with hhigh | hhigh
  · have hpow : 2 ^ h < 2 ^ m := Nat.pow_lt_pow_right (by decide) hs.high_lt_max
    have hle := roundUpCapacity_le_high hs hreal hhigh
    rw [hs.dataMaxSize]
    omega
  · rw [roundUpCapacity_high hs (by rw [hreal, flsl_two_pow]) hhigh]
    exact Nat.min_le_right _ _

/-- Within a range the rounding is monotone; across a threshold, the lesser result is at
most the threshold and the greater at least. -/
theorem roundUpCapacity_mono (hc : c ≤ P.dataMaxSize) {c' : Nat} (hle : c' ≤ c) :
    P.roundUpCapacity c' ≤ P.roundUpCapacity c := by
  have hcovers := le_roundUpCapacity hs hreal hc
  have hflsl := flsl_mono hle
  rcases Nat.lt_or_ge c (2 ^ h) with hhigh | hhigh
  · rcases Nat.lt_or_ge c (2 ^ 20) with hlow | hlow
    · rcases Nat.lt_or_ge c' 16 with h16 | h16
      · rw [roundUpCapacity_small h16]
        rcases Nat.lt_or_ge c 16 with h16' | h16'
        · exact Nat.le_of_eq (roundUpCapacity_small h16').symm
        · omega
      · rw [roundUpCapacity_low hs h16 (by omega), roundUpCapacity_low hs (by omega) hlow, hreal]
        exact Nat.pow_le_pow_right (by decide) (evenUp_mono hflsl)
    · rcases Nat.lt_or_ge c' (2 ^ 20) with hlow' | hlow'
      · have := roundUpCapacity_le_low hs hreal hlow'
        omega
      · rw [roundUpCapacity_mid hs hlow' (by omega), roundUpCapacity_mid hs hlow hhigh, hreal]
        exact Nat.pow_le_pow_right (by decide) hflsl
  · have hchunk : P.flsl (2 ^ b) = b + 1 := by rw [hreal, flsl_two_pow]
    rcases Nat.lt_or_ge c' (2 ^ h) with hhigh' | hhigh'
    · have := roundUpCapacity_le_high hs hreal hhigh'
      omega
    · rw [roundUpCapacity_high hs hchunk hhigh', roundUpCapacity_high hs hchunk hhigh]
      have hmul : 2 ^ b * (1 + c' / 2 ^ b) ≤ 2 ^ b * (1 + c / 2 ^ b) :=
        Nat.mul_le_mul_left _ (Nat.add_le_add_left (Nat.div_le_div_right hle) 1)
      omega

theorem roundsUp_of_flsl (hc : c ≤ P.dataMaxSize) : P.RoundsUp c where
  covers := le_roundUpCapacity hs hreal hc
  index := Nat.le_trans (roundUpCapacity_le_dataMaxSize hs hreal) hs.max_le_index
  monotone := fun _ hle => roundUpCapacity_mono hs hreal hc hle

end Real

/-! ## Android's `flsl` -/

theorem Sized.android {P : Platform} {b h m : Nat} (hs : P.Sized b h m) : P.android.Sized b h m :=
  ⟨hs.chunkSize, hs.lowThreshold, hs.highThreshold, hs.dataMaxSize, hs.low_le_high,
    hs.high_lt_max, hs.high_le_ffs, hs.chunk_lt_ffs, hs.max_le_index⟩

/-- The requests whose highest and lowest set bits are rounded alike. -/
def AndroidExact (P : Platform) (c : Nat) : Prop :=
  c < 16 ∨ P.highThreshold ≤ c ∨ (∃ k, c = 2 ^ k) ∨ (c < P.lowThreshold ∧ ∃ k, c = 3 * 4 ^ k)

section Android
variable {P : Platform} {b h m c : Nat} (hs : P.Sized b h m) (hreal : P.flsl = Rx.flsl)
include hs

theorem exists_lowest (h16 : 16 ≤ c) (hc : c < 2 ^ h) :
    ∃ t q, c = 2 ^ t * q ∧ q % 2 = 1 ∧ P.android.flsl c = t + 1 ∧ t + 1 ≤ Rx.flsl c := by
  obtain ⟨t, q, rfl, hq⟩ := exists_two_pow_mul_odd (show c ≠ 0 by omega)
  have hle : 2 ^ t ≤ 2 ^ t * q := Nat.le_mul_of_pos_right _ (by omega)
  have ht : t < h := (Nat.pow_lt_pow_iff_right (by decide)).mp (Nat.lt_of_le_of_lt hle hc)
  exact ⟨t, q, rfl, hq, ffs_two_pow_mul (Nat.lt_of_lt_of_le ht hs.high_le_ffs) hq,
    lt_flsl_iff.mpr hle⟩

include hreal

theorem android_eq_high (hhigh : 2 ^ h ≤ c) :
    P.android.roundUpCapacity c = P.roundUpCapacity c := by
  rw [roundUpCapacity_high hs (by rw [hreal, flsl_two_pow]) hhigh,
    roundUpCapacity_high hs.android (by
      rw [← Nat.mul_one (2 ^ b)]
      exact ffs_two_pow_mul hs.chunk_lt_ffs rfl) hhigh]
  rfl

theorem android_le : P.android.roundUpCapacity c ≤ P.roundUpCapacity c := by
  rcases Nat.lt_or_ge c 16 with h16 | h16
  · exact Nat.le_of_eq (by rw [roundUpCapacity_small h16, roundUpCapacity_small h16])
  · rcases Nat.lt_or_ge c (2 ^ h) with hhigh | hhigh
    · obtain ⟨t, q, -, -, hffs, hle⟩ := exists_lowest hs h16 hhigh
      rw [← hffs] at hle
      rcases Nat.lt_or_ge c (2 ^ 20) with hlow | hlow
      · rw [roundUpCapacity_low hs h16 hlow, roundUpCapacity_low hs.android h16 hlow, hreal]
        exact Nat.pow_le_pow_right (by decide) (evenUp_mono hle)
      · rw [roundUpCapacity_mid hs hlow hhigh, roundUpCapacity_mid hs.android hlow hhigh, hreal]
        exact Nat.pow_le_pow_right (by decide) hle
    · exact Nat.le_of_eq (android_eq_high hs hreal hhigh)

/-- Where the request is one of these, Android's result is the real one. -/
theorem android_eq (hexact : P.AndroidExact c) :
    P.android.roundUpCapacity c = P.roundUpCapacity c := by
  rcases Nat.lt_or_ge c 16 with h16 | h16
  · rw [roundUpCapacity_small h16, roundUpCapacity_small h16]
  · rcases Nat.lt_or_ge c (2 ^ h) with hhigh | hhigh
    · rw [AndroidExact, hs.highThreshold, hs.lowThreshold] at hexact
      rcases hexact with hsmall | habove | ⟨k, rfl⟩ | ⟨hlow, k, rfl⟩
      · omega
      · omega
      · have hk : k < 32 := Nat.lt_of_lt_of_le
          ((Nat.pow_lt_pow_iff_right (by decide)).mp hhigh) hs.high_le_ffs
        have hffs : P.android.flsl (2 ^ k) = P.flsl (2 ^ k) := by
          rw [hreal, flsl_two_pow, ← Nat.mul_one (2 ^ k)]
          exact ffs_two_pow_mul hk rfl
        rcases Nat.lt_or_ge (2 ^ k) (2 ^ 20) with hlow | hlow
        · rw [roundUpCapacity_low hs h16 hlow, roundUpCapacity_low hs.android h16 hlow, hffs]
        · rw [roundUpCapacity_mid hs hlow hhigh, roundUpCapacity_mid hs.android hlow hhigh, hffs]
      · have hpow : 3 * 4 ^ k = 2 ^ (2 * k) * 3 := by rw [Nat.pow_mul, Nat.mul_comm]
        have hk : 2 * k < 20 := by
          refine (Nat.pow_lt_pow_iff_right (show 1 < 2 by decide)).mp (Nat.lt_of_le_of_lt ?_ hlow)
          omega
        have hffs : P.android.flsl (3 * 4 ^ k) = 2 * k + 1 := by
          rw [hpow]
          exact ffs_two_pow_mul (by omega) rfl
        rw [roundUpCapacity_low hs h16 hlow, roundUpCapacity_low hs.android h16 hlow, hffs, hreal,
          hpow, flsl_three_mul_two_pow]
        congr 1
        unfold evenUp
        split <;> split <;> omega
    · exact android_eq_high hs hreal hhigh

omit hreal in
/-- Where it covers the request, the request is one of these. -/
theorem androidExact_of_covers (hcovers : c ≤ P.android.roundUpCapacity c) : P.AndroidExact c := by
  rw [AndroidExact, hs.highThreshold, hs.lowThreshold]
  rcases Nat.lt_or_ge c 16 with h16 | h16
  · exact Or.inl h16
  · rcases Nat.lt_or_ge c (2 ^ h) with hhigh | hhigh
    · obtain ⟨t, q, hc, hq, hffs, -⟩ := exists_lowest hs h16 hhigh
      have hpos := Nat.two_pow_pos t
      refine Or.inr (Or.inr ?_)
      rcases Nat.lt_or_ge c (2 ^ 20) with hlow | hlow
      · rw [roundUpCapacity_low hs.android h16 hlow, hffs, hc, evenUp] at hcovers
        obtain ⟨k, ht | ht⟩ : ∃ k, t = 2 * k ∨ t = 2 * k + 1 := ⟨t / 2, by omega⟩
        · rw [if_neg (by omega), Nat.add_assoc, Nat.pow_add] at hcovers
          have hfour : q ≤ 4 := Nat.le_of_mul_le_mul_left hcovers hpos
          rcases show q = 1 ∨ q = 3 by omega with rfl | rfl
          · exact Or.inl ⟨t, by rw [hc, Nat.mul_one]⟩
          · exact Or.inr ⟨hlow, k, by rw [hc, ht, Nat.pow_mul, Nat.mul_comm]⟩
        · rw [if_pos (by omega), Nat.add_zero, Nat.pow_succ] at hcovers
          have hone : q ≤ 2 := Nat.le_of_mul_le_mul_left hcovers hpos
          exact Or.inl ⟨t, by rw [hc, show q = 1 by omega, Nat.mul_one]⟩
      · rw [roundUpCapacity_mid hs.android hlow hhigh, hffs, hc, Nat.pow_succ] at hcovers
        have hone : q ≤ 2 := Nat.le_of_mul_le_mul_left hcovers hpos
        exact Or.inl ⟨t, by rw [hc, show q = 1 by omega, Nat.mul_one]⟩
    · exact Or.inr (Or.inl hhigh)

end Android

/-! ## Every configuration -/

/-- What the sources are compiled for. -/
structure Configuration where
  lp64 : Bool
  android : Bool
  deriving DecidableEq, Repr

namespace Configuration

def real (C : Configuration) : Platform := if C.lp64 then Platform.lp64 else Platform.ilp32

def platform (C : Configuration) : Platform := if C.android then C.real.android else C.real

theorem sized_real (C : Configuration) : ∃ b h m, C.real.Sized b h m ∧ C.real.flsl = Rx.flsl := by
  obtain ⟨lp64, android⟩ := C
  cases lp64 with
  | true => exact ⟨29, 32, 42, sized_lp64, rfl⟩
  | false => exact ⟨26, 29, 31, sized_ilp32, rfl⟩

theorem platform_real {C : Configuration} (h : C.android = false) : C.platform = C.real := by
  rw [platform, h]
  rfl

theorem platform_android {C : Configuration} (h : C.android = true) :
    C.platform = C.real.android := by
  rw [platform, if_pos h]

end Configuration

/-- A request up to the greatest is covered, within `Index`, by a capacity no lesser request
exceeds, exactly if `flsl` is not Android's or the request is one it rounds alike. -/
theorem roundsUp_iff (C : Configuration) {c : Nat} (hc : c ≤ C.platform.dataMaxSize) :
    C.platform.RoundsUp c ↔ C.android = false ∨ C.platform.AndroidExact c := by
  obtain ⟨b, h, m, hs, hreal⟩ := C.sized_real
  by_cases handroid : C.android = true
  · rw [Configuration.platform_android handroid] at hc ⊢
    constructor
    · intro hround
      exact Or.inr (androidExact_of_covers hs hround.covers : C.real.AndroidExact c)
    · rintro (hfalse | hexact)
      · rw [handroid] at hfalse
        cases hfalse
      · have hround := roundsUp_of_flsl hs hreal hc
        have heq := android_eq hs hreal hexact
        refine ⟨?_, ?_, fun c' hle => ?_⟩
        · rw [heq]
          exact hround.covers
        · rw [heq]
          exact hround.index
        · rw [heq]
          exact Nat.le_trans (android_le hs hreal) (hround.monotone c' hle)
  · rw [Bool.not_eq_true] at handroid
    rw [Configuration.platform_real handroid] at hc ⊢
    exact iff_of_true (roundsUp_of_flsl hs hreal hc) (Or.inl handroid)

/-- On Android a request for `3 * 4 ^ 8` bytes is covered. -/
theorem roundsUp_iff_three_mul : (Configuration.mk true true).platform.RoundsUp (3 * 4 ^ 8) :=
  (roundsUp_iff ⟨true, true⟩ (by decide)).mpr
    (Or.inr (Or.inr (Or.inr (Or.inr ⟨by decide, 8, rfl⟩))))

/-- On Android a request for 17 bytes gets a buffer of 4. -/
theorem not_roundsUp_seventeen : ¬ ∀ (C : Configuration) (c : Nat),
    c ≤ C.platform.dataMaxSize → C.platform.RoundsUp c := by
  intro h
  exact absurd (h ⟨true, true⟩ 17 (by decide)).covers (by decide)

end Platform

end Rx
