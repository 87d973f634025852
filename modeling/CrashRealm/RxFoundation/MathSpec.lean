/-
# `RxFoundation.MathSpec` — the powers of two around a word

The smearing overloads of `nextPowerOf2` differ in their width only, so one lemma over
words of `2^k` bits is about all of them.

The bisection halves the part of the word it still looks at: before the round with
`Shift = 2^k / 2` the highest bit is among the lowest `2^k` of `Value`, and `Count`
has the zeros above them, a multiple of `2^k`.  So both branches of
`countLeadingZeros_32` count the same, and `log2_32_Ceil` is the same over either.
-/
import CrashRealm.RxFoundation.Math

namespace Rx

namespace Math

/-! ## The next power of two -/

/-- `p` is the least power of two above `v`, or 0 where a word of `w` bits does not hold it. -/
def IsNextPowerOf2 (w v p : Nat) : Prop :=
  if v < 2 ^ (w - 1) then IsLeast {q | q.isPowerOfTwo ∧ v < q} p else p = 0

theorem isNextPowerOf2_smear {v k : Nat} (h : v < 2 ^ 2 ^ k) :
    IsNextPowerOf2 (2 ^ k) v ((Bits.smear (Bits.doublings k) v + 1) % 2 ^ 2 ^ k) := by
  rw [IsNextPowerOf2, smear_succ_mod h]
  by_cases hlt : v < 2 ^ (2 ^ k - 1)
  · rw [if_pos hlt, if_pos hlt]
    exact Bits.isLeast_two_pow_size v
  · rw [if_neg hlt, if_neg hlt]

/-! ## The bisection -/

/-- One round. -/
theorem bisectionLoop_step {Value Count Shift : Nat} (h : Shift ≠ 0) :
    bisectionLoop Value Count Shift =
      if Value >>> Shift ≠ 0 then bisectionLoop (Value >>> Shift) Count (Shift >>> 1)
      else bisectionLoop Value (Count ||| Shift) (Shift >>> 1) := by
  rw [bisectionLoop, if_neg h]

theorem bisectionLoop_eq {Value Count k : Nat} (hpos : 0 < Value) (hlt : Value < 2 ^ 2 ^ k)
    (hcount : 2 ^ k ∣ Count) :
    bisectionLoop Value Count (2 ^ k >>> 1) = Count + (2 ^ k - Value.size) := by
  have hsize : 0 < Value.size := Nat.size_pos.mpr hpos
  induction k generalizing Value Count with
  | zero =>
      -- one bit is left, and it is set
      have hdone : 2 ^ 0 >>> 1 = 0 := rfl
      rw [hdone, bisectionLoop, if_pos rfl]
      omega
  | succ k ih =>
      have hshift : 2 ^ (k + 1) >>> 1 = 2 ^ k := by
        rw [Nat.shiftRight_eq_div_pow, Nat.pow_succ]
        exact Nat.mul_div_cancel _ Nat.two_pos
      have hhalves : 2 ^ (k + 1) = 2 ^ k + 2 ^ k := by
        rw [Nat.pow_succ, Nat.mul_two]
      have hle : Value.size ≤ 2 ^ (k + 1) := Nat.size_le.mpr hlt
      have hhalf : (Value >>> 2 ^ k).size = Value.size - 2 ^ k := Bits.size_shiftRight ..
      rw [hshift, bisectionLoop_step (Nat.ne_of_gt (Nat.two_pow_pos k))]
      split
      next hne =>
        have htop : 0 < Value >>> 2 ^ k := Nat.pos_of_ne_zero hne
        have htopsize := Nat.size_pos.mpr htop
        have htoplt : Value >>> 2 ^ k < 2 ^ 2 ^ k := Nat.size_le.mp (by omega)
        rw [ih htop htoplt (Nat.dvd_trans (Nat.pow_dvd_pow 2 (Nat.le_succ k)) hcount) htopsize]
        omega
      next heq =>
        rw [not_not] at heq
        rw [heq, Nat.size_zero] at hhalf
        obtain ⟨n, rfl⟩ := hcount
        have hor : 2 ^ (k + 1) * n ||| 2 ^ k = 2 ^ (k + 1) * n + 2 ^ k :=
          (Nat.two_pow_add_eq_or_of_lt (Nat.pow_lt_pow_succ Nat.one_lt_two) n).symm
        have hdvd : 2 ^ k ∣ 2 ^ (k + 1) * n + 2 ^ k :=
          Nat.dvd_add (Nat.dvd_mul_right_of_dvd (Nat.pow_dvd_pow 2 (Nat.le_succ k)) n)
            (Nat.dvd_refl _)
        rw [hor, ih hpos (Nat.size_le.mp (by omega)) hdvd hsize]
        omega

theorem countLeadingZeros_32_bisection_eq {v : Nat} (h : v < 2 ^ 32) :
    countLeadingZeros_32_bisection v = 32 - v.size := by
  rw [countLeadingZeros_32_bisection]
  split
  next hz => rw [hz, Nat.size_zero]
  next hnz =>
    have hloop := @bisectionLoop_eq v 0 5 (Nat.pos_of_ne_zero hnz) h (Nat.dvd_zero _)
    rw [Nat.zero_add] at hloop
    exact hloop

/-- `log2_32_Ceil` does not depend on the compiler. -/
theorem log2_32_Ceil_bisection_eq (v : Nat) : log2_32_Ceil_bisection v = log2_32_Ceil v := by
  rw [log2_32_Ceil_bisection, log2_32_Ceil, countLeadingZeros_32_eq,
    countLeadingZeros_32_bisection_eq (u32_lt _)]

/-- Each `nextPowerOf2` gives the least power of two above its argument, or 0 where the word
does not hold it; the bisection counts the leading zeros; and over either branch of the count
`log2_32_Ceil` gives the least exponent of a power of two that is not below its argument. -/
theorem powers_around_word :
    (∀ v < 2 ^ 64, IsNextPowerOf2 64 v (nextPowerOf2_64 v)) ∧
    (∀ v < 2 ^ 32, IsNextPowerOf2 32 v (nextPowerOf2_32 v)) ∧
    (∀ v < 2 ^ 16, IsNextPowerOf2 16 v (nextPowerOf2_16 v)) ∧
    (∀ v : BitVec 32, countLeadingZeros_32_bisection v.toNat = v.clz.toNat) ∧
    ∀ v < 2 ^ 32, 0 < v → IsLeast {k | v ≤ 2 ^ k} (log2_32_Ceil_bisection v) ∧
      IsLeast {k | v ≤ 2 ^ k} (log2_32_Ceil v) := by
  refine ⟨fun v hv => isNextPowerOf2_smear (k := 6) hv, fun v hv => isNextPowerOf2_smear (k := 5) hv,
    fun v hv => isNextPowerOf2_smear (k := 4) hv, fun v => ?_, fun v hv hpos => ?_⟩
  · rw [Bits.toNat_clz, countLeadingZeros_32_bisection_eq v.isLt]
  · have hleast : IsLeast {k | v ≤ 2 ^ k} (log2_32_Ceil v) := by
      rw [log2_32_Ceil_eq hpos hv]
      exact Bits.isLeast_size_pred hpos
    rw [log2_32_Ceil_bisection_eq]
    exact ⟨hleast, hleast⟩

/-- A word at the top of its range, and one below it. -/
theorem powers_around_word_five :
    IsLeast {q | q.isPowerOfTwo ∧ 5 < q} 8 ∧ IsNextPowerOf2 16 (2 ^ 15) 0 ∧
      countLeadingZeros_32_bisection (5#32).toNat = 29 ∧
      IsLeast {k | 5 ≤ 2 ^ k} (log2_32_Ceil_bisection 5) :=
  ⟨powers_around_word.1 5 (by decide), powers_around_word.2.2.1 (2 ^ 15) (by decide),
    powers_around_word.2.2.2.1 5#32, (powers_around_word.2.2.2.2 5 (by decide) (by decide)).1⟩

end Math

end Rx
