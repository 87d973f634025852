/-
# `RxFoundation.Math` — fixed-width arithmetic and `Math.hpp`

Machine words are natural numbers below `2^w`; every operation that can leave
that range reduces explicitly (`u64`, `u32`).  `Math::nextPowerOf2` has one
overload for each width, each smearing the word over the distances its width
needs, and each turns out to be `2^size` reduced to the width.  On Darwin and
Android clang takes the `__builtin_clz` branch of `countLeadingZeros_32`; the
branch for other compilers, a bisection, stands beside it.
-/
import CrashRealm.Lib.Bits

namespace Rx

/-- Reduction to 64 bits. -/
def u64 (n : Nat) : Nat := n % 2 ^ 64

/-- Reduction to 32 bits. -/
def u32 (n : Nat) : Nat := n % 2 ^ 32

/-- `a - b` on `size_t`. -/
def sub64 (a b : Nat) : Nat := u64 (a + (2 ^ 64 - b % 2 ^ 64))

/-- `INT_MAX`. -/
def intMax : Nat := 2 ^ 31 - 1

theorem u64_of_lt {n : Nat} (h : n < 2 ^ 64) : u64 n = n := Nat.mod_eq_of_lt h

theorem u32_of_lt {n : Nat} (h : n < 2 ^ 32) : u32 n = n := Nat.mod_eq_of_lt h

theorem u64_lt (n : Nat) : u64 n < 2 ^ 64 := Nat.mod_lt _ (Nat.two_pow_pos 64)

theorem u32_lt (n : Nat) : u32 n < 2 ^ 32 := Nat.mod_lt _ (Nat.two_pow_pos 32)

theorem sub64_of_le {a b : Nat} (ha : a < 2 ^ 64) (h : b ≤ a) : sub64 a b = a - b := by
  simp only [sub64, u64]
  omega

namespace Math

/-- `nextPowerOf2(UInt64)`. -/
def nextPowerOf2_64 (v : Nat) : Nat := (Bits.smear [1, 2, 4, 8, 16, 32] v + 1) % 2 ^ 64

/-- `nextPowerOf2(UInt32)`. -/
def nextPowerOf2_32 (v : Nat) : Nat := (Bits.smear [1, 2, 4, 8, 16] v + 1) % 2 ^ 32

/-- `nextPowerOf2(UInt16)`. -/
def nextPowerOf2_16 (v : Nat) : Nat := (Bits.smear [1, 2, 4, 8] v + 1) % 2 ^ 16

/-- `__builtin_clz`, defined for nonzero 32-bit words. -/
def builtinClz (v : Nat) : Nat := 31 - Nat.log2 v

/-- `countLeadingZeros_32`. -/
def countLeadingZeros_32 (v : Nat) : Nat := if v = 0 then 32 else builtinClz v

/-- `log2_32_Ceil`. -/
def log2_32_Ceil (v : Nat) : Nat := 32 - countLeadingZeros_32 (u32 (u32 v + (2 ^ 32 - 1)))

/-- The bisection: `for (…; Shift; Shift >>= 1)`. -/
def bisectionLoop (Value Count Shift : Nat) : Nat :=
  if Shift = 0 then Count
  else
    let Tmp := Value >>> Shift
    if Tmp ≠ 0 then bisectionLoop Tmp Count (Shift >>> 1)
    else bisectionLoop Value (Count ||| Shift) (Shift >>> 1)
termination_by Shift

/-- `countLeadingZeros_32` where `__GNUC__ >= 4` does not hold. -/
def countLeadingZeros_32_bisection (Value : Nat) : Nat :=
  if Value = 0 then 32 else bisectionLoop Value 0 (32 >>> 1)

/-- `log2_32_Ceil` over that. -/
def log2_32_Ceil_bisection (v : Nat) : Nat :=
  32 - countLeadingZeros_32_bisection (u32 (u32 v + (2 ^ 32 - 1)))

/-- Smearing over the distances of a `2^k`-bit word and adding one. -/
theorem smear_succ_mod {v k : Nat} (h : v < 2 ^ 2 ^ k) :
    (Bits.smear (Bits.doublings k) v + 1) % 2 ^ 2 ^ k
      = if v < 2 ^ (2 ^ k - 1) then 2 ^ v.size else 0 := by
  rw [Bits.smear_eq h, Nat.sub_add_cancel (Nat.two_pow_pos _)]
  have hk : 0 < 2 ^ k := Nat.two_pow_pos k
  split
  next hlt =>
    have : v.size ≤ 2 ^ k - 1 := Nat.size_le.mpr hlt
    exact Nat.mod_eq_of_lt (Nat.pow_lt_pow_right (by decide) (by omega))
  next hge =>
    have hle : v.size ≤ 2 ^ k := Nat.size_le.mpr h
    have hlt : 2 ^ k - 1 < v.size := Nat.lt_size.mpr (Nat.le_of_not_lt hge)
    rw [show v.size = 2 ^ k by omega]
    exact Nat.mod_self _

theorem nextPowerOf2_64_eq {v : Nat} (h : v < 2 ^ 64) :
    nextPowerOf2_64 v = if v < 2 ^ 63 then 2 ^ v.size else 0 :=
  smear_succ_mod (k := 6) h

/-- The next power of two of the predecessor of a power of two is that power. -/
theorem nextPowerOf2_64_pred {k : Nat} (h : k ≤ 63) : nextPowerOf2_64 (2 ^ k - 1) = 2 ^ k := by
  have hpos := Nat.two_pow_pos k
  have hle : 2 ^ k ≤ 2 ^ 63 := Nat.pow_le_pow_right (by decide) h
  rw [nextPowerOf2_64_eq (by omega), if_pos (by omega), Bits.size_pred_two_pow]

/-- It is zero or a power of two, of exponent at most 63. -/
theorem nextPowerOf2_64_cases (v : Nat) (h : v < 2 ^ 64) :
    nextPowerOf2_64 v = 0 ∨ ∃ k ≤ 63, nextPowerOf2_64 v = 2 ^ k := by
  rw [nextPowerOf2_64_eq h]
  split
  next hlt => exact Or.inr ⟨v.size, Nat.size_le.mpr hlt, rfl⟩
  next => exact Or.inl rfl

theorem countLeadingZeros_32_eq (v : Nat) : countLeadingZeros_32 v = 32 - v.size := by
  rw [countLeadingZeros_32]
  split
  next hz => rw [hz, Nat.size_zero]
  next hnz =>
    have hlog : v.size = Nat.log2 v + 1 := by
      apply Nat.le_antisymm
      · exact Nat.size_le.mpr ((Nat.log2_lt hnz).mp (Nat.lt_succ_self _))
      · exact Nat.lt_size.mpr ((Nat.le_log2 hnz).mp (Nat.le_refl _))
    rw [builtinClz, hlog]
    omega

/-- The argument of the count. -/
theorem u32_pred {v : Nat} (h0 : 0 < v) (h : v < 2 ^ 32) :
    u32 (u32 v + (2 ^ 32 - 1)) = v - 1 := by
  simp only [u32]
  omega

/-- `log2_32_Ceil` is the bit size of the predecessor. -/
theorem log2_32_Ceil_eq {v : Nat} (h0 : 0 < v) (h : v < 2 ^ 32) :
    log2_32_Ceil v = (v - 1).size := by
  have hsize : (v - 1).size ≤ 32 := Nat.size_le.mpr (by omega)
  rw [log2_32_Ceil, u32_pred h0 h, countLeadingZeros_32_eq, Nat.sub_sub_self hsize]

end Math

end Rx
