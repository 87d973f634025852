/-
# `Lib.Bits` — folding a word onto itself, and powers of two

Nothing here names the repository.  Or-ing a number with itself shifted right
by `1, 2, 4, …, 2^(k-1)` fills every bit below its highest one, so the result
is `2^size - 1` as long as the number has at most `2^k` bits (`smear_eq`).

The powers of two around a number, and the zeros before it in a word, are given
by its size as well.
-/
import Mathlib.Data.Nat.Size
import Mathlib.Data.Nat.Bitwise
import Mathlib.Order.Bounds.Defs

namespace Bits

/-- `v |= v >> s`. -/
def orShift (v s : Nat) : Nat := v ||| (v >>> s)

/-- The first `k` shift distances of the doubling trick: `1, 2, 4, …`. -/
def doublings (k : Nat) : List Nat := (List.range k).map (2 ^ ·)

/-- Or-ing a number with its own shifts, one after another. -/
def smear (shifts : List Nat) (v : Nat) : Nat := shifts.foldl orShift v

theorem testBit_orShift (v s i : Nat) :
    (orShift v s).testBit i = (v.testBit i || v.testBit (i + s)) := by
  rw [orShift, Nat.testBit_or, Nat.testBit_shiftRight, Nat.add_comm s i]

/-- After `k` doublings a bit is set exactly when some bit of `v` less than
`2^k` places above it is. -/
theorem testBit_smear_doublings (v : Nat) :
    ∀ k i, (smear (doublings k) v).testBit i = true ↔
      ∃ d < 2 ^ k, v.testBit (i + d) = true := by
  intro k
  induction k with
  | zero =>
      intro i
      simp [doublings, smear]
  | succ k ih =>
      intro i
      have hstep : smear (doublings (k + 1)) v
          = orShift (smear (doublings k) v) (2 ^ k) := by
        simp [smear, doublings, List.range_succ]
      rw [hstep, testBit_orShift, Bool.or_eq_true, ih, ih]
      constructor
      · rintro (⟨d, hd, hb⟩ | ⟨d, hd, hb⟩)
        · exact ⟨d, by rw [Nat.pow_succ]; omega, hb⟩
        · exact ⟨2 ^ k + d, by rw [Nat.pow_succ]; omega, by rwa [← Nat.add_assoc]⟩
      · rintro ⟨d, hd, hb⟩
        rw [Nat.pow_succ] at hd
        by_cases hlt : d < 2 ^ k
        · exact Or.inl ⟨d, hlt, hb⟩
        · refine Or.inr ⟨d - 2 ^ k, by omega, ?_⟩
          rwa [show i + 2 ^ k + (d - 2 ^ k) = i + d by omega]

/-- A bit at or above the size of a number is clear. -/
theorem testBit_ge_size {v i : Nat} (h : v.size ≤ i) : v.testBit i = false :=
  Nat.testBit_lt_two_pow (Nat.size_le.mp h)

/-- The highest bit of a nonzero number is set. -/
theorem testBit_size_pred {v : Nat} (h : 0 < v) : v.testBit (v.size - 1) = true := by
  have hs : 0 < v.size := Nat.size_pos.mpr h
  have hge : 2 ^ (v.size - 1) ≤ v := Nat.lt_size.mp (by omega)
  have hlt : v < 2 ^ (v.size - 1 + 1) := by
    rw [Nat.sub_add_cancel hs]
    exact Nat.lt_size_self v
  rw [Nat.testBit_eq_decide_div_mod_eq, decide_eq_true_eq]
  have hdiv : v / 2 ^ (v.size - 1) = 1 := by
    apply Nat.div_eq_of_lt_le
    · simpa using hge
    · rw [Nat.pow_succ] at hlt
      omega
  rw [hdiv]

/-- Smearing a number of at most `2^k` bits sets exactly the bits below its
size. -/
theorem smear_eq {v k : Nat} (h : v < 2 ^ 2 ^ k) :
    smear (doublings k) v = 2 ^ v.size - 1 := by
  apply Nat.eq_of_testBit_eq
  intro i
  rw [Nat.testBit_two_pow_sub_one, Bool.eq_iff_iff, testBit_smear_doublings,
    decide_eq_true_eq]
  constructor
  · rintro ⟨d, -, hb⟩
    by_contra hi
    rw [testBit_ge_size (by omega)] at hb
    cases hb
  · intro hi
    have hv : 0 < v := Nat.size_pos.mp (by omega)
    have hk : v.size ≤ 2 ^ k := Nat.size_le.mpr h
    refine ⟨v.size - 1 - i, by omega, ?_⟩
    rw [show i + (v.size - 1 - i) = v.size - 1 by omega]
    exact testBit_size_pred hv

/-- The size of the predecessor of a power of two. -/
theorem size_pred_two_pow (k : Nat) : (2 ^ k - 1).size = k := by
  apply Nat.le_antisymm
  · exact Nat.size_le.mpr (Nat.sub_lt (Nat.two_pow_pos k) Nat.one_pos)
  · cases k with
    | zero => exact Nat.zero_le _
    | succ k =>
        apply Nat.lt_size.mpr
        have := Nat.two_pow_pos k
        rw [Nat.pow_succ]
        omega

/-! ## What the size tells -/

theorem isLeast_two_pow_size (v : Nat) :
    IsLeast {p | p.isPowerOfTwo ∧ v < p} (2 ^ v.size) := by
  refine ⟨⟨⟨v.size, rfl⟩, Nat.lt_size_self v⟩, ?_⟩
  rintro p ⟨⟨k, rfl⟩, hlt⟩
  exact Nat.pow_le_pow_right Nat.two_pos (Nat.size_le.mpr hlt)

theorem isLeast_size_pred {v : Nat} (h : 0 < v) : IsLeast {k | v ≤ 2 ^ k} (v - 1).size := by
  have hle : ∀ k, v ≤ 2 ^ k ↔ (v - 1).size ≤ k := by
    intro k
    rw [Nat.size_le]
    omega
  exact ⟨(hle _).mpr (Nat.le_refl _), fun k hk => (hle k).mp hk⟩

theorem size_shiftRight (v s : Nat) : (v >>> s).size = v.size - s := by
  refine eq_of_forall_ge_iff fun n => ?_
  rw [Nat.size_le, Nat.shiftRight_eq_div_pow, Nat.div_lt_iff_lt_mul (Nat.two_pow_pos s),
    ← Nat.pow_add, ← Nat.size_le, Nat.sub_le_iff_le_add]

/-- In a word the bits above the size are the leading zeros. -/
theorem toNat_clz {w : Nat} (x : BitVec w) : x.clz.toNat = w - x.toNat.size := by
  have hle : x.toNat.size ≤ w - x.clz.toNat := Nat.size_le.mpr BitVec.toNat_lt_two_pow_sub_clz
  have hw : x.clz.toNat ≤ w := by
    have hclz := BitVec.le_def.mp (BitVec.clz_le (x := x))
    rwa [BitVec.natCast_eq_ofNat, BitVec.toNat_ofNat, Nat.mod_eq_of_lt Nat.lt_two_pow_self] at hclz
  by_cases hx : x = 0#w
  · rw [BitVec.clz_eq_iff_eq_zero.mpr hx, hx, BitVec.natCast_eq_ofNat, BitVec.toNat_ofNat,
      Nat.mod_eq_of_lt Nat.lt_two_pow_self, BitVec.toNat_zero, Nat.size_zero, Nat.sub_zero]
  · have hpos : 0 < w := by
      refine Nat.pos_of_ne_zero ?_
      rintro rfl
      exact hx (BitVec.eq_nil x)
    have hlt := Nat.lt_size.mpr (BitVec.two_pow_sub_clz_le_toNat_of_ne_zero hpos hx)
    omega

end Bits
