/-
# `Lib.TriangularProbe` — quadratic probing modulo a power of two

A probe sequence that starts anywhere and advances by `1, 2, 3, …` visits the
triangular numbers.  Modulo `2^k` its first `2^k` positions are pairwise
distinct (`probe_injOn`), so they are all the positions there are
(`exists_probe_eq`).  The reason is parity: two equal positions `i < j` would
make `2^(k+1)` divide `(j - i) * (i + j + 1)`, one factor of which is odd and
the other too small.
-/
import Mathlib.Data.Nat.ModEq
import Mathlib.Algebra.Order.Ring.Nat
import Mathlib.Data.Nat.Prime.Basic
import Mathlib.Data.Fintype.Card
import Mathlib.Data.Fintype.EquivFin
import Mathlib.Tactic.Ring
import Mathlib.Tactic.Linarith

namespace TriangularProbe

/-- The triangular numbers. -/
def tri : Nat → Nat
  | 0 => 0
  | n + 1 => tri n + (n + 1)

/-- The `n`-th position of the probe sequence that starts at `h`. -/
def probe (m h n : Nat) : Nat := (h + tri n) % m

theorem two_mul_tri (n : Nat) : 2 * tri n = n * (n + 1) := by
  induction n with
  | zero => rfl
  | succ n ih =>
      rw [tri, Nat.mul_add, ih]
      ring

theorem probe_lt {m : Nat} (hm : 0 < m) (h n : Nat) : probe m h n < m :=
  Nat.mod_lt _ hm

theorem probe_zero (m h : Nat) : probe m h 0 = h % m := rfl

/-- One step of the probe sequence. -/
theorem probe_succ (m h n : Nat) :
    probe m h (n + 1) = (probe m h n + (n + 1)) % m := by
  simp only [probe, tri]
  rw [Nat.mod_add_mod, Nat.add_assoc]

/-- A power of two that divides a product with one odd factor divides the
other factor. -/
theorem pow_dvd_of_dvd_mul_odd {e a b : Nat} (hb : b % 2 = 1) (h : 2 ^ e ∣ a * b) :
    2 ^ e ∣ a := by
  refine Nat.Coprime.dvd_of_dvd_mul_right ?_ h
  exact Nat.Coprime.pow_left e (Nat.coprime_two_left.mpr (Nat.odd_iff.mpr hb))

theorem tri_mono {i j : Nat} (hij : i ≤ j) : tri i ≤ tri j := by
  have hi2 := two_mul_tri i
  have hj2 := two_mul_tri j
  have : i * (i + 1) ≤ j * (j + 1) := Nat.mul_le_mul hij (by omega)
  omega

theorem tri_mod_ne {k i j : Nat} (hij : i < j) (hj : j < 2 ^ k) :
    ¬ 2 ^ k ∣ tri j - tri i := by
  intro hdvd
  -- doubled, the difference of two triangular numbers factors
  have hfac : 2 * (tri j - tri i) = (j - i) * (i + j + 1) := by
    obtain ⟨d, rfl⟩ := Nat.exists_eq_add_of_lt hij
    rw [Nat.mul_sub, two_mul_tri, two_mul_tri]
    have : (i + d + 1) * (i + d + 1 + 1)
        = (i + d + 1 - i) * (i + (i + d + 1) + 1) + i * (i + 1) := by
      rw [show i + d + 1 - i = d + 1 by omega]
      ring
    omega
  have hbig : 2 ^ (k + 1) ∣ (j - i) * (i + j + 1) := by
    rw [← hfac, Nat.pow_succ, Nat.mul_comm (2 ^ k) 2]
    exact Nat.mul_dvd_mul_left 2 hdvd
  have hpow : 2 ^ (k + 1) = 2 ^ k * 2 := Nat.pow_succ 2 k
  rcases Nat.mod_two_eq_zero_or_one (j - i) with hpar | hpar
  · -- `j - i` even: the other factor is odd
    have hodd : (i + j + 1) % 2 = 1 := by omega
    have := Nat.le_of_dvd (by omega) (pow_dvd_of_dvd_mul_odd hodd hbig)
    omega
  · -- `j - i` odd: the other factor is below `2^(k+1)`
    rw [Nat.mul_comm] at hbig
    have := Nat.le_of_dvd (by omega) (pow_dvd_of_dvd_mul_odd hpar hbig)
    omega

/-- The first `2^k` probes are pairwise distinct. -/
theorem probe_injOn {k h i j : Nat} (hi : i < 2 ^ k) (hj : j < 2 ^ k)
    (heq : probe (2 ^ k) h i = probe (2 ^ k) h j) : i = j := by
  -- by symmetry it is enough to refute `i < j`
  have key : ∀ {a b : Nat}, a < b → b < 2 ^ k →
      probe (2 ^ k) h a = probe (2 ^ k) h b → False := by
    intro a b hab hb he
    apply tri_mod_ne hab hb
    have hmod : Nat.ModEq (2 ^ k) (tri a) (tri b) := Nat.ModEq.add_left_cancel' h he
    exact (Nat.modEq_iff_dvd' (tri_mono hab.le)).mp hmod
  rcases Nat.lt_trichotomy i j with hlt | rfl | hlt
  · exact (key hlt hj heq).elim
  · rfl
  · exact (key hlt hi heq.symm).elim

/-- Every position is met within the first `2^k` probes. -/
theorem exists_probe_eq (k h : Nat) {i : Nat} (hi : i < 2 ^ k) :
    ∃ n < 2 ^ k, probe (2 ^ k) h n = i := by
  let f : Fin (2 ^ k) → Fin (2 ^ k) :=
    fun n => ⟨probe (2 ^ k) h n, probe_lt (Nat.two_pow_pos k) h n⟩
  have hinj : Function.Injective f := by
    intro a b hab
    exact Fin.ext (probe_injOn a.isLt b.isLt (congrArg Fin.val hab))
  obtain ⟨n, hn⟩ := Finite.surjective_of_injective hinj ⟨i, hi⟩
  exact ⟨n, n.isLt, congrArg Fin.val hn⟩

end TriangularProbe
