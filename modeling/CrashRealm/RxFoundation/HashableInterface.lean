/-
# `RxFoundation.HashableInterface` — the ELF hash of a byte sequence

`Rx::hash` reads its bytes through a pointer; here through a function, which may
fail.  It takes four bytes a round and the last three or fewer in a `switch` that
falls through.  `length` is cut to 32 bits for the count of what remains.
-/
import CrashRealm.RxFoundation.Fault
import Mathlib.Algebra.Group.Nat.Defs
import Mathlib.Algebra.Group.Int.Defs

namespace Rx

/-- `ELF_STEP`. -/
def elfStep (H : UInt32) (B : UInt8) : UInt32 :=
  let T1 := (H <<< 4) + B.toUInt32
  let T2 := T1 &&& 0xF0000000
  let T1 := if T2 ≠ 0 then T1 ^^^ (T2 >>> 24) else T1
  T1 &&& ~~~T2

variable (bytes : Int → Except Fault UInt8) (length : Int)

/-- `ELF_STEP(bytes[i])`. -/
def elfStepAt (H : UInt32) (i : Int) : Except Fault UInt32 := do
  let B ← bytes i
  .ok (elfStep H B)

/-- The `switch`, entered at `case rem`. -/
def hashTail (H : UInt32) : Nat → Except Fault UInt32
  | 0 => .ok H
  | rem + 1 => do
      let H ← elfStepAt bytes H (length - (rem + 1))
      hashTail H rem

/-- The `while` loop and the `switch` after it. -/
def hashLoop (H : UInt32) (rem : Int) : Except Fault UInt32 :=
  if 3 < rem then do
    let H ← elfStepAt bytes H (length - rem)
    let H ← elfStepAt bytes H (length - rem + 1)
    let H ← elfStepAt bytes H (length - rem + 2)
    let H ← elfStepAt bytes H (length - rem + 3)
    hashLoop H (rem - 4)
  else hashTail bytes length H rem.toNat
termination_by rem.toNat

/-- `Rx::hash`. -/
def hash : Except Fault UInt32 := hashLoop bytes length 0 (Int.bmod length (2 ^ 32))

/-! ## Hashing what can be read -/

variable {bytes length}

/-- Every byte below `length` can be read. -/
def Fetches (bytes : Int → Except Fault UInt8) (length : Int) : Prop :=
  ∀ i, 0 ≤ i → i < length → ∃ B, bytes i = .ok B

theorem elfStepAt_returns (hb : Fetches bytes length) (H : UInt32) {i : Int} (hi : 0 ≤ i)
    (hlt : i < length) : ∃ H', elfStepAt bytes H i = .ok H' := by
  obtain ⟨B, hB⟩ := hb i hi hlt
  exact ⟨elfStep H B, by rw [elfStepAt, hB, ok_bind]⟩

theorem hashTail_returns (hb : Fetches bytes length) (rem : Nat) :
    ∀ H : UInt32, (rem : Int) ≤ length → ∃ H', hashTail bytes length H rem = .ok H' := by
  induction rem with
  | zero => exact fun H _ => ⟨H, rfl⟩
  | succ rem ih =>
      intro H hrem
      obtain ⟨H₁, h₁⟩ := elfStepAt_returns hb H (i := length - (rem + 1)) (by omega) (by omega)
      rw [hashTail, h₁, ok_bind]
      exact ih H₁ (by omega)

theorem hashLoop_returns (hb : Fetches bytes length) (H : UInt32) (rem : Int)
    (hrem : rem ≤ length) : ∃ H', hashLoop bytes length H rem = .ok H' := by
  rw [hashLoop]
  split
  next hlt =>
    obtain ⟨H₁, h₁⟩ := elfStepAt_returns hb H (i := length - rem) (by omega) (by omega)
    obtain ⟨H₂, h₂⟩ := elfStepAt_returns hb H₁ (i := length - rem + 1) (by omega) (by omega)
    obtain ⟨H₃, h₃⟩ := elfStepAt_returns hb H₂ (i := length - rem + 2) (by omega) (by omega)
    obtain ⟨H₄, h₄⟩ := elfStepAt_returns hb H₃ (i := length - rem + 3) (by omega) (by omega)
    rw [h₁, ok_bind, h₂, ok_bind, h₃, ok_bind, h₄, ok_bind]
    exact hashLoop_returns hb H₄ (rem - 4) (by omega)
  next hge =>
    by_cases hneg : rem < 0
    · rw [Int.toNat_of_nonpos (by omega)]
      exact ⟨H, rfl⟩
    · exact hashTail_returns hb rem.toNat H (by omega)
termination_by rem.toNat

/-- Hashing reads no byte outside the sequence. -/
theorem hash_returns (hb : Fetches bytes length) (hpos : 0 ≤ length) (hlt : length < 2 ^ 31) :
    ∃ H, hash bytes length = .ok H := by
  rw [hash, Int.bmod_eq_of_le (by omega) (by omega)]
  exact hashLoop_returns hb 0 length (Int.le_refl _)

end Rx
