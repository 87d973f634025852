/-
# `Lib.ByteImage` — byte strings in memory

A memory is given by the addresses that can be read and what they hold.  `At m a bs`
says that it holds `bs` from `a` on, `WordAt m a w` that it holds the number `w` there,
in four bytes with the highest first.
-/
import Mathlib.Data.List.Basic
import Mathlib.Logic.Function.Basic

universe u

namespace ByteImage

variable {β : Type u} {m : Int → Option β} {a : Int}

def At (m : Int → Option β) : Int → List β → Prop
  | _, [] => True
  | a, b :: bs => m a = some b ∧ At m (a + 1) bs

theorem at_append {bs cs : List β} :
    At m a (bs ++ cs) ↔ At m a bs ∧ At m (a + bs.length) cs := by
  induction bs generalizing a with
  | nil =>
      rw [List.nil_append, List.length_nil, Int.natCast_zero, Int.add_zero]
      exact (and_iff_right trivial).symm
  | cons b bs ih =>
      rw [List.cons_append, At, ih, At, and_assoc, List.length_cons, Int.natCast_succ,
        Int.add_assoc, Int.add_comm 1]

theorem at_replicate {b : β} {n : Nat} (h : ∀ i : Nat, i < n → m (a + i) = some b) :
    At m a (List.replicate n b) := by
  induction n generalizing a with
  | zero => trivial
  | succ n ih =>
      have hfirst := h 0 (Nat.succ_pos n)
      rw [Int.natCast_zero, Int.add_zero] at hfirst
      refine ⟨hfirst, ih fun i hi => ?_⟩
      rw [Int.add_assoc, Int.add_comm 1]
      exact h (i + 1) (Nat.succ_lt_succ hi)

theorem At.getElem? {bs : List β} (h : At m a bs) {i : Nat} {b : β} (hi : bs[i]? = some b) :
    m (a + i) = some b := by
  induction bs generalizing a i with
  | nil =>
      rw [List.getElem?_nil] at hi
      cases hi
  | cons c bs ih =>
      cases i with
      | zero =>
          cases hi
          rw [Int.natCast_zero, Int.add_zero]
          exact h.1
      | succ i =>
          rw [List.getElem?_cons_succ] at hi
          have hrest := ih h.2 hi
          rwa [Int.add_assoc, Int.add_comm 1] at hrest

/-- What is written elsewhere changes nothing here. -/
theorem At.congr {m' : Int → Option β} {bs : List β} (h : At m a bs)
    (hsame : ∀ q, a ≤ q → q < a + bs.length → m' q = m q) : At m' a bs := by
  induction bs generalizing a with
  | nil => trivial
  | cons b bs ih =>
      rw [List.length_cons] at hsame
      refine ⟨?_, ih h.2 fun q hle hlt => hsame q (by omega) (by push_cast; omega)⟩
      rw [hsame a (by omega) (by push_cast; omega)]
      exact h.1

/-- One byte is written. -/
theorem At.set {bs : List β} (h : At m a bs) {i : Nat} (hi : i < bs.length) (b : β) :
    At (Function.update m (a + i) (some b)) a (bs.set i b) := by
  induction bs generalizing a i with
  | nil => cases hi
  | cons c bs ih =>
      cases i with
      | zero =>
          rw [Int.natCast_zero, Int.add_zero, List.set_cons_zero]
          refine ⟨Function.update_self _ _ _, h.2.congr fun q hle _ => ?_⟩
          rw [Function.update_of_ne (by omega)]
      | succ i =>
          rw [List.set_cons_succ]
          refine ⟨?_, ?_⟩
          · rw [Function.update_of_ne (by push_cast; omega)]
            exact h.1
          · have hrest := ih h.2 (Nat.lt_of_succ_lt_succ hi)
            rwa [Int.add_assoc, Int.add_comm 1] at hrest

def WordAt (m : Int → Option UInt8) (a : Int) (w : Nat) : Prop :=
  ∃ b₀ b₁ b₂ b₃ : UInt8, At m a [b₀, b₁, b₂, b₃] ∧
    w = ((b₀.toNat * 256 + b₁.toNat) * 256 + b₂.toNat) * 256 + b₃.toNat

end ByteImage
