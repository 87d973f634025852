/-
# `Lib.Custody` — tokens held by parties

What is handed around and never copied is held by one party at most, once at most.
`Apart` says so of the lists of what the parties hold, in any order.  It survives
that a party drops some of what it holds (`Apart.keep`) or takes what is free
(`Apart.take`), and tells a holder that nobody else has what it has
(`Apart.alone`).
-/
import Mathlib.Data.List.Nodup
import Mathlib.Data.List.Perm.Basic
import Mathlib.Logic.Function.Basic

universe u v

namespace Custody

variable {P : Type u} {C : Type v} {held : P → List C} {p : P} {c : C} {cs : List C}

/-- No token is held twice, by one party or by two. -/
structure Apart (held : P → List C) : Prop where
  nodup : ∀ p, (held p).Nodup
  party : ∀ p q c, c ∈ held p → c ∈ held q → p = q

theorem Apart.nil : Apart fun _ : P => ([] : List C) where
  nodup := fun _ => List.nodup_nil
  party := fun _ _ _ h => absurd h List.not_mem_nil

/-- What a party has, nobody else has, and it has it once. -/
theorem Apart.alone (h : Apart held) (hp : (held p).Perm (c :: cs)) :
    c ∉ cs ∧ ∀ q, q ≠ p → c ∉ held q := by
  refine ⟨(List.nodup_cons.mp (hp.nodup_iff.mp (h.nodup p))).1, fun q hne hq => hne ?_⟩
  exact h.party q p c hq (hp.mem_iff.mpr List.mem_cons_self)

variable [DecidableEq P]

/-- One party has other tokens, each its own before or free. -/
theorem Apart.update (h : Apart held) (hnodup : cs.Nodup)
    (hfree : ∀ d ∈ cs, ∀ q, q ≠ p → d ∉ held q) : Apart (Function.update held p cs) := by
  refine ⟨fun q => ?_, fun q r d hq hr => ?_⟩
  · by_cases hqp : q = p
    · rwa [hqp, Function.update_self]
    · rw [Function.update_of_ne hqp]
      exact h.nodup q
  · by_cases hqp : q = p
    · subst hqp
      rw [Function.update_self] at hq
      by_contra hne
      rw [Function.update_of_ne (Ne.symm hne)] at hr
      exact hfree d hq r (Ne.symm hne) hr
    · rw [Function.update_of_ne hqp] at hq
      by_cases hrp : r = p
      · subst hrp
        rw [Function.update_self] at hr
        exact absurd hq (hfree d hr q hqp)
      · rw [Function.update_of_ne hrp] at hr
        exact h.party q r d hq hr

/-- One party has nothing it did not have. -/
theorem Apart.keep (h : Apart held) (hsub : cs.Subperm (held p)) :
    Apart (Function.update held p cs) := by
  obtain ⟨l, hperm, hsublist⟩ := hsub
  refine h.update (hperm.nodup_iff.mp (hsublist.nodup (h.nodup p))) fun d hd q hne hq => hne ?_
  exact h.party q p d hq (hsublist.subset (hperm.mem_iff.mpr hd))

/-- One party has one token more, which was free. -/
theorem Apart.take (h : Apart held) (hfree : ∀ q, c ∉ held q) (hcs : cs.Perm (c :: held p)) :
    Apart (Function.update held p cs) := by
  have hnodup : (c :: held p).Nodup := List.nodup_cons.mpr ⟨hfree p, h.nodup p⟩
  refine h.update (hcs.nodup_iff.mpr hnodup) fun d hd q hne hq => ?_
  rcases List.mem_cons.mp (hcs.mem_iff.mp hd) with rfl | hold
  · exact hfree q hq
  · exact hne (h.party q p d hq hold)

end Custody
