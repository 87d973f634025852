/-
# `Lib.KeyEquality` — an equality and a hash that serve a hashed collection

A hashed collection needs of its keys that their equality is an equivalence and that
equal keys have one hash (`Lawful`).  Two ways to get there, and what they cost: an
equality and a hash that both go by one value of the key always do (`lawful_of_value`);
an equality that starts from identity, and which only some of the keys widen to
a comparison of contents, does so only where no such key has the contents of another
key, if the hash goes by identity (`lawful_widened_iff`).

`Lawful.lookup` is what the laws are for: a search of the one bucket of a hash finds
what a search of all keys finds.
-/

namespace KeyEquality

universe u v w

variable {K : Type u} {H : Type v} {V : Type w}

/-- The laws of the keys in `S`. -/
structure Lawful (S : K → Prop) (eq : K → K → Prop) (hash : K → H) : Prop where
  refl : ∀ a, S a → eq a a
  symm : ∀ a b, S a → S b → eq a b → eq b a
  trans : ∀ a b c, S a → S b → S c → eq a b → eq b c → eq a c
  hash : ∀ a b, S a → S b → eq a b → hash a = hash b

variable {S : K → Prop} {eq : K → K → Prop} {hash : K → H}

/-- The bucket of `k`'s hash holds every key that is equal to it. -/
theorem Lawful.lookup (h : Lawful S eq hash) {keys : List K} (hkeys : ∀ k ∈ keys, S k) {k : K}
    (hk : S k) : (∃ k' ∈ keys, hash k' = hash k ∧ eq k' k) ↔ ∃ k' ∈ keys, eq k' k := by
  constructor
  · rintro ⟨k', hmem, -, heq⟩
    exact ⟨k', hmem, heq⟩
  · rintro ⟨k', hmem, heq⟩
    exact ⟨k', hmem, h.hash k' k (hkeys k' hmem) hk heq, heq⟩

theorem lawful_of_value (value : K → V) (ofValue : V → H)
    (heq : ∀ a b, S a → S b → (eq a b ↔ value a = value b))
    (hhash : ∀ a, S a → hash a = ofValue (value a)) : Lawful S eq hash where
  refl := by
    intro a ha
    exact (heq a a ha ha).mpr rfl
  symm := by
    intro a b ha hb hab
    exact (heq b a hb ha).mpr ((heq a b ha hb).mp hab).symm
  trans := by
    intro a b c ha hb hc hab hbc
    exact (heq a c ha hc).mpr (((heq a b ha hb).mp hab).trans ((heq b c hb hc).mp hbc))
  hash := by
    intro a b ha hb hab
    rw [hhash a ha, hhash b hb, (heq a b ha hb).mp hab]

section Widened

variable {widens : K → Prop} {same : K → K → Prop}

theorem widened_refl (heq : ∀ a b, S a → S b → (eq a b ↔ a = b ∨ widens a ∧ same a b)) (a : K)
    (ha : S a) : eq a a :=
  (heq a a ha ha).mpr (.inl rfl)

/-- Widening is transitive whoever does it. -/
theorem widened_trans (heq : ∀ a b, S a → S b → (eq a b ↔ a = b ∨ widens a ∧ same a b))
    (htrans : ∀ a b c, same a b → same b c → same a c) (a b c : K) (ha : S a) (hb : S b) (hc : S c)
    (hab : eq a b) (hbc : eq b c) : eq a c := by
  rcases (heq a b ha hb).mp hab with rfl | ⟨hwidens, hsame⟩
  · exact hbc
  · rcases (heq b c hb hc).mp hbc with rfl | ⟨-, hsame'⟩
    · exact hab
    · exact (heq a c ha hc).mpr (.inr ⟨hwidens, htrans a b c hsame hsame'⟩)

/-- Among keys whose hash is their identity, widening must not identify any. -/
theorem lawful_widened_iff
    (heq : ∀ a b, S a → S b → (eq a b ↔ a = b ∨ widens a ∧ same a b))
    (htrans : ∀ a b c, same a b → same b c → same a c)
    (hhash : ∀ a b, S a → S b → hash a = hash b → a = b) :
    Lawful S eq hash ↔ ∀ a b, S a → S b → a ≠ b → widens a → ¬ same a b := by
  constructor
  · intro h a b ha hb hne hwidens hsame
    have hab : eq a b := (heq a b ha hb).mpr (.inr ⟨hwidens, hsame⟩)
    exact hne (hhash a b ha hb (h.hash a b ha hb hab))
  · intro h
    -- so equality is identity
    have hident : ∀ a b, S a → S b → eq a b → a = b := by
      intro a b ha hb hab
      rcases (heq a b ha hb).mp hab with rfl | ⟨hwidens, hsame⟩
      · rfl
      · exact Classical.byContradiction fun hne => h a b ha hb hne hwidens hsame
    exact
      { refl := widened_refl heq
        symm := by
          intro a b ha hb hab
          obtain rfl := hident a b ha hb hab
          exact hab
        trans := widened_trans heq htrans
        hash := by
          intro a b ha hb hab
          rw [hident a b ha hb hab] }

end Widened

end KeyEquality
