/-
# `Lib.OpenAddressing` — tables probed along per-key sequences, with tombstones

A table is a list of slots, each empty, a tombstone, or live with a payload.
Every payload has a key (`keyOf`) and every key a probe sequence of positions
(`probe`).  Nothing is assumed about the sequences beyond what each lemma says,
so the same development serves linear, quadratic or double hashing.

**The invariant** (`Valid`): live slots have distinct keys, and every live slot
lies on its own key's probe sequence with no empty slot before it.

**The search** (`search`): walk one probe sequence, remember the first
tombstone, stop at a hit or at the first empty slot.  If the sequence meets an
empty slot the search returns (`search_spec`), and what it returns is described
by `Outcome`: a hit with its position, or a position fit for insertion.

**The map a table stands for** (`Represents`): the partial map sending a key to
the payload stored under it.  It depends on which payloads are stored and on
nothing else, so what an operation does to the map is read off the membership
lemmas: storing and removing act as `Function.update` (`Represents.put`,
`.drop`), and tables holding the same payloads stand for the same map
(`Represents.congr`), which is what a rehash needs.
-/
import Mathlib.Data.List.Basic
import Mathlib.Data.Finset.Card
import Mathlib.Logic.Function.Basic

namespace OpenAddressing

universe u v

/-- One slot of the table. -/
inductive Slot (α : Type u) where
  | empty
  | tombstone
  | live (a : α)
  deriving DecidableEq, Repr

namespace Slot

variable {α : Type u}

def isLive : Slot α → Bool
  | .live _ => true
  | _ => false

def isTombstone : Slot α → Bool
  | .tombstone => true
  | _ => false

def isEmpty : Slot α → Bool
  | .empty => true
  | _ => false

@[simp] theorem isLive_live (a : α) : (live a).isLive = true := rfl
@[simp] theorem isLive_empty : (empty : Slot α).isLive = false := rfl
@[simp] theorem isLive_tombstone : (tombstone : Slot α).isLive = false := rfl
@[simp] theorem isTombstone_live (a : α) : (live a).isTombstone = false := rfl
@[simp] theorem isTombstone_empty : (empty : Slot α).isTombstone = false := rfl
@[simp] theorem isTombstone_tombstone : (tombstone : Slot α).isTombstone = true := rfl
@[simp] theorem isEmpty_live (a : α) : (live a).isEmpty = false := rfl
@[simp] theorem isEmpty_empty : (empty : Slot α).isEmpty = true := rfl
@[simp] theorem isEmpty_tombstone : (tombstone : Slot α).isEmpty = false := rfl

end Slot

variable {α : Type u} {κ : Type v}

/-! ## Counting -/

/-- The number of live slots. -/
def liveCount (s : List (Slot α)) : Nat := s.countP Slot.isLive

/-- The number of tombstones. -/
def tombCount (s : List (Slot α)) : Nat := s.countP Slot.isTombstone

@[simp] theorem liveCount_replicate_empty (n : Nat) :
    liveCount (List.replicate n (.empty : Slot α)) = 0 := by
  simp [liveCount, List.countP_replicate]

@[simp] theorem tombCount_replicate_empty (n : Nat) :
    tombCount (List.replicate n (.empty : Slot α)) = 0 := by
  simp [tombCount, List.countP_replicate]

theorem liveCount_le_length (s : List (Slot α)) : liveCount s ≤ s.length := List.countP_le_length

/-- Live slots, tombstones and empty slots make up the table. -/
theorem count_add_count (s : List (Slot α)) :
    liveCount s + tombCount s + s.countP Slot.isEmpty = s.length := by
  induction s with
  | nil => rfl
  | cons x s ih =>
      simp only [liveCount, tombCount, List.countP_cons, List.length_cons] at ih ⊢
      cases x <;> simp <;> omega

/-- A table with fewer live slots and tombstones than slots has an empty one. -/
theorem exists_empty {s : List (Slot α)} (h : liveCount s + tombCount s < s.length) :
    ∃ i < s.length, s[i]? = some .empty := by
  have hsum := count_add_count s
  have hpos : 0 < s.countP Slot.isEmpty := by omega
  obtain ⟨x, hx, hemp⟩ := List.countP_pos_iff.mp hpos
  obtain ⟨i, hi, rfl⟩ := List.mem_iff_getElem.mp hx
  refine ⟨i, hi, ?_⟩
  rw [List.getElem?_eq_getElem hi]
  cases hs : s[i] with
  | empty => rfl
  | tombstone => simp [hs] at hemp
  | live a => simp [hs] at hemp

section CountSet
variable {s : List (Slot α)} {i : Nat}

theorem liveCount_set_live_of_empty (h : s[i]? = some .empty) (a : α) :
    liveCount (s.set i (.live a)) = liveCount s + 1 := by
  obtain ⟨hi, hs⟩ := List.getElem?_eq_some_iff.mp h
  simp [liveCount, List.countP_set hi, hs]

theorem tombCount_set_live_of_empty (h : s[i]? = some .empty) (a : α) :
    tombCount (s.set i (.live a)) = tombCount s := by
  obtain ⟨hi, hs⟩ := List.getElem?_eq_some_iff.mp h
  simp [tombCount, List.countP_set hi, hs]

theorem liveCount_set_live_of_tombstone (h : s[i]? = some .tombstone) (a : α) :
    liveCount (s.set i (.live a)) = liveCount s + 1 := by
  obtain ⟨hi, hs⟩ := List.getElem?_eq_some_iff.mp h
  simp [liveCount, List.countP_set hi, hs]

theorem tombCount_pos (h : s[i]? = some .tombstone) : 0 < tombCount s :=
  List.countP_pos_iff.mpr ⟨.tombstone, List.mem_of_getElem? h, rfl⟩

theorem tombCount_set_live_of_tombstone (h : s[i]? = some .tombstone) (a : α) :
    tombCount (s.set i (.live a)) = tombCount s - 1 := by
  obtain ⟨hi, hs⟩ := List.getElem?_eq_some_iff.mp h
  simp [tombCount, List.countP_set hi, hs]

theorem liveCount_pos {a : α} (h : s[i]? = some (.live a)) : 0 < liveCount s :=
  List.countP_pos_iff.mpr ⟨.live a, List.mem_of_getElem? h, rfl⟩

theorem liveCount_set_tombstone {a : α} (h : s[i]? = some (.live a)) :
    liveCount (s.set i .tombstone) = liveCount s - 1 := by
  obtain ⟨hi, hs⟩ := List.getElem?_eq_some_iff.mp h
  simp [liveCount, List.countP_set hi, hs]

theorem tombCount_set_tombstone {a : α} (h : s[i]? = some (.live a)) :
    tombCount (s.set i .tombstone) = tombCount s + 1 := by
  obtain ⟨hi, hs⟩ := List.getElem?_eq_some_iff.mp h
  simp [tombCount, List.countP_set hi, hs]

theorem liveCount_set_live_of_live {a : α} (h : s[i]? = some (.live a)) (b : α) :
    liveCount (s.set i (.live b)) = liveCount s := by
  obtain ⟨hi, hs⟩ := List.getElem?_eq_some_iff.mp h
  have := liveCount_pos h
  simp only [liveCount] at this ⊢
  simp [List.countP_set hi, hs]
  omega

theorem tombCount_set_live_of_live {a : α} (h : s[i]? = some (.live a)) (b : α) :
    tombCount (s.set i (.live b)) = tombCount s := by
  obtain ⟨hi, hs⟩ := List.getElem?_eq_some_iff.mp h
  simp [tombCount, List.countP_set hi, hs]

end CountSet

/-! ## The invariant -/

/-- No empty slot among the first `n` positions of a probe sequence. -/
def ClearPath (s : List (Slot α)) (p : Nat → Nat) (n : Nat) : Prop :=
  ∀ j < n, s[p j]? ≠ some .empty

/-- Filling or burying a slot keeps every clear path clear. -/
theorem ClearPath.set {s : List (Slot α)} {p : Nat → Nat} {n : Nat}
    (h : ClearPath s p n) {i : Nat} {x : Slot α} (hx : x ≠ .empty) :
    ClearPath (s.set i x) p n := by
  intro j hj hemp
  rw [List.getElem?_set] at hemp
  split at hemp
  · split at hemp
    · exact hx (Option.some.inj hemp)
    · cases hemp
  · exact h j hj hemp

/-- Live slots have distinct keys, and each lies on its own probe sequence
before any empty slot. -/
structure Valid (keyOf : α → κ) (probe : κ → Nat → Nat) (s : List (Slot α)) : Prop where
  distinct : ∀ (i j : Nat) (a b : α), s[i]? = some (.live a) → s[j]? = some (.live b) →
    keyOf a = keyOf b → i = j
  onPath : ∀ (i : Nat) (a : α), s[i]? = some (.live a) →
    ∃ n, probe (keyOf a) n = i ∧ ClearPath s (probe (keyOf a)) n

section Invariant
variable {keyOf : α → κ} {probe : κ → Nat → Nat} {s : List (Slot α)}

theorem valid_replicate_empty (n : Nat) :
    Valid keyOf probe (List.replicate n (.empty : Slot α)) where
  distinct := by
    intro i j a b hi
    simp [List.getElem?_replicate] at hi
  onPath := by
    intro i a hi
    simp [List.getElem?_replicate] at hi

theorem getElem?_set_live {i j : Nat} {x : Slot α} {b : α}
    (h : (s.set i x)[j]? = some (.live b)) :
    (i = j ∧ x = .live b) ∨ (i ≠ j ∧ s[j]? = some (.live b)) := by
  rw [List.getElem?_set] at h
  split at h
  next hij =>
    split at h
    · exact Or.inl ⟨hij, Option.some.inj h⟩
    · cases h
  next hij => exact Or.inr ⟨hij, h⟩

/-- Inserting a fresh key at a slot of its own clear path. -/
theorem Valid.insert (hv : Valid keyOf probe s) {a : α} {n : Nat}
    (hclear : ClearPath s (probe (keyOf a)) n)
    (hnew : ∀ b, Slot.live b ∈ s → keyOf b ≠ keyOf a) :
    Valid keyOf probe (s.set (probe (keyOf a) n) (.live a)) where
  distinct := by
    intro i j b c hb hc hkey
    rcases getElem?_set_live hb with ⟨rfl, hb'⟩ | ⟨hi, hb'⟩ <;>
      rcases getElem?_set_live hc with ⟨hj, hc'⟩ | ⟨hj, hc'⟩
    · exact hj
    · cases hb'
      exact absurd hkey.symm (hnew c (List.mem_of_getElem? hc'))
    · cases hc'
      exact absurd hkey (hnew b (List.mem_of_getElem? hb'))
    · exact hv.distinct i j b c hb' hc' hkey
  onPath := by
    intro i b hb
    have hne : (.live a : Slot α) ≠ .empty := nofun
    rcases getElem?_set_live hb with ⟨hi, hb'⟩ | ⟨-, hb'⟩
    · cases hb'
      exact ⟨n, hi, hclear.set hne⟩
    · obtain ⟨m, hm, hp⟩ := hv.onPath i b hb'
      exact ⟨m, hm, hp.set hne⟩

/-- Burying a slot. -/
theorem Valid.erase (hv : Valid keyOf probe s) (i : Nat) :
    Valid keyOf probe (s.set i .tombstone) where
  distinct := by
    intro j k b c hb hc hkey
    rcases getElem?_set_live hb with ⟨-, hb'⟩ | ⟨-, hb'⟩
    · cases hb'
    · rcases getElem?_set_live hc with ⟨-, hc'⟩ | ⟨-, hc'⟩
      · cases hc'
      · exact hv.distinct j k b c hb' hc' hkey
  onPath := by
    intro j b hb
    rcases getElem?_set_live hb with ⟨-, hb'⟩ | ⟨-, hb'⟩
    · cases hb'
    · obtain ⟨m, hm, hp⟩ := hv.onPath j b hb'
      exact ⟨m, hm, hp.set nofun⟩

/-- Overwriting a payload by another one of the same key. -/
theorem Valid.replace (hv : Valid keyOf probe s) {i : Nat} {a b : α}
    (hi : s[i]? = some (.live a)) (hkey : keyOf b = keyOf a) :
    Valid keyOf probe (s.set i (.live b)) where
  distinct := by
    intro j k c d hc hd hcd
    rcases getElem?_set_live hc with ⟨rfl, hc'⟩ | ⟨hj, hc'⟩ <;>
      rcases getElem?_set_live hd with ⟨hk, hd'⟩ | ⟨hk, hd'⟩
    · exact hk
    · cases hc'
      exact hv.distinct i k a d hi hd' (hkey.symm.trans hcd)
    · cases hd'
      subst hk
      exact hv.distinct j i c a hc' hi (hcd.trans hkey)
    · exact hv.distinct j k c d hc' hd' hcd
  onPath := by
    intro j c hc
    rcases getElem?_set_live hc with ⟨rfl, hc'⟩ | ⟨-, hc'⟩
    · cases hc'
      obtain ⟨m, hm, hp⟩ := hv.onPath i a hi
      rw [hkey]
      exact ⟨m, hm, hp.set nofun⟩
    · obtain ⟨m, hm, hp⟩ := hv.onPath j c hc'
      exact ⟨m, hm, hp.set nofun⟩

end Invariant

/-! ## What is stored after one slot changed -/

section Stored
variable {keyOf : α → κ} {probe : κ → Nat → Nat} {s : List (Slot α)} {i : Nat}

theorem mem_set_live_of_free (hi : i < s.length) (hfree : ∀ b, s[i]? ≠ some (.live b))
    (a b : α) : Slot.live b ∈ s.set i (.live a) ↔ b = a ∨ Slot.live b ∈ s := by
  constructor
  · intro hb
    obtain ⟨j, hj⟩ := List.mem_iff_getElem?.mp hb
    rcases getElem?_set_live hj with ⟨-, h⟩ | ⟨-, h⟩
    · exact Or.inl (Slot.live.inj h).symm
    · exact Or.inr (List.mem_of_getElem? h)
  · rintro (rfl | hb)
    · exact List.mem_iff_getElem?.mpr ⟨i, List.getElem?_set_self hi⟩
    · obtain ⟨j, hj⟩ := List.mem_iff_getElem?.mp hb
      refine List.mem_iff_getElem?.mpr ⟨j, ?_⟩
      rw [List.getElem?_set_ne (by rintro rfl; exact hfree b hj)]
      exact hj

theorem Valid.mem_set_tombstone (hv : Valid keyOf probe s) {a : α}
    (hi : s[i]? = some (.live a)) (b : α) :
    Slot.live b ∈ s.set i .tombstone ↔ Slot.live b ∈ s ∧ keyOf b ≠ keyOf a := by
  constructor
  · intro hb
    obtain ⟨j, hj⟩ := List.mem_iff_getElem?.mp hb
    rcases getElem?_set_live hj with ⟨-, h⟩ | ⟨hij, h⟩
    · cases h
    · exact ⟨List.mem_of_getElem? h, fun hk => hij (hv.distinct j i b a h hi hk).symm⟩
  · rintro ⟨hb, hk⟩
    obtain ⟨j, hj⟩ := List.mem_iff_getElem?.mp hb
    refine List.mem_iff_getElem?.mpr ⟨j, ?_⟩
    rw [List.getElem?_set_ne ?_]
    · exact hj
    · rintro rfl
      rw [hi] at hj
      exact hk (congrArg keyOf (Slot.live.inj (Option.some.inj hj)).symm)

theorem Valid.mem_set_live (hv : Valid keyOf probe s) {a c : α}
    (hi : s[i]? = some (.live a)) (b : α) :
    Slot.live b ∈ s.set i (.live c) ↔ b = c ∨ (Slot.live b ∈ s ∧ keyOf b ≠ keyOf a) := by
  constructor
  · intro hb
    obtain ⟨j, hj⟩ := List.mem_iff_getElem?.mp hb
    rcases getElem?_set_live hj with ⟨-, h⟩ | ⟨hij, h⟩
    · exact Or.inl (Slot.live.inj h).symm
    · exact Or.inr ⟨List.mem_of_getElem? h,
        fun hk => hij (hv.distinct j i b a h hi hk).symm⟩
  · rintro (rfl | ⟨hb, hk⟩)
    · obtain ⟨hlt, -⟩ := List.getElem?_eq_some_iff.mp hi
      exact List.mem_iff_getElem?.mpr ⟨i, List.getElem?_set_self hlt⟩
    · obtain ⟨j, hj⟩ := List.mem_iff_getElem?.mp hb
      refine List.mem_iff_getElem?.mpr ⟨j, ?_⟩
      rw [List.getElem?_set_ne ?_]
      · exact hj
      · rintro rfl
        rw [hi] at hj
        exact hk (congrArg keyOf (Slot.live.inj (Option.some.inj hj)).symm)

end Stored

/-! ## The search -/

/-- Walk the probe sequence `p` from its `n`-th position: a hit, or the first
remembered tombstone (the empty slot itself when there was none). -/
def search (s : List (Slot α)) (p : Nat → Nat) (hit : α → Bool) :
    Nat → Nat → Option Nat → Option (Bool × Nat)
  | 0, _, _ => none
  | fuel + 1, n, tomb =>
      match s[p n]? with
      | none => none
      | some (.live a) =>
          if hit a then some (true, p n) else search s p hit fuel (n + 1) tomb
      | some .empty => some (false, tomb.getD (p n))
      | some .tombstone => search s p hit fuel (n + 1) (tomb.or (some (p n)))

/-- What a search can return. -/
inductive Outcome (s : List (Slot α)) (p : Nat → Nat) (hit : α → Bool) :
    Bool × Nat → Prop
  | found {n : Nat} {a : α} :
      s[p n]? = some (.live a) → hit a = true → Outcome s p hit (true, p n)
  | absent {n e : Nat} :
      n ≤ e → ClearPath s p e → s[p e]? = some .empty →
      (s[p n]? = some .empty ∨ s[p n]? = some .tombstone) →
      (∀ j < e, ∀ a, s[p j]? = some (.live a) → hit a = false) →
      Outcome s p hit (false, p n)

/-- The search returns within as many rounds as it takes to meet an empty slot,
and its answer is an `Outcome`.  The induction is on the rounds left; `tomb`
is the first tombstone among the positions already passed. -/
theorem search_spec {s : List (Slot α)} {p : Nat → Nat} {hit : α → Bool}
    (hrange : ∀ n, p n < s.length) :
    ∀ (fuel n : Nat) (tomb : Option Nat),
      (∃ e, n ≤ e ∧ e < n + fuel ∧ s[p e]? = some .empty) →
      ClearPath s p n →
      (∀ t, tomb = some t → ∃ j < n, p j = t ∧ s[p j]? = some .tombstone) →
      (∀ j < n, ∀ a, s[p j]? = some (.live a) → hit a = false) →
      ∃ r, search s p hit fuel n tomb = some r ∧ Outcome s p hit r := by
  intro fuel
  induction fuel with
  | zero =>
      rintro n tomb ⟨e, hle, hlt, -⟩ - - -
      omega
  | succ fuel ih =>
      intro n tomb ⟨e, hle, hlt, he⟩ hclear htomb hmiss
      obtain ⟨x, hx⟩ : ∃ x, s[p n]? = some x :=
        ⟨_, List.getElem?_eq_getElem (hrange n)⟩
      -- the witness of termination lies strictly ahead unless slot `n` is empty
      have ahead : x ≠ .empty → ∃ e, n + 1 ≤ e ∧ e < n + 1 + fuel ∧ s[p e]? = some .empty := by
        intro hne
        refine ⟨e, ?_, by omega, he⟩
        rcases Nat.lt_or_ge n e with h | h
        · exact h
        · obtain rfl : n = e := by omega
          rw [hx] at he
          exact absurd (Option.some.inj he) hne
      have clear' : x ≠ .empty → ClearPath s p (n + 1) := by
        intro hne j hj
        rcases Nat.lt_succ_iff_lt_or_eq.mp hj with h | rfl
        · exact hclear j h
        · rw [hx]
          exact fun h => hne (Option.some.inj h)
      cases x with
      | empty =>
          cases tomb with
          | none =>
              refine ⟨(false, p n), by simp [search, hx], ?_⟩
              exact .absent (Nat.le_refl n) hclear hx (Or.inl hx) hmiss
          | some t =>
              obtain ⟨j, hj, rfl, ht⟩ := htomb t rfl
              refine ⟨(false, p j), by simp [search, hx], ?_⟩
              exact .absent (Nat.le_of_lt hj) hclear hx (Or.inr ht) hmiss
      | tombstone =>
          obtain ⟨r, hr, hout⟩ := ih (n + 1) (tomb.or (some (p n))) (ahead nofun)
            (clear' nofun)
            (by
              intro t ht
              cases tomb with
              | none =>
                  simp only [Option.or_some, Option.getD_none, Option.some.injEq] at ht
                  exact ⟨n, Nat.lt_succ_self n, ht, hx⟩
              | some t' =>
                  obtain ⟨j, hj, hp, hs⟩ := htomb t' rfl
                  simp only [Option.or_some, Option.getD_some, Option.some.injEq] at ht
                  exact ⟨j, by omega, hp.trans ht, hs⟩)
            (by
              intro j hj a ha
              rcases Nat.lt_succ_iff_lt_or_eq.mp hj with h | rfl
              · exact hmiss j h a ha
              · rw [hx] at ha
                cases ha)
          exact ⟨r, by simpa [search, hx] using hr, hout⟩
      | live a =>
          cases hhit : hit a with
          | true =>
              exact ⟨(true, p n), by simp [search, hx, hhit], .found hx hhit⟩
          | false =>
              obtain ⟨r, hr, hout⟩ := ih (n + 1) tomb (ahead nofun) (clear' nofun)
                (fun t ht => by
                  obtain ⟨j, hj, h⟩ := htomb t ht
                  exact ⟨j, by omega, h⟩)
                (by
                  intro j hj b hb
                  rcases Nat.lt_succ_iff_lt_or_eq.mp hj with h | rfl
                  · exact hmiss j h b hb
                  · rw [hx] at hb
                    cases hb
                    exact hhit)
              exact ⟨r, by simpa [search, hx, hhit] using hr, hout⟩

/-- A search from the start of the sequence. -/
theorem search_returns {s : List (Slot α)} {p : Nat → Nat} (hit : α → Bool)
    (hrange : ∀ n, p n < s.length) {fuel : Nat}
    (he : ∃ e < fuel, s[p e]? = some .empty) :
    ∃ r, search s p hit fuel 0 none = some r ∧ Outcome s p hit r := by
  obtain ⟨e, hlt, he⟩ := he
  refine search_spec hrange fuel 0 none ⟨e, Nat.zero_le e, by omega, he⟩ ?_ ?_ ?_
  · exact fun j hj => absurd hj (Nat.not_lt_zero j)
  · exact fun t ht => nomatch ht
  · exact fun j hj => absurd hj (Nat.not_lt_zero j)

/-- A search that comes back empty-handed: it met an empty slot with no hit before it,
and settled on a slot of the way there that is free. -/
theorem Outcome.of_absent {s : List (Slot α)} {p : Nat → Nat} {hit : α → Bool} {i : Nat}
    (ho : Outcome s p hit (false, i)) :
    ∃ n e, n ≤ e ∧ p n = i ∧ ClearPath s p e ∧ s[p e]? = some .empty ∧
      (s[i]? = some .empty ∨ s[i]? = some .tombstone) ∧
      ∀ j < e, ∀ a, s[p j]? = some (.live a) → hit a = false := by
  generalize hr : (false, i) = r at ho
  cases ho with
  | found => cases hr
  | @absent n e hle hclear hempty hfree hmiss =>
      obtain ⟨rfl⟩ : i = p n := (Prod.mk.inj hr).2
      exact ⟨n, e, hle, rfl, hclear, hempty, hfree, hmiss⟩

/-- In a valid table a search for a key that comes back empty-handed means the
key is not stored. -/
theorem Outcome.not_stored {keyOf : α → κ} {probe : κ → Nat → Nat} {s : List (Slot α)}
    {k : κ} {hit : α → Bool} (hhit : ∀ a, keyOf a = k → hit a = true)
    (hv : Valid keyOf probe s) {i : Nat} (ho : Outcome s (probe k) hit (false, i)) :
    ∀ a, Slot.live a ∈ s → keyOf a ≠ k := by
  intro a ha hk
  subst hk
  obtain ⟨n, e, -, -, -, hemp, -, hmiss⟩ := ho.of_absent
  obtain ⟨j, hj⟩ := List.mem_iff_getElem?.mp ha
  obtain ⟨m, rfl, hclear⟩ := hv.onPath j a hj
  rcases Nat.lt_trichotomy m e with h | rfl | h
  · have hmissed := hmiss m h a hj
    rw [hhit a rfl] at hmissed
    cases hmissed
  · rw [hemp] at hj
    cases hj
  · exact hclear e h hemp

/-! ## The map a table stands for -/

/-- `s` stores exactly the payloads of the partial map `m`. -/
def Represents (keyOf : α → κ) (s : List (Slot α)) (m : κ → Option α) : Prop :=
  ∀ k a, m k = some a ↔ (Slot.live a ∈ s ∧ keyOf a = k)

section Map
variable {keyOf : α → κ} {probe : κ → Nat → Nat} {s : List (Slot α)} {m : κ → Option α}

/-- The map depends on the stored payloads only. -/
theorem Represents.congr {s' : List (Slot α)} (h : Represents keyOf s m)
    (hs : ∀ a, Slot.live a ∈ s' ↔ Slot.live a ∈ s) : Represents keyOf s' m :=
  fun k a => (h k a).trans (and_congr_left' (hs a).symm)

theorem Represents.eq_none {k : κ} (h : Represents keyOf s m) :
    m k = none ↔ ∀ a, Slot.live a ∈ s → keyOf a ≠ k := by
  constructor
  · intro hk a ha hak
    have := (h k a).mpr ⟨ha, hak⟩
    rw [hk] at this
    cases this
  · intro hno
    cases hm : m k with
    | none => rfl
    | some a =>
        obtain ⟨ha, hak⟩ := (h k a).mp hm
        exact absurd hak (hno a ha)

/-- Storing `a` in place of whatever its key had. -/
theorem Represents.put [DecidableEq κ] {s' : List (Slot α)} (h : Represents keyOf s m) {a : α}
    (hs : ∀ b, Slot.live b ∈ s' ↔ b = a ∨ (Slot.live b ∈ s ∧ keyOf b ≠ keyOf a)) :
    Represents keyOf s' (Function.update m (keyOf a) (some a)) := by
  intro k b
  rw [hs]
  by_cases hk : k = keyOf a
  · subst hk
    rw [Function.update_self]
    constructor
    · intro hab
      cases hab
      exact ⟨Or.inl rfl, rfl⟩
    · rintro ⟨rfl | ⟨_, hne⟩, hb⟩
      · rfl
      · exact absurd hb hne
  · rw [Function.update_of_ne hk, h k b]
    constructor
    · rintro ⟨hb, rfl⟩
      exact ⟨Or.inr ⟨hb, hk⟩, rfl⟩
    · rintro ⟨rfl | ⟨hb, _⟩, hb'⟩
      · exact absurd hb'.symm hk
      · exact ⟨hb, hb'⟩

/-- Removing what is stored under `k₀`. -/
theorem Represents.drop [DecidableEq κ] {s' : List (Slot α)} (h : Represents keyOf s m) {k₀ : κ}
    (hs : ∀ b, Slot.live b ∈ s' ↔ Slot.live b ∈ s ∧ keyOf b ≠ k₀) :
    Represents keyOf s' (Function.update m k₀ none) := by
  intro k b
  rw [hs]
  by_cases hk : k = k₀
  · subst hk
    rw [Function.update_self]
    constructor
    · exact fun hab => nomatch hab
    · exact fun ⟨⟨_, hne⟩, hkey⟩ => absurd hkey hne
  · rw [Function.update_of_ne hk, h k b]
    constructor
    · rintro ⟨hb, rfl⟩
      exact ⟨⟨hb, hk⟩, rfl⟩
    · exact fun ⟨⟨hb, _⟩, hkey⟩ => ⟨hb, hkey⟩

/-- A valid table has as many live slots as its map has keys. -/
theorem Represents.liveCount_eq [DecidableEq κ] (h : Represents keyOf s m)
    (hv : Valid keyOf probe s) {dom : Finset κ} (hdom : ∀ k, k ∈ dom ↔ ∃ a, m k = some a) :
    liveCount s = dom.card := by
  let key : Slot α → Option κ := fun x =>
    match x with
    | .live a => some (keyOf a)
    | _ => none
  have hlen : ∀ t : List (Slot α), (t.filterMap key).length = liveCount t := by
    intro t
    induction t with
    | nil => rfl
    | cons x t ih =>
        cases x <;> simp [key, liveCount, List.countP_cons] at ih ⊢ <;> omega
  have hnodup : (s.filterMap key).Nodup := by
    rw [List.nodup_iff_pairwise_ne, List.pairwise_filterMap, List.pairwise_iff_getElem]
    intro i j hi hj hij k hk k' hk' heq
    subst heq
    -- two positions with one key would be the same position
    cases hsi : s[i] with
    | live a =>
        cases hsj : s[j] with
        | live b =>
            have ha : s[i]? = some (.live a) := by rw [List.getElem?_eq_getElem hi, hsi]
            have hb : s[j]? = some (.live b) := by rw [List.getElem?_eq_getElem hj, hsj]
            rw [hsi] at hk
            rw [hsj] at hk'
            have := hv.distinct i j a b ha hb (Option.some.inj (hk.trans hk'.symm))
            omega
        | empty => simp [hsj, key] at hk'
        | tombstone => simp [hsj, key] at hk'
    | empty => simp [hsi, key] at hk
    | tombstone => simp [hsi, key] at hk
  have hset : (s.filterMap key).toFinset = dom := by
    ext k
    rw [List.mem_toFinset, List.mem_filterMap, hdom]
    constructor
    · rintro ⟨x, hx, hk⟩
      cases x with
      | live a => exact ⟨a, (h k a).mpr ⟨hx, Option.some.inj hk⟩⟩
      | empty => cases hk
      | tombstone => cases hk
    · rintro ⟨a, ha⟩
      obtain ⟨hmem, hk⟩ := (h k a).mp ha
      exact ⟨.live a, hmem, congrArg some hk⟩
  rw [← hset, List.toFinset_card_of_nodup hnodup, hlen]

end Map

end OpenAddressing
