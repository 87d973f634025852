/-
# `Lib.KeyedTable` — a table whose keys are compared by a relation

A key is looked for with a relation that may hold between different keys, and an entry
that is found is used, whosever it is.  `Own k t` says that what is found for `k` in `t`
is an entry of `k` itself; then `find`, `store` and `erase` do what they do in a table that
compares keys by identity.
-/
import Mathlib.Data.List.Nodup

universe u v

namespace KeyedTable

variable {K : Type u} {V : Type v} (equal : K → K → Bool)

def find (k : K) : List (K × V) → Option V
  | [] => none
  | (k', v) :: t => if equal k' k then some v else find k t

/-- The value of the entry that is found, or a new entry. -/
def store (k : K) (v : V) : List (K × V) → List (K × V)
  | [] => [(k, v)]
  | (k', v') :: t => if equal k' k then (k', v) :: t else (k', v') :: store k v t

def erase (k : K) : List (K × V) → List (K × V)
  | [] => []
  | (k', v) :: t => if equal k' k then t else (k', v) :: erase k t

/-- No key but `k` is equal to `k`. -/
def Own (k : K) (t : List (K × V)) : Prop := ∀ e ∈ t, equal e.1 k = true → e.1 = k

instance [DecidableEq K] (k : K) (t : List (K × V)) : Decidable (Own equal k t) :=
  inferInstanceAs (Decidable (∀ e ∈ t, equal e.1 k = true → e.1 = k))

variable {equal} {k k' : K} {v v' : V} {t : List (K × V)}

theorem Own.tail {e : K × V} (h : Own equal k (e :: t)) : Own equal k t :=
  fun e' he' => h e' (List.mem_cons_of_mem _ he')

theorem notMem_of_nodup {e : K × V} (h : ((e :: t).map Prod.fst).Nodup) (v : V) :
    (e.1, v) ∉ t :=
  fun hmem => (List.nodup_cons.mp h).1 (List.mem_map.mpr ⟨(e.1, v), hmem, rfl⟩)

/-- What is not of the first key is in the rest. -/
theorem ne_and_mem_cons (h : (((k, v) :: t).map Prod.fst).Nodup) :
    k' ≠ k ∧ (k', v') ∈ (k, v) :: t ↔ (k', v') ∈ t := by
  rw [List.mem_cons, Prod.mk.injEq]
  constructor
  · rintro ⟨hne, ⟨rfl, -⟩ | hmem⟩
    · exact absurd rfl hne
    · exact hmem
  · intro hmem
    refine ⟨?_, Or.inr hmem⟩
    rintro rfl
    exact notMem_of_nodup h v' hmem

/-- An entry of another key stays. -/
theorem ne_and_mem_cons_of_ne {key : K} {value : V} (hother : key ≠ k) :
    k' ≠ k ∧ (k', v') ∈ (key, value) :: t ↔
      k' = key ∧ v' = value ∨ k' ≠ k ∧ (k', v') ∈ t := by
  rw [List.mem_cons, Prod.mk.injEq]
  constructor
  · rintro ⟨hne, heq | hmem⟩
    · exact Or.inl heq
    · exact Or.inr ⟨hne, hmem⟩
  · rintro (⟨rfl, rfl⟩ | ⟨hne, hmem⟩)
    · exact ⟨hother, Or.inl ⟨rfl, rfl⟩⟩
    · exact ⟨hne, Or.inr hmem⟩

theorem mem_of_find (hown : Own equal k t) (h : find equal k t = some v) : (k, v) ∈ t := by
  induction t with
  | nil => cases h
  | cons e t ih =>
      rw [find] at h
      split at h
      next heq =>
        cases h
        rw [← hown e List.mem_cons_self heq]
        exact List.mem_cons_self
      next => exact List.mem_cons_of_mem _ (ih hown.tail h)

section Nodup
variable (hrefl : equal k k = true) (hown : Own equal k t) (hnodup : (t.map Prod.fst).Nodup)

section
include hrefl hown hnodup

theorem find_of_mem (h : (k, v) ∈ t) : find equal k t = some v := by
  induction t with
  | nil => exact absurd h List.not_mem_nil
  | cons e t ih =>
      rw [find]
      rcases List.mem_cons.mp h with rfl | hmem
      · rw [if_pos hrefl]
      · have hne : ¬ equal e.1 k = true := by
          intro heq
          have hfresh := notMem_of_nodup hnodup v
          rw [hown e List.mem_cons_self heq] at hfresh
          exact hfresh hmem
        rw [if_neg hne]
        exact ih hown.tail (List.nodup_cons.mp hnodup).2 hmem

omit hrefl hown in
/-- A key has one entry. -/
theorem value_unique (h : (k, v) ∈ t) (h' : (k, v') ∈ t) : v = v' := by
  have heq := List.inj_on_of_nodup_map hnodup h h' rfl
  exact congrArg Prod.snd heq

theorem find_eq_some_iff : find equal k t = some v ↔ (k, v) ∈ t :=
  ⟨mem_of_find hown, find_of_mem hrefl hown hnodup⟩

theorem mem_store :
    (k', v') ∈ store equal k v t ↔ k' = k ∧ v' = v ∨ k' ≠ k ∧ (k', v') ∈ t := by
  induction t with
  | nil =>
      rw [store, List.mem_singleton, Prod.mk.injEq]
      exact (or_iff_left fun h => List.not_mem_nil h.2).symm
  | cons e t ih =>
      obtain ⟨key, value⟩ := e
      rw [store]
      split
      next heq =>
        cases hown (key, value) List.mem_cons_self heq
        rw [List.mem_cons, Prod.mk.injEq, ne_and_mem_cons hnodup]
      next hne =>
        have hother : key ≠ k := by
          rintro rfl
          exact hne hrefl
        rw [List.mem_cons, ih hown.tail (List.nodup_cons.mp hnodup).2, Prod.mk.injEq,
          ne_and_mem_cons_of_ne hother]
        exact or_left_comm

theorem nodup_store : ((store equal k v t).map Prod.fst).Nodup := by
  induction t with
  | nil => exact List.nodup_singleton k
  | cons e t ih =>
      obtain ⟨key, value⟩ := e
      have hfresh := notMem_of_nodup hnodup
      have hnodup' := (List.nodup_cons.mp hnodup).2
      rw [store]
      split
      next => exact hnodup
      next hne =>
        refine List.nodup_cons.mpr ⟨fun hmem => ?_, ih hown.tail hnodup'⟩
        obtain ⟨e, hstored, heq⟩ := List.mem_map.mp hmem
        have hkey : e.1 = key := heq
        rcases (mem_store hrefl hown.tail hnodup').mp hstored with ⟨hk, -⟩ | ⟨-, hold⟩
        · rw [← hkey, hk] at hne
          exact hne hrefl
        · rw [hkey] at hold
          exact hfresh e.2 hold

theorem mem_erase : (k', v') ∈ erase equal k t ↔ k' ≠ k ∧ (k', v') ∈ t := by
  induction t with
  | nil => exact iff_of_false List.not_mem_nil fun h => List.not_mem_nil h.2
  | cons e t ih =>
      obtain ⟨key, value⟩ := e
      rw [erase]
      split
      next heq =>
        cases hown (key, value) List.mem_cons_self heq
        exact (ne_and_mem_cons hnodup).symm
      next hne =>
        have hother : key ≠ k := by
          rintro rfl
          exact hne hrefl
        rw [List.mem_cons, ih hown.tail (List.nodup_cons.mp hnodup).2, Prod.mk.injEq,
          ne_and_mem_cons_of_ne hother]

end

include hnodup

theorem nodup_erase : ((erase equal k t).map Prod.fst).Nodup := by
  have hsub : (erase equal k t).Sublist t := by
    clear hnodup
    induction t with
    | nil => exact List.Sublist.refl _
    | cons e t ih =>
        rw [erase]
        split
        next => exact List.sublist_cons_self _ _
        next => exact ih.cons_cons _
  exact hnodup.sublist (hsub.map _)

end Nodup

end KeyedTable
