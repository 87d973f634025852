/-
# `Realm.IndexSetMerge` — what the loops over two sets build

The loop of `insert_at(positions)`, `shift_for_insert_at(values)` and
`erase_at(positions)` has one rule (`merge_spec`): what a round keeps of the indices
that are still to come, of what was built and of the shift, the loop keeps, and it ends
where one of the sets does.  From it each of the three does with the whole set of
positions what inserting, making room for or erasing them does.
-/
import CrashRealm.Realm.IndexSetBuilder
import CrashRealm.Realm.IndexSetShift

namespace Realm

open Rx (Fault ok_bind)
open RangeList (Range Separated Below Above toSet total indices)
open Positions (below spread rank insertAll moveAll eraseAll)

variable {b : Build}

namespace IndexSet

open ChunkedRangeVector
open IndexIterator (At)
open ChunkedRangeVectorBuilder (Built)

variable {v p : IndexSet} {index : Nat}

theorem finite_members (v : IndexSet) : (members v).Finite := Positions.finite_toSet _

/-- The indices of a set, in order. -/
theorem mem_indices {x : Nat} : x ∈ indices (ranges v) ↔ x ∈ members v := RangeList.mem_indices

theorem indices_rounds (v : IndexSet) : (indices (ranges v)).length < indexRounds v := by
  rw [RangeList.length_indices, indexRounds]
  omega

/-! ## `add(other)` -/

theorem addIndexes_spec {other : IndexSet} (hother : Valid b other) : ∀ {l : List Nat} {k : Nat}
    {v : IndexSet} {it : Iterator} {A B : List Range} {at₂ : IndexIterator}, Valid b v →
    Splits v it A B → (∀ i ∈ l, Below A i) → l.Pairwise (· < ·) → At other at₂ l → l.length < k →
    ∃ v', addIndexes b other k v it at₂ = .ok v' ∧ Valid b v' ∧
      members v' = members v ∪ {i | i ∈ l} := by
  intro l
  induction l with
  | nil =>
      intro k v it A B at₂ hv _ _ _ hat hk
      obtain ⟨k, rfl⟩ := Nat.exists_eq_succ_of_ne_zero (Nat.ne_of_gt hk)
      rw [addIndexes, if_pos hat.atEnd_nil]
      refine ⟨v, rfl, hv, ?_⟩
      simp
  | cons i l ih =>
      intro k v it A B at₂ hv h hA hsorted hat hk
      obtain ⟨k, rfl⟩ := Nat.exists_eq_succ_of_ne_zero (Nat.ne_of_gt (Nat.zero_lt_of_lt hk))
      obtain ⟨hend, hderef, at₃, hnext, hat'⟩ := hat.cons hother
      obtain ⟨found, A₁, B₁, hfind, hsplits, hA₁, hB₁⟩ := find_spec hv h (hA i List.mem_cons_self)
      obtain ⟨v₁, it₁, A₂, r, B₂, hadd, ht₁, hsplits₁, hsep₁, hr, hA₂, hmembers⟩ :=
        doAdd_spec hv.tidy hsplits (hsplits.ranges_eq ▸ hv.separated) hA₁ hB₁
      obtain ⟨hi, hl⟩ := List.pairwise_cons.mp hsorted
      obtain ⟨v', hrest, hv', hmembers'⟩ := ih (.of_splits ht₁ hsplits₁ hsep₁) hsplits₁
        (fun j hj => hA₂.mono (hi j hj).le) hl hat' (Nat.lt_of_succ_lt_succ hk)
      rw [addIndexes, hend, if_neg Bool.false_ne_true, hderef, ok_bind, hfind, ok_bind, hadd, ok_bind]
      simp only
      rw [hnext, ok_bind]
      refine ⟨v', hrest, hv', ?_⟩
      rw [hmembers', hmembers]
      ext x
      simp only [Set.mem_union, Set.mem_insert_iff, Set.mem_ofPred_eq, List.mem_cons]
      grind

theorem addAll_spec {other : IndexSet} (hv : Valid b v) (hother : Valid b other) :
    ∃ v', addAll b v other = .ok v' ∧ Valid b v' ∧ members v' = members v ∪ members other := by
  obtain ⟨v', hadd, hv', hmembers⟩ := addIndexes_spec hother hv (splits_cbegin hv.tidy)
    (fun _ _ _ hr => absurd hr List.not_mem_nil) hother.separated.indices_sorted (.start hother)
    (indices_rounds other)
  refine ⟨v', hadd, hv', ?_⟩
  rw [hmembers]
  congr 1
  ext x
  exact mem_indices

/-! ## The rules for the loops -/

theorem nextIf_spec (hv : Valid b v) {it : IndexIterator} {i : Nat} {l : List Nat}
    (h : At v it (i :: l)) (next : Bool) :
    ∃ it', nextIf v it next = .ok it' ∧ At v it' (if next then l else i :: l) := by
  obtain ⟨-, -, it', hnext, h'⟩ := h.cons hv
  cases next with
  | true => exact ⟨it', hnext, h'⟩
  | false => exact ⟨it, rfl, h⟩

/-- What a round keeps, the loop keeps; each round goes on with one of the sets at least. -/
theorem merge_spec {v₁ v₂ : IndexSet} (round : Nat → Nat → Nat → Round)
    (I : List Nat → List Nat → ChunkedRangeVectorBuilder → Nat → Prop)
    (hv₁ : Valid b v₁) (hv₂ : Valid b v₂)
    (hgoes : ∀ i₁ i₂ shift, (round i₁ i₂ shift).next₁ = true ∨ (round i₁ i₂ shift).next₂ = true)
    (hround : ∀ {i₁ i₂ shift : Nat} {l₁ l₂ : List Nat} {builder : ChunkedRangeVectorBuilder},
      I (i₁ :: l₁) (i₂ :: l₂) builder shift →
      ∃ builder', pushSome b builder (round i₁ i₂ shift).push = .ok builder' ∧
        I (if (round i₁ i₂ shift).next₁ then l₁ else i₁ :: l₁)
          (if (round i₁ i₂ shift).next₂ then l₂ else i₂ :: l₂) builder' (round i₁ i₂ shift).shift) :
    ∀ {k shift : Nat} {l₁ l₂ : List Nat} {it₁ it₂ : IndexIterator}
      {builder : ChunkedRangeVectorBuilder}, At v₁ it₁ l₁ → At v₂ it₂ l₂ → I l₁ l₂ builder shift →
      l₁.length + l₂.length < k →
      ∃ it₁' it₂' l₁' l₂' builder' shift', merge b round v₁ v₂ k it₁ it₂ builder shift =
          .ok (it₁', it₂', builder', shift') ∧ At v₁ it₁' l₁' ∧ At v₂ it₂' l₂' ∧
        I l₁' l₂' builder' shift' ∧ (l₁' = [] ∨ l₂' = []) ∧ l₁'.length ≤ l₁.length ∧
        l₂'.length ≤ l₂.length := by
  intro k
  induction k with
  | zero => exact fun _ _ _ hk => absurd hk (Nat.not_lt_zero _)
  | succ k ih =>
      intro shift l₁ l₂ it₁ it₂ builder h₁ h₂ hI hk
      rw [merge]
      cases l₁ with
      | nil =>
          rw [if_pos (.inl h₁.atEnd_nil)]
          exact ⟨_, _, _, _, _, _, rfl, h₁, h₂, hI, .inl rfl, Nat.le_refl _, Nat.le_refl _⟩
      | cons i₁ l₁ =>
          cases l₂ with
          | nil =>
              rw [if_pos (.inr h₂.atEnd_nil)]
              exact ⟨_, _, _, _, _, _, rfl, h₁, h₂, hI, .inr rfl, Nat.le_refl _, Nat.le_refl _⟩
          | cons i₂ l₂ =>
              obtain ⟨hend₁, hderef₁, -⟩ := h₁.cons hv₁
              obtain ⟨hend₂, hderef₂, -⟩ := h₂.cons hv₂
              obtain ⟨builder', hpush, hI'⟩ := hround hI
              obtain ⟨it₁', hnext₁, h₁'⟩ := nextIf_spec hv₁ h₁ (round i₁ i₂ shift).next₁
              obtain ⟨it₂', hnext₂, h₂'⟩ := nextIf_spec hv₂ h₂ (round i₁ i₂ shift).next₂
              have hshorter : ∀ (next : Bool) (i : Nat) (l : List Nat),
                  (if next then l else i :: l).length ≤ (i :: l).length ∧
                    (next = true → (if next then l else i :: l).length < (i :: l).length) := by
                intro next i l
                cases next with
                | true => simp
                | false => simp
              have hl₁ := hshorter (round i₁ i₂ shift).next₁ i₁ l₁
              have hl₂ := hshorter (round i₁ i₂ shift).next₂ i₂ l₂
              have hk' : (if (round i₁ i₂ shift).next₁ then l₁ else i₁ :: l₁).length +
                  (if (round i₁ i₂ shift).next₂ then l₂ else i₂ :: l₂).length < k := by
                rcases hgoes i₁ i₂ shift with hnext | hnext
                · have := hl₁.2 hnext
                  omega
                · have := hl₂.2 hnext
                  omega
              obtain ⟨a, c, l₁', l₂', builder'', shift', hmerge, ha, hc, hI'', hdone, hle₁, hle₂⟩ :=
                ih h₁' h₂' hI' hk'
              rw [if_neg (by simp [hend₁, hend₂]), hderef₁, ok_bind, hderef₂, ok_bind]
              simp only
              rw [hpush, ok_bind, hnext₁, ok_bind, hnext₂, ok_bind]
              exact ⟨a, c, l₁', l₂', builder'', shift', hmerge, ha, hc, hI'', hdone,
                hle₁.trans hl₁.1, hle₂.trans hl₂.1⟩

/-- What comes after all that was built is built behind it. -/
theorem pushRest_spec (f : Nat → Nat) (hv : Valid b v) : ∀ {l : List Nat} {k bound : Nat}
    {it : IndexIterator} {builder : ChunkedRangeVectorBuilder} {S : Set Nat}, At v it l →
    Built b builder S bound → l.Pairwise (fun i j => f i < f j) → (∀ i ∈ l, bound ≤ f i) →
    l.length < k →
    ∃ builder' bound', pushRest b f v k it builder = .ok builder' ∧
      Built b builder' (S ∪ Set.image f {i | i ∈ l}) bound' := by
  intro l
  induction l with
  | nil =>
      intro k bound it builder S hat hbuilt _ _ hk
      obtain ⟨k, rfl⟩ := Nat.exists_eq_succ_of_ne_zero (Nat.ne_of_gt hk)
      rw [pushRest, if_pos hat.atEnd_nil]
      refine ⟨builder, bound, rfl, ?_⟩
      simpa using hbuilt
  | cons i l ih =>
      intro k bound it builder S hat hbuilt hsorted hbound hk
      obtain ⟨k, rfl⟩ := Nat.exists_eq_succ_of_ne_zero (Nat.ne_of_gt (Nat.zero_lt_of_lt hk))
      obtain ⟨hend, hderef, it', hnext, hat'⟩ := hat.cons hv
      obtain ⟨hi, hl⟩ := List.pairwise_cons.mp hsorted
      obtain ⟨builder', hpush, hbuilt'⟩ := hbuilt.push (hbound i List.mem_cons_self)
      obtain ⟨builder'', bound', hrest, hbuilt''⟩ := ih hat' hbuilt' hl (fun j hj => hi j hj)
        (Nat.lt_of_succ_lt_succ hk)
      rw [pushRest, hend, if_neg Bool.false_ne_true, hderef, ok_bind, hpush, ok_bind, hnext, ok_bind]
      refine ⟨builder'', bound', hrest, ?_⟩
      have hset : Insert.insert (f i) S ∪ Set.image f {j | j ∈ l} =
          S ∪ Set.image f {j | j ∈ i :: l} := by
        ext x
        simp only [Set.mem_union, Set.mem_insert_iff, Set.mem_image, Set.mem_ofPred_eq, List.mem_cons]
        grind
      rw [← hset]
      exact hbuilt''

/-! ## `insert_at(positions)` -/

/-- What is kept: the positions that were passed lie before what is still to come, the
builder holds what was passed, and the rest will make up the whole. -/
structure Inserting (b : Build) (p : IndexSet) (whole : Set Nat) (rest : List Nat → Set Nat)
    (l₁ l₂ : List Nat) (builder : ChunkedRangeVectorBuilder) (shift : Nat) : Prop where
  sorted : l₁.Pairwise (· < ·)
  passed : ∃ d, indices (ranges p) = d ++ l₂ ∧ shift = d.length ∧ ∀ i ∈ l₁, ∀ q ∈ d, q < i + shift
  built : ∃ S bound, Built b builder S bound ∧ (∀ i ∈ l₁, bound ≤ i + shift) ∧
    (∀ q ∈ l₂, bound ≤ q) ∧ S ∪ Set.image (spread (members p)) {i | i ∈ l₁} ∪ rest l₂ = whole

variable {whole : Set Nat} {rest : List Nat → Set Nat} {i₁ i₂ shift : Nat} {l₁ l₂ : List Nat}
  {builder : ChunkedRangeVectorBuilder}

theorem members_eq_list {d l : List Nat} (h : indices (ranges p) = d ++ l) :
    members p = {z | z ∈ d ++ l} := by
  ext z
  rw [← mem_indices, h]
  exact Iff.rfl

/-- Where an index goes that lies before all positions still to come. -/
theorem Inserting.spread_eq (hp : Valid b p) (h : Inserting b p whole rest (i₁ :: l₁) l₂ builder shift)
    (hlt : ∀ q ∈ l₂, i₁ + shift < q) : spread (members p) i₁ = i₁ + shift := by
  obtain ⟨d, hd, rfl, hpassed⟩ := h.passed
  rw [members_eq_list hd]
  exact Positions.spread_list (hd ▸ hp.separated.indices_sorted) (hpassed i₁ List.mem_cons_self) hlt

/-- The index comes before the next position. -/
theorem Inserting.push_index (hp : Valid b p)
    (h : Inserting b p whole rest (i₁ :: l₁) (i₂ :: l₂) builder shift) (hlt : i₁ + shift < i₂) :
    ∃ builder', builder.push b (i₁ + shift) = .ok builder' ∧
      Inserting b p whole rest l₁ (i₂ :: l₂) builder' shift := by
  obtain ⟨hi₁, hl₁⟩ := List.pairwise_cons.mp h.sorted
  have hsorted : (i₂ :: l₂).Pairwise (· < ·) := by
    obtain ⟨d, hd, -⟩ := h.passed
    have hall := hp.separated.indices_sorted
    rw [hd] at hall
    exact (List.pairwise_append.mp hall).2.1
  have hbehind : ∀ q ∈ i₂ :: l₂, i₁ + shift < q := by
    intro q hq
    rcases List.mem_cons.mp hq with rfl | hq
    · exact hlt
    · have := (List.pairwise_cons.mp hsorted).1 q hq
      omega
  have hspread := h.spread_eq hp hbehind
  obtain ⟨S, bound, hbuilt, hb₁, hb₂, hwhole⟩ := h.built
  obtain ⟨builder', hpush, hbuilt'⟩ := hbuilt.push (hb₁ i₁ List.mem_cons_self)
  obtain ⟨d, hd, hshift, hpassed⟩ := h.passed
  refine ⟨builder', hpush, hl₁, ⟨d, hd, hshift, fun i hi => hpassed i (List.mem_cons_of_mem _ hi)⟩,
    _, _, hbuilt', fun i hi => ?_, fun q hq => hbehind q hq, ?_⟩
  · have := hi₁ i hi
    omega
  · rw [← hwhole, ← hspread]
    ext x
    simp only [Set.mem_union, Set.mem_insert_iff, Set.mem_image, Set.mem_ofPred_eq, List.mem_cons]
    grind

/-- The position comes first, and shifts all indices by one more. -/
theorem Inserting.pass_position (h : Inserting b p whole rest (i₁ :: l₁) (i₂ :: l₂) builder shift)
    (hge : i₂ ≤ i₁ + shift) : ∃ d, indices (ranges p) = d ++ l₂ ∧ shift + 1 = d.length ∧
      ∀ i ∈ i₁ :: l₁, ∀ q ∈ d, q < i + (shift + 1) := by
  obtain ⟨hi₁, -⟩ := List.pairwise_cons.mp h.sorted
  obtain ⟨d, hd, rfl, hpassed⟩ := h.passed
  refine ⟨d ++ [i₂], by rw [hd, List.append_assoc]; rfl, by simp, fun i hi q hq => ?_⟩
  have hle : i₁ ≤ i := by
    rcases List.mem_cons.mp hi with rfl | hi
    · exact Nat.le_refl _
    · exact (hi₁ i hi).le
  rcases List.mem_append.mp hq with hq | hq
  · have := hpassed i hi q hq
    omega
  · rw [List.mem_singleton.mp hq]
    omega

/-- What is left of the indices goes behind all positions. -/
theorem Inserting.indices_left (hv : Valid b v) (hp : Valid b p)
    (h : Inserting b p whole rest l₁ [] builder shift) {it : IndexIterator} (hat : At v it l₁)
    (hlength : l₁.length < indexRounds v) (hrest : rest [] = ∅) :
    ∃ builder' bound', pushRest b (fun i => i + shift) v (indexRounds v) it builder = .ok builder' ∧
      Built b builder' whole bound' := by
  obtain ⟨S, bound, hbuilt, hb₁, -, hwhole⟩ := h.built
  obtain ⟨builder', bound', hpush, hbuilt'⟩ := pushRest_spec (fun i => i + shift) hv hat hbuilt
    (h.sorted.imp fun hlt => Nat.add_lt_add_right hlt shift) hb₁ hlength
  refine ⟨builder', bound', hpush, ?_⟩
  have hspread : ∀ i ∈ l₁, spread (members p) i = i + shift := by
    obtain ⟨d, hd, hshift, hpassed⟩ := h.passed
    intro i hi
    rw [members_eq_list hd, hshift]
    refine Positions.spread_list (hd ▸ hp.separated.indices_sorted) ?_ fun _ hq =>
      absurd hq List.not_mem_nil
    rw [← hshift]
    exact hpassed i hi
  have himage : Set.image (fun i => i + shift) {i | i ∈ l₁} =
      Set.image (spread (members p)) {i | i ∈ l₁} :=
    Set.image_congr fun i hi => (hspread i hi).symm
  rw [himage] at hbuilt'
  rw [hrest, Set.union_empty] at hwhole
  rw [← hwhole]
  exact hbuilt'

/-- Where the loops start. -/
theorem Inserting.start (hv : Valid b v) (hwhole :
    Set.image (spread (members p)) (members v) ∪ rest (indices (ranges p)) = whole) :
    Inserting b p whole rest (indices (ranges v)) (indices (ranges p)) (.make b v) 0 := by
  refine ⟨hv.separated.indices_sorted, ⟨[], rfl, rfl, fun _ _ _ hq => absurd hq List.not_mem_nil⟩,
    ∅, 0, ChunkedRangeVectorBuilder.built_make b v, fun _ _ => Nat.zero_le _,
    fun _ _ => Nat.zero_le _, ?_⟩
  rw [Set.empty_union, ← hwhole]
  congr 2
  ext x
  exact mem_indices

theorem insertAtAll_spec (hv : Valid b v) (hp : Valid b p) :
    ∃ v', insertAtAll b v p = .ok v' ∧ Valid b v' ∧
      members v' = insertAll (members v) (members p) := by
  rw [insertAtAll]
  split
  next hnil =>
    refine ⟨v, rfl, hv, ?_⟩
    ext x
    simp [hnil, members, insertAll, moveAll]
  next =>
    split
    next hnil =>
      refine ⟨p, rfl, hp, ?_⟩
      simp [hnil, members, insertAll, moveAll]
    next =>
      have hstart : Inserting b p (insertAll (members v) (members p)) (fun l => {q | q ∈ l})
          (indices (ranges v)) (indices (ranges p)) (.make b v) 0 := by
        refine .start hv ?_
        rw [insertAll, moveAll]
        congr 1
        ext x
        exact mem_indices
      have hrounds := indices_rounds v
      have hrounds' := indices_rounds p
      obtain ⟨it₁, it₂, l₁, l₂, builder, shift, hmerge, h₁, h₂, hI, hdone, hle₁, hle₂⟩ :=
        merge_spec insertRound
          (Inserting b p (insertAll (members v) (members p)) fun l => {q | q ∈ l}) hv hp
          (fun i₁ i₂ shift => by
            rw [insertRound]
            split
            · exact .inl rfl
            · exact .inr rfl)
          (fun {i₁ i₂ shift l₁ l₂ builder} hI => by
            rw [insertRound]
            split
            next hlt => exact hI.push_index hp hlt
            next hge =>
              have hge : i₂ ≤ i₁ + shift := Nat.le_of_not_lt hge
              obtain ⟨S, bound, hbuilt, hb₁, hb₂, hwhole⟩ := hI.built
              obtain ⟨builder', hpush, hbuilt'⟩ := hbuilt.push (hb₂ i₂ List.mem_cons_self)
              obtain ⟨d, hd, hshift, hpassed⟩ := hI.pass_position hge
              refine ⟨builder', hpush, hI.sorted, ⟨d, hd, hshift, hpassed⟩, _, _, hbuilt', ?_, ?_, ?_⟩
              · intro i hi
                have hle : i₁ ≤ i := by
                  rcases List.mem_cons.mp hi with rfl | hi
                  · exact Nat.le_refl _
                  · exact ((List.pairwise_cons.mp hI.sorted).1 i hi).le
                show i₂ + 1 ≤ i + (shift + 1)
                omega
              · intro q hq
                obtain ⟨d', hd', -⟩ := hI.passed
                have hall := hp.separated.indices_sorted
                rw [hd'] at hall
                exact (List.pairwise_cons.mp (List.pairwise_append.mp hall).2.1).1 q hq
              · rw [← hwhole]
                ext x
                simp only [Set.mem_union, Set.mem_insert_iff, Set.mem_image, Set.mem_ofPred_eq,
                  List.mem_cons]
                grind)
          (.start hv) (.start hp) hstart (Nat.add_lt_add hrounds hrounds')
      rw [hmerge, ok_bind]
      simp only
      rcases hdone with rfl | rfl
      · -- the indices are all built, and the other positions follow
        obtain ⟨S, bound, hbuilt, -, hb₂, hwhole⟩ := hI.built
        have hsorted : l₂.Pairwise (· < ·) := by
          obtain ⟨d, hd, -⟩ := hI.passed
          have hall := hp.separated.indices_sorted
          rw [hd] at hall
          exact (List.pairwise_append.mp hall).2.1
        obtain ⟨builder₁, bound₁, hpush₁, hbuilt₁⟩ := pushRest_spec (fun i => i + shift) hv h₁ hbuilt
          List.Pairwise.nil (fun _ hi => absurd hi List.not_mem_nil)
          (Nat.lt_of_le_of_lt hle₁ hrounds)
        have hsame : builder₁ = builder := by
          rw [indexRounds, pushRest, if_pos h₁.atEnd_nil] at hpush₁
          exact (Except.ok.inj hpush₁).symm
        subst hsame
        obtain ⟨builder₂, bound₂, hpush₂, hbuilt₂⟩ := pushRest_spec (fun i => i) hp h₂ hbuilt hsorted hb₂
          (Nat.lt_of_le_of_lt hle₂ hrounds')
        obtain ⟨hvalid, hmembers⟩ := hbuilt₂.finalize
        rw [hpush₁, ok_bind, hpush₂, ok_bind]
        refine ⟨_, rfl, hvalid, ?_⟩
        rw [hmembers, ← hwhole]
        simp
      · -- the positions are all built, and the other indices follow
        obtain ⟨builder₁, bound₁, hpush₁, hbuilt₁⟩ := hI.indices_left hv hp h₁
          (Nat.lt_of_le_of_lt hle₁ hrounds) (by simp)
        have hnone : pushRest b (fun i => i) p (indexRounds p) it₂ builder₁ = .ok builder₁ := by
          rw [indexRounds, pushRest, if_pos h₂.atEnd_nil]
        obtain ⟨hvalid, hmembers⟩ := hbuilt₁.finalize
        rw [hpush₁, ok_bind, hnone, ok_bind]
        exact ⟨_, rfl, hvalid, hmembers⟩

/-! ## `shift_for_insert_at(values)` -/

theorem front_le (hv : Valid b v) {front : Chunk} (hfront : v.head? = some front) :
    ∀ x ∈ members v, front.begin ≤ x := by
  obtain ⟨rest, rfl⟩ : ∃ rest, v = front :: rest := List.head?_eq_some_iff.mp hfront
  have htidy := hv.tidy front List.mem_cons_self
  obtain ⟨r, l, hdata⟩ := List.exists_cons_of_ne_nil htidy.data_ne_nil
  have hsep := hv.separated
  rw [ranges_cons, hdata, List.cons_append] at hsep
  intro x hx
  rw [members, ranges_cons, hdata, List.cons_append] at hx
  rw [htidy.begin_eq_first (l := []) hdata rfl]
  exact hsep.first_le hx

theorem lt_back (hv : Valid b v) {back : Chunk} (hback : v.getLast? = some back) :
    ∀ x ∈ members v, x < back.stop := by
  obtain ⟨before, hbefore⟩ : ∃ before, v = before ++ [back] := List.getLast?_eq_some_iff.mp hback
  have htidy := hv.tidy back (by simp [hbefore])
  obtain ⟨l, r, hdata⟩ := (List.eq_nil_or_concat back.data).resolve_left htidy.data_ne_nil
  rw [List.concat_eq_append] at hdata
  have hsep := hv.separated
  have hranges : ranges v = (ranges before ++ l) ++ [r] := by simp [hbefore, hdata]
  rw [hranges] at hsep
  obtain ⟨-, -, hne, hlr, -⟩ := RangeList.separated_middle.mp hsep
  rw [htidy.stop_eq_second hdata rfl]
  rintro x ⟨r', hr', hx⟩
  rw [hranges] at hr'
  rcases List.mem_append.mp hr' with hr' | hr'
  · have := hlr r' hr'
    have := hx.2
    omega
  · rw [← List.mem_singleton.mp hr']
    exact hx.2

/-- Positions behind all indices move none. -/
theorem moveAll_of_lt {S P : Set Nat} (h : ∀ x ∈ S, ∀ q ∈ P, x < q) : moveAll S P = S := by
  refine (Set.image_congr fun x hx => ?_).trans (Set.image_id S)
  refine Positions.spread_eq (fun hmem => Nat.lt_irrefl x (h x hx x hmem)) ?_
  show below P x + x = x
  rw [Positions.below_eq_zero fun q hq => (h x hx q hq).le, Nat.zero_add]

theorem shiftForInsertAtAll_spec (hv : Valid b v) (hp : Valid b p) :
    ∃ v', shiftForInsertAtAll b v p = .ok v' ∧ Valid b v' ∧
      members v' = moveAll (members v) (members p) := by
  rw [shiftForInsertAtAll]
  split
  next front back hfront hback =>
    split
    next hpast =>
      refine ⟨v, rfl, hv, (moveAll_of_lt fun x hx q hq => ?_).symm⟩
      have := front_le hp hfront q hq
      have := lt_back hv hback x hx
      omega
    next =>
      have hstart : Inserting b p (moveAll (members v) (members p)) (fun _ => ∅)
          (indices (ranges v)) (indices (ranges p)) (.make b v) 0 :=
        .start hv (Set.union_empty _)
      have hrounds := indices_rounds v
      have hrounds' := indices_rounds p
      obtain ⟨it₁, it₂, l₁, l₂, builder, shift, hmerge, h₁, h₂, hI, hdone, hle₁, hle₂⟩ :=
        merge_spec shiftRound (Inserting b p (moveAll (members v) (members p)) fun _ => ∅) hv hp
          (fun i₁ i₂ shift => by
            rw [shiftRound]
            split
            · exact .inl rfl
            · exact .inr rfl)
          (fun {i₁ i₂ shift l₁ l₂ builder} hI => by
            rw [shiftRound]
            split
            next hlt => exact hI.push_index hp hlt
            next hge =>
              obtain ⟨S, bound, hbuilt, hb₁, hb₂, hwhole⟩ := hI.built
              obtain ⟨d, hd, hshift, hpassed⟩ := hI.pass_position (Nat.le_of_not_lt hge)
              exact ⟨builder, rfl, hI.sorted, ⟨d, hd, hshift, hpassed⟩, S, bound, hbuilt,
                fun i hi => Nat.le_succ_of_le (hb₁ i hi),
                fun q hq => hb₂ q (List.mem_cons_of_mem _ hq), hwhole⟩)
          (.start hv) (.start hp) hstart (Nat.add_lt_add hrounds hrounds')
      rw [hmerge, ok_bind]
      simp only
      rcases hdone with rfl | rfl
      · obtain ⟨S, bound, hbuilt, -, -, hwhole⟩ := hI.built
        have hnone : pushRest b (fun i => i + shift) v (indexRounds v) it₁ builder = .ok builder := by
          rw [indexRounds, pushRest, if_pos h₁.atEnd_nil]
        obtain ⟨hvalid, hmembers⟩ := hbuilt.finalize
        rw [hnone, ok_bind]
        refine ⟨_, rfl, hvalid, ?_⟩
        rw [hmembers, ← hwhole]
        simp
      · obtain ⟨builder₁, bound₁, hpush₁, hbuilt₁⟩ := hI.indices_left hv hp h₁
          (Nat.lt_of_le_of_lt hle₁ hrounds) rfl
        obtain ⟨hvalid, hmembers⟩ := hbuilt₁.finalize
        rw [hpush₁, ok_bind]
        exact ⟨_, rfl, hvalid, hmembers⟩
  next hnone =>
    refine ⟨v, rfl, hv, (moveAll_of_lt fun x hx q hq => ?_).symm⟩
    have hv' : v ≠ [] := by
      rintro rfl
      exact RangeList.mem_toSet_nil hx
    have hp' : p ≠ [] := by
      rintro rfl
      exact RangeList.mem_toSet_nil hq
    obtain ⟨front, rest, hp''⟩ := List.exists_cons_of_ne_nil hp'
    exact absurd (List.getLast?_eq_some_getLast hv') (hnone front _ (by rw [hp'']; rfl))

/-! ## `erase_at(positions)` -/

/-- What is kept: the positions that were passed lie before the indices still to come, and
what is built is what was left of those passed. -/
structure Erasing (b : Build) (v p : IndexSet) (l₁ l₂ : List Nat)
    (builder : ChunkedRangeVectorBuilder) (shift : Nat) : Prop where
  sorted : l₁.Pairwise (· < ·)
  passed : ∃ d, indices (ranges p) = d ++ l₂ ∧ shift = d.length ∧ ∀ i ∈ l₁, ∀ q ∈ d, q < i
  built : ∃ S bound, Built b builder S bound ∧ (∀ i ∈ l₁, bound ≤ rank (members p) i) ∧
    S ∪ Set.image (rank (members p)) ({i | i ∈ l₁} \ members p) =
      eraseAll (members v) (members p)

/-- An index before all positions still to come is left. -/
theorem Erasing.rank_eq (hp : Valid b p) (h : Erasing b v p l₁ l₂ builder shift) {i : Nat}
    (hi : i ∈ l₁) (hlt : ∀ q ∈ l₂, i < q) : i ∉ members p ∧ rank (members p) i = i - shift := by
  obtain ⟨d, hd, rfl, hpassed⟩ := h.passed
  rw [members_eq_list hd]
  constructor
  · intro hmem
    rcases List.mem_append.mp hmem with hmem | hmem
    · exact Nat.lt_irrefl i (hpassed i hi i hmem)
    · exact Nat.lt_irrefl i (hlt i hmem)
  · rw [rank, Positions.below_list (hd ▸ hp.separated.indices_sorted) (hpassed i hi)
      fun q hq => (hlt q hq).le]

theorem Erasing.round (hp : Valid b p) (h : Erasing b v p (i₁ :: l₁) (i₂ :: l₂) builder shift) :
    ∃ builder', pushSome b builder (eraseRound i₁ i₂ shift).push = .ok builder' ∧
      Erasing b v p (if (eraseRound i₁ i₂ shift).next₁ then l₁ else i₁ :: l₁)
        (if (eraseRound i₁ i₂ shift).next₂ then l₂ else i₂ :: l₂) builder'
        (eraseRound i₁ i₂ shift).shift := by
  obtain ⟨hi₁, hl₁⟩ := List.pairwise_cons.mp h.sorted
  obtain ⟨d, hd, hshift, hpassed⟩ := h.passed
  obtain ⟨S, bound, hbuilt, hbound, hwhole⟩ := h.built
  have hsorted : (i₂ :: l₂).Pairwise (· < ·) := by
    have hall := hp.separated.indices_sorted
    rw [hd] at hall
    exact (List.pairwise_append.mp hall).2.1
  have hmem : i₂ ∈ members p := by
    rw [members_eq_list hd]
    exact List.mem_append_right _ List.mem_cons_self
  have hd' : indices (ranges p) = (d ++ [i₂]) ++ l₂ := by rw [hd, List.append_assoc]; rfl
  have hpassed' : ∀ i, i₂ < i → i ∈ i₁ :: l₁ → ∀ q ∈ d ++ [i₂], q < i := by
    intro i hlt hi q hq
    rcases List.mem_append.mp hq with hq | hq
    · exact hpassed i hi q hq
    · rw [List.mem_singleton.mp hq]
      exact hlt
  rw [eraseRound]
  split
  next hlt =>
    have hbehind : ∀ q ∈ i₂ :: l₂, i₁ < q := by
      intro q hq
      rcases List.mem_cons.mp hq with rfl | hq
      · exact hlt
      · exact hlt.trans ((List.pairwise_cons.mp hsorted).1 q hq)
    obtain ⟨hnot, hrank⟩ := h.rank_eq hp List.mem_cons_self hbehind
    obtain ⟨builder', hpush, hbuilt'⟩ := hbuilt.push (hbound i₁ List.mem_cons_self)
    rw [hrank] at hpush hbuilt'
    refine ⟨builder', hpush, hl₁, ⟨d, hd, hshift, fun i hi => hpassed i (List.mem_cons_of_mem _ hi)⟩,
      _, _, hbuilt', fun i hi => ?_, ?_⟩
    · rw [← hrank]
      exact Positions.rank_lt hnot (hi₁ i hi)
    · rw [← hwhole, ← hrank]
      ext x
      simp only [Set.mem_union, Set.mem_insert_iff, Set.mem_image, Set.mem_sdiff, Set.mem_ofPred_eq,
        List.mem_cons]
      grind
  next hge =>
    split
    next heq =>
      subst heq
      refine ⟨builder, rfl, hl₁, ⟨d ++ [i₁], hd', by simp [hshift], fun i hi =>
        hpassed' i (hi₁ i hi) (List.mem_cons_of_mem _ hi)⟩, S, bound, hbuilt,
        fun i hi => hbound i (List.mem_cons_of_mem _ hi), ?_⟩
      rw [← hwhole]
      ext x
      simp only [Set.mem_union, Set.mem_image, Set.mem_sdiff, Set.mem_ofPred_eq, List.mem_cons]
      grind
    next hne =>
      refine ⟨builder, rfl, h.sorted, ⟨d ++ [i₂], hd', by simp [hshift], fun i hi => ?_⟩, S, bound,
        hbuilt, hbound, hwhole⟩
      refine hpassed' i ?_ hi
      rcases List.mem_cons.mp hi with rfl | hi
      · omega
      · have := hi₁ i hi
        omega

theorem eraseAtAll_spec (hv : Valid b v) (hp : Valid b p) :
    ∃ v', eraseAtAll b v p = .ok v' ∧ Valid b v' ∧
      members v' = eraseAll (members v) (members p) := by
  rw [eraseAtAll]
  split
  next hnil =>
    refine ⟨v, rfl, hv, ?_⟩
    rcases hnil with rfl | rfl
    · simp [members, eraseAll]
    · ext x
      simp [members, eraseAll]
  next =>
    have hstart : Erasing b v p (indices (ranges v)) (indices (ranges p)) (.make b v) 0 := by
      refine ⟨hv.separated.indices_sorted, ⟨[], rfl, rfl, fun _ _ _ hq => absurd hq List.not_mem_nil⟩,
        ∅, 0, ChunkedRangeVectorBuilder.built_make b v, fun _ _ => Nat.zero_le _, ?_⟩
      rw [Set.empty_union, Positions.eraseAll_eq_image (finite_members p)]
      congr 2
      ext x
      exact mem_indices
    have hrounds := indices_rounds v
    have hrounds' := indices_rounds p
    obtain ⟨it₁, it₂, l₁, l₂, builder, shift, hmerge, h₁, h₂, hI, hdone, hle₁, hle₂⟩ :=
      merge_spec eraseRound (Erasing b v p) hv hp
        (fun i₁ i₂ shift => by
          rw [eraseRound]
          split
          · exact .inl rfl
          · split
            · exact .inl rfl
            · exact .inr rfl)
        (fun hI => hI.round hp) (.start hv) (.start hp) hstart (Nat.add_lt_add hrounds hrounds')
    rw [hmerge, ok_bind]
    simp only
    obtain ⟨S, bound, hbuilt, hbound, hwhole⟩ := hI.built
    rcases hdone with rfl | rfl
    · have hnone : pushRest b (fun i => i - shift) v (indexRounds v) it₁ builder = .ok builder := by
        rw [indexRounds, pushRest, if_pos h₁.atEnd_nil]
      obtain ⟨hvalid, hmembers⟩ := hbuilt.finalize
      rw [hnone, ok_bind]
      refine ⟨_, rfl, hvalid, ?_⟩
      rw [hmembers, ← hwhole]
      simp
    · have hrank : ∀ i ∈ l₁, i ∉ members p ∧ rank (members p) i = i - shift := fun i hi =>
        hI.rank_eq hp hi fun _ hq => absurd hq List.not_mem_nil
      obtain ⟨builder₁, bound₁, hpush₁, hbuilt₁⟩ := pushRest_spec (fun i => i - shift) hv h₁ hbuilt
        (hI.sorted.imp_of_mem fun {i j} hi hj hlt => by
          have hrank_lt := Positions.rank_lt (hrank i hi).1 hlt
          rwa [(hrank i hi).2, (hrank j hj).2] at hrank_lt)
        (fun i hi => (hrank i hi).2 ▸ hbound i hi) (Nat.lt_of_le_of_lt hle₁ hrounds)
      obtain ⟨hvalid, hmembers⟩ := hbuilt₁.finalize
      rw [hpush₁, ok_bind]
      refine ⟨_, rfl, hvalid, ?_⟩
      rw [hmembers, ← hwhole]
      congr 1
      ext x
      constructor
      · rintro ⟨i, hi, rfl⟩
        exact ⟨i, ⟨hi, (hrank i hi).1⟩, (hrank i hi).2⟩
      · rintro ⟨i, ⟨hi, -⟩, rfl⟩
        exact ⟨i, hi, (hrank i hi).2.symm⟩

end IndexSet

end Realm
