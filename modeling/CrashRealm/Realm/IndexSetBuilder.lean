/-
# `Realm.IndexSetBuilder` — walking over the indices, and building a set from the front

An `IndexIterator` into a valid set stands before the indices that are still to come
(`At`).  The builder holds the chunks that are done, the one it fills and blank ones it
has prepared (`Builds`); a range pushed behind all others joins the last one or comes
after it, and `finalize` gives the chunks with all ranges.

Everything is right about these chunks but their counts: a range that begins a chunk
for which none was prepared is counted as one index.  The counts are right as long as
all such ranges have one index (`pushRange_spec`).
-/
import CrashRealm.Realm.IndexSetBatch
import CrashRealm.Realm.IndexSetEdit

namespace Realm

open Rx (Fault ok_bind)
open RangeList (Range Separated Below Above toSet total width total_append total_cons indices)

variable {b : Build}

/-! ## Index by index -/

namespace IndexIterator

open ChunkedRangeVector

variable {v : IndexSet} {it : IndexIterator} {i : Nat} {l : List Nat}

/-- The indices from an iterator on. -/
inductive At (v : IndexSet) : IndexIterator → List Nat → Prop where
  | inside {it : Iterator} {A : List Range} {r : Range} {B : List Range} (offset : Nat) :
      Splits v it A (r :: B) → r.first + offset < r.second →
      At v ⟨it, offset⟩ (List.range' (r.first + offset) (r.second - (r.first + offset)) ++ indices B)
  | atEnd {it : Iterator} {A : List Range} : Splits v it A [] → At v ⟨it, 0⟩ []

theorem At.of_splits {it : Iterator} {A B : List Range} (hsep : Separated (ranges v))
    (h : Splits v it A B) : At v ⟨it, 0⟩ (indices B) := by
  cases B with
  | nil => exact .atEnd h
  | cons r B =>
      rw [h.ranges_eq] at hsep
      exact .inside 0 h (RangeList.separated_middle.mp hsep).2.2.1

theorem At.start {v : IndexSet} (hv : IndexSet.Valid b v) : At v .start (indices (ranges v)) :=
  .of_splits hv.separated (splits_cbegin hv.tidy)

theorem At.atEnd_nil (h : At v it []) : it.atEnd v = true := by
  generalize hl : ([] : List Nat) = l at h
  cases h with
  | inside offset hsplits hlt =>
      have := congrArg List.length hl
      rw [List.length_append, List.length_range', List.length_nil] at this
      omega
  | atEnd hsplits => exact decide_eq_true (hsplits.eq_cend_iff.mpr rfl)

/-- The first of the indices is at the iterator, and the others behind it. -/
theorem At.cons (hv : IndexSet.Valid b v) (h : At v it (i :: l)) :
    it.atEnd v = false ∧ it.deref v = .ok i ∧ ∃ it', it.next v = .ok it' ∧ At v it' l := by
  generalize hl : i :: l = l' at h
  cases h with
  | atEnd hsplits => cases hl
  | @inside it A r B offset hsplits hlt =>
      obtain ⟨n, hn⟩ : ∃ n, r.second - (r.first + offset) = n + 1 :=
        ⟨r.second - (r.first + offset) - 1, by omega⟩
      rw [hn, List.range'_succ, List.cons_append, List.cons.injEq] at hl
      obtain ⟨rfl, rfl⟩ := hl
      refine ⟨?_, ?_, ?_⟩
      · exact decide_eq_false fun hend => List.cons_ne_nil _ _ (hsplits.eq_cend_iff.mp hend)
      · rw [IndexIterator.deref, hsplits.deref_eq]
        rfl
      · rw [IndexIterator.next, hsplits.deref_eq, ok_bind]
        simp only
        split
        next hlast =>
          obtain ⟨it', hnext, hsplits'⟩ := hsplits.next hv.tidy
          rw [hnext]
          have hzero : n = 0 := by omega
          rw [hzero]
          exact ⟨_, rfl, At.of_splits hv.separated hsplits'⟩
        next hmore =>
          refine ⟨_, rfl, ?_⟩
          have hat := At.inside (offset + 1) hsplits (by omega)
          have hcount : r.second - (r.first + (offset + 1)) = n := by omega
          rw [hcount] at hat
          exact hat

end IndexIterator

/-! ## Building -/

/-- A chunk that knows its ends. -/
structure Chunk.Framed (b : Build) (chunk : Chunk) : Prop where
  begin_eq : chunk.data.head?.map Range.first = some chunk.begin
  stop_eq : chunk.data.getLast?.map Range.second = some chunk.stop
  size_le : chunk.data.length ≤ b.maxSize

/-- A chunk that knows how many indices it has. -/
def Chunk.Counted (chunk : Chunk) : Prop := chunk.count = total chunk.data

theorem Chunk.tidy_iff {chunk : Chunk} : chunk.Tidy b ↔ chunk.Framed b ∧ chunk.Counted :=
  ⟨fun h => ⟨⟨h.begin_eq, h.stop_eq, h.size_le⟩, h.count_eq⟩,
    fun h => ⟨h.1.begin_eq, h.1.stop_eq, h.2, h.1.size_le⟩⟩

namespace ChunkedRangeVectorBuilder

open ChunkedRangeVector

variable {builder : ChunkedRangeVectorBuilder} {done : ChunkedRangeVector} {chunk : Chunk}
  {range : Range} {prepared : Nat}

/-- The chunks that are done, the one that is being filled, and how many are prepared. -/
structure Builds (b : Build) (builder : ChunkedRangeVectorBuilder) (done : ChunkedRangeVector)
    (chunk : Chunk) (prepared : Nat) : Prop where
  data_eq : builder.data = done ++ chunk :: List.replicate prepared .blank
  outerPos_eq : builder.outerPos = done.length
  done_framed : ∀ chunk ∈ done, chunk.Framed b
  begin_eq : ∀ r ∈ chunk.data.head?, r.first = chunk.begin
  size_le : chunk.data.length ≤ b.maxSize
  blank : chunk.data = [] → done = [] ∧ chunk = .blank
  separated : Separated (ranges done ++ chunk.data)

theorem builds_make (b : Build) (expected : ChunkedRangeVector) :
    Builds b (make b expected) [] .blank ((ranges expected).length / b.maxSize) where
  data_eq := rfl
  outerPos_eq := rfl
  done_framed _ h := absurd h List.not_mem_nil
  begin_eq _ h := by cases h
  size_le := Nat.zero_le _
  blank _ := ⟨rfl, rfl⟩
  separated := RangeList.separated_nil

/-- The pushed range opens a chunk for which none was prepared. -/
def Opens (b : Build) (chunk : Chunk) (prepared : Nat) (range : Range) : Prop :=
  chunk.data.length = b.maxSize ∧ (∀ back ∈ chunk.data.getLast?, range.first ≠ back.second) ∧
    prepared = 0

theorem getElem?_outerPos (h : Builds b builder done chunk prepared) :
    builder.data[builder.outerPos]? = some chunk := by
  rw [h.data_eq, h.outerPos_eq, List.getElem?_append_right (Nat.le_refl _), Nat.sub_self]
  rfl

theorem set_outerPos (h : Builds b builder done chunk prepared) (chunk' : Chunk) :
    builder.data.set builder.outerPos chunk' =
      done ++ chunk' :: List.replicate prepared .blank := by
  rw [h.data_eq, h.outerPos_eq]
  simp

/-- The ranges with one more behind them, which may touch the last. -/
structure Pushed (l : List Range) (range : Range) (l' : List Range) : Prop where
  separated : Separated l'
  mem_iff : ∀ x, x ∈ toSet l' ↔ x ∈ toSet l ∨ x ∈ range
  below : Below l' range.second

/-- The range comes after the last. -/
theorem pushed_append {l : List Range} (hsep : Separated l) (hlt : ∀ r ∈ l, r.second < range.first)
    (hne : range.first < range.second) : Pushed l range (l ++ [range]) where
  separated := RangeList.separated_append.mpr ⟨hsep,
    RangeList.separated_cons.mpr ⟨hne, by simp, RangeList.separated_nil⟩, by simpa using hlt⟩
  mem_iff x := by simp
  below r hr := by
    rcases List.mem_append.mp hr with hr | hr
    · have := hlt r hr
      omega
    · rw [List.mem_singleton.mp hr]

/-- The range joins the last. -/
theorem pushed_join {l : List Range} {back : Range} (hsep : Separated (l ++ [back]))
    (hjoin : range.first = back.second) (hne : range.first < range.second) :
    Pushed (l ++ [back]) range (l ++ [⟨back.first, range.second⟩]) := by
  obtain ⟨hl, -, hback, hlb, -⟩ := RangeList.separated_middle.mp hsep
  have hwide : back.first < range.second := by omega
  refine ⟨RangeList.separated_middle.mpr ⟨hl, RangeList.separated_nil, hwide, hlb, by simp⟩, ?_, ?_⟩
  · intro x
    simp only [RangeList.mem_toSet_append, RangeList.mem_toSet_cons, RangeList.mem_range,
      RangeList.mem_toSet_nil]
    grind
  · intro r hr
    rcases List.mem_append.mp hr with hr | hr
    · have := hlb r hr
      omega
    · rw [List.mem_singleton.mp hr]

theorem counted_append {l : ChunkedRangeVector} :
    (∀ c ∈ l ++ [chunk], c.Counted) ↔ (∀ c ∈ l, c.Counted) ∧ chunk.Counted := by
  rw [List.forall_mem_append, List.forall_mem_singleton]

/-- A range that is pushed behind all others. -/
theorem pushRange_spec (h : Builds b builder done chunk prepared)
    (hbelow : Below (ranges done ++ chunk.data) range.first) (hne : range.first < range.second) :
    ∃ builder' done' chunk' prepared', builder.pushRange b range = .ok builder' ∧
      Builds b builder' done' chunk' prepared' ∧
      Pushed (ranges done ++ chunk.data) range (ranges done' ++ chunk'.data) ∧
      ((∀ c ∈ done' ++ [chunk'], c.Counted) ↔
        (∀ c ∈ done ++ [chunk], c.Counted) ∧ (Opens b chunk prepared range → width range = 1)) ∧
      done'.length + prepared' = max (done.length + prepared) done'.length := by
  rw [pushRange, getElem?_outerPos h]
  simp only
  have hpos : 0 < b.maxSize := by cases b <;> decide
  rcases List.eq_nil_or_concat chunk.data with hnil | ⟨l, back, hdata⟩
  · obtain ⟨rfl, rfl⟩ := h.blank hnil
    rw [hnil]
    simp only [List.getLast?_nil]
    rw [set_outerPos h]
    refine ⟨_, [], _, prepared, rfl, ⟨rfl, h.outerPos_eq, h.done_framed, ?_, hpos,
      fun hnil => absurd hnil (List.cons_ne_nil _ _), ?_⟩, ?_, ?_, by simp⟩
    · intro r hr
      cases hr
      rfl
    · exact RangeList.separated_cons.mpr ⟨hne, by simp, RangeList.separated_nil⟩
    · exact pushed_append RangeList.separated_nil (fun _ hr => absurd hr List.not_mem_nil) hne
    · have hnotOpens : ¬ Opens b .blank prepared range := fun ho => absurd ho.1 (Nat.ne_of_lt hpos)
      refine ⟨fun _ => ⟨?_, fun ho => absurd ho hnotOpens⟩, fun _ => ?_⟩
      · simp [Chunk.Counted, Chunk.blank]
      · simp [Chunk.Counted, width]
  · rw [List.concat_eq_append] at hdata
    have hsep := h.separated
    rw [hdata, ← List.append_assoc] at hsep hbelow
    have hlast : chunk.data.getLast? = some back := by rw [hdata, List.getLast?_concat]
    have hfilled : ranges done ++ chunk.data = (ranges done ++ l) ++ [back] := by
      rw [hdata, List.append_assoc]
    have hcount : ∀ chunk' : Chunk, (∀ c ∈ done ++ [chunk'], c.Counted) ↔
        (∀ c ∈ done, c.Counted) ∧ chunk'.Counted := fun _ => counted_append
    rw [hlast]
    simp only
    split
    next hjoin =>
      have hnotOpens : ¬ Opens b chunk prepared range := fun ho => ho.2.1 back hlast hjoin
      have hpushed := pushed_join hsep hjoin hne
      have hback := (RangeList.separated_middle.mp hsep).2.2.1
      rw [set_outerPos h]
      refine ⟨_, done, _, prepared, rfl, ⟨rfl, h.outerPos_eq, h.done_framed, ?_, ?_, ?_, ?_⟩,
        ?_, ?_, by omega⟩
      · have := h.begin_eq
        rw [hdata] at this
        simp only [hdata, List.dropLast_concat]
        cases l with
        | nil => simpa using this
        | cons r l => simpa using this
      · have := h.size_le
        rw [hdata] at this ⊢
        simpa using this
      · rw [hdata]
        simp
      · rw [hdata]
        simpa using hpushed.separated
      · rw [hfilled, hdata]
        simpa using hpushed
      · rw [hcount, hcount]
        simp only [hnotOpens, Chunk.Counted, hdata, List.dropLast_concat, total_append, total_cons,
          RangeList.total_nil, width]
        have : chunk.count + (range.second - range.first) =
            total l + (range.second - back.first + 0) ↔
            chunk.count = total l + (back.second - back.first + 0) := by omega
        rw [this]
        simp
    next hapart =>
      have hlt : ∀ r ∈ (ranges done ++ l) ++ [back], r.second < range.first := by
        refine hsep.lt_of_getLast? hbelow fun r hr heq => hapart ?_
        rw [List.getLast?_concat] at hr
        cases hr
        exact heq.symm
      have hpushed := pushed_append hsep hlt hne
      split
      next hroom =>
        have hnotOpens : ¬ Opens b chunk prepared range := fun ho => absurd ho.1 (Nat.ne_of_lt hroom)
        rw [set_outerPos h]
        refine ⟨_, done, _, prepared, rfl, ⟨rfl, h.outerPos_eq, h.done_framed, ?_, ?_, ?_, ?_⟩,
          ?_, ?_, by omega⟩
        · have := h.begin_eq
          rw [hdata] at this ⊢
          cases l with
          | nil => simpa using this
          | cons r l => simpa using this
        · simpa using hroom
        · simp
        · rw [hdata]
          simpa using hpushed.separated
        · rw [hfilled, hdata]
          simpa using hpushed
        · rw [hcount, hcount]
          simp only [hnotOpens, Chunk.Counted, hdata, total_append, total_cons,
            RangeList.total_nil, width]
          have : chunk.count + (range.second - range.first) =
              total l + (back.second - back.first + 0) + (range.second - range.first + 0) ↔
              chunk.count = total l + (back.second - back.first + 0) := by omega
          rw [this]
          simp
      next hfull =>
        have hsize : chunk.data.length = b.maxSize := by
          have := h.size_le
          omega
        have hdone : ∀ c ∈ done ++ [{ chunk with stop := back.second }], c.Framed b := by
          intro c hc
          rcases List.mem_append.mp hc with hc | hc
          · exact h.done_framed c hc
          · rw [List.mem_singleton.mp hc]
            refine ⟨?_, ?_, h.size_le⟩
            · obtain ⟨r, l', hl'⟩ : ∃ r l', chunk.data = r :: l' :=
                List.exists_cons_of_ne_nil (by rw [hdata]; simp)
              have := h.begin_eq r (by rw [hl']; rfl)
              simp [hl', this]
            · simp [hlast]
        have hranges : ranges (done ++ [{ chunk with stop := back.second }]) =
            ranges done ++ chunk.data := by simp
        have hlength : (done ++ [{ chunk with stop := back.second }]).length = done.length + 1 := by
          simp
        have hset : builder.data.set builder.outerPos { chunk with stop := back.second } =
            (done ++ [{ chunk with stop := back.second }]) ++ List.replicate prepared .blank := by
          rw [set_outerPos h, List.append_assoc]
          rfl
        have hcounted : ∀ chunk' : Chunk,
            (∀ c ∈ (done ++ [{ chunk with stop := back.second }]) ++ [chunk'], c.Counted) ↔
              (∀ c ∈ done ++ [chunk], c.Counted) ∧ chunk'.Counted := by
          intro chunk'
          rw [counted_append, hcount, hcount]
          exact Iff.rfl
        rw [hset, h.outerPos_eq, ← hlength]
        cases prepared with
        | zero =>
            have hopens : Opens b chunk 0 range :=
              ⟨hsize, fun r hr => by rw [hlast] at hr; cases hr; exact hapart, rfl⟩
            have hnone : ((done ++ [{ chunk with stop := back.second }]) ++
                List.replicate 0 Chunk.blank)[(done ++
                  [{ chunk with stop := back.second }]).length]? = none := by simp
            rw [hnone]
            refine ⟨_, done ++ [{ chunk with stop := back.second }], ⟨[range], range.first, 0, 1⟩, 0,
              rfl, ⟨by simp, rfl, hdone, ?_, hpos, by simp, ?_⟩, ?_, ?_, by omega⟩
            · intro r hr
              cases hr
              rfl
            · rw [hranges, hfilled]
              exact hpushed.separated
            · rw [hranges, hfilled]
              exact hpushed
            · rw [hcounted]
              have hone : Chunk.Counted ⟨[range], range.first, 0, 1⟩ ↔ width range = 1 := by
                rw [Chunk.Counted]
                simp [eq_comm]
              rw [hone]
              simp [hopens]
        | succ prepared =>
            have hnotOpens : ¬ Opens b chunk (prepared + 1) range :=
              fun ho => absurd ho.2.2 (Nat.succ_ne_zero _)
            have hsome : ((done ++ [{ chunk with stop := back.second }]) ++
                List.replicate (prepared + 1) Chunk.blank)[(done ++
                  [{ chunk with stop := back.second }]).length]? = some .blank := by simp
            rw [hsome]
            refine ⟨_, done ++ [{ chunk with stop := back.second }],
              ⟨[range], range.first, 0, range.second - range.first⟩, prepared, rfl,
              ⟨?_, rfl, hdone, ?_, hpos, by simp, ?_⟩, ?_, ?_, by omega⟩
            · rw [List.replicate_succ]
              simp [Chunk.blank]
            · intro r hr
              cases hr
              rfl
            · rw [hranges, hfilled]
              exact hpushed.separated
            · rw [hranges, hfilled]
              exact hpushed
            · rw [hcounted]
              simp [hnotOpens, Chunk.Counted, width]

/-- What is built is all that was pushed, and the chunks know their ends. -/
theorem finalize_spec (h : Builds b builder done chunk prepared) :
    (∀ c ∈ builder.finalize, c.Framed b) ∧ ranges builder.finalize = ranges done ++ chunk.data ∧
      ((∀ c ∈ builder.finalize, c.Counted) ↔ ∀ c ∈ done ++ [chunk], c.Counted) := by
  have htake : builder.data.take (builder.outerPos + 1) = done ++ [chunk] := by
    have hsplit : builder.data = (done ++ [chunk]) ++ List.replicate prepared .blank := by
      rw [h.data_eq, List.append_assoc]
      rfl
    have hlength : builder.outerPos + 1 = (done ++ [chunk]).length := by
      rw [h.outerPos_eq, List.length_append]
      rfl
    rw [hsplit, hlength, List.take_left]
  rw [finalize, htake, List.getLast?_concat, List.dropLast_concat]
  simp only
  rcases List.eq_nil_or_concat chunk.data with hnil | ⟨l, back, hdata⟩
  · obtain ⟨rfl, rfl⟩ := h.blank hnil
    rw [hnil]
    refine ⟨fun c hc => absurd hc List.not_mem_nil, rfl, ?_⟩
    simp [Chunk.Counted, Chunk.blank]
  · rw [List.concat_eq_append] at hdata
    have hlast : chunk.data.getLast? = some back := by rw [hdata, List.getLast?_concat]
    rw [hlast]
    simp only
    refine ⟨fun c hc => ?_, by simp, ?_⟩
    · rcases List.mem_append.mp hc with hc | hc
      · exact h.done_framed c hc
      · rw [List.mem_singleton.mp hc]
        refine ⟨?_, ?_, h.size_le⟩
        · obtain ⟨r, l', hl'⟩ : ∃ r l', chunk.data = r :: l' :=
            List.exists_cons_of_ne_nil (by rw [hdata]; simp)
          have := h.begin_eq r (by rw [hl']; rfl)
          simp [hl', this]
        · simp [hlast]
    · rw [counted_append, counted_append]
      exact Iff.rfl

/-! ## Building from single indices -/

/-- The builder holds the set, all of it below the bound, and has counted right. -/
def Built (b : Build) (builder : ChunkedRangeVectorBuilder) (S : Set Nat) (bound : Nat) : Prop :=
  ∃ done chunk prepared, Builds b builder done chunk prepared ∧
    (∀ c ∈ done ++ [chunk], c.Counted) ∧ toSet (ranges done ++ chunk.data) = S ∧
    Below (ranges done ++ chunk.data) bound

variable {S : Set Nat} {bound index : Nat}

theorem built_make (b : Build) (expected : ChunkedRangeVector) :
    Built b (make b expected) ∅ 0 := by
  refine ⟨[], .blank, _, builds_make b expected, ?_, RangeList.toSet_nil,
    fun _ hr => absurd hr List.not_mem_nil⟩
  intro c hc
  rw [List.mem_singleton.mp hc]
  rfl

theorem Built.push (h : Built b builder S bound) (hindex : bound ≤ index) :
    ∃ builder', builder.push b index = .ok builder' ∧
      Built b builder' (Insert.insert index S) (index + 1) := by
  obtain ⟨done, chunk, prepared, hbuilds, hcounted, hS, hbelow⟩ := h
  have hone : (⟨index, index + 1⟩ : Range).first < (⟨index, index + 1⟩ : Range).second :=
    Nat.lt_succ_self index
  obtain ⟨builder', done', chunk', prepared', hpush, hbuilds', hpushed, hcounted', -⟩ :=
    pushRange_spec hbuilds (hbelow.mono hindex) hone
  refine ⟨builder', hpush, done', chunk', prepared', hbuilds', ?_, ?_, hpushed.below⟩
  · refine hcounted'.mpr ⟨hcounted, fun _ => ?_⟩
    show index + 1 - index = 1
    omega
  · ext x
    rw [hpushed.mem_iff, hS, Set.mem_insert_iff, RangeList.mem_range]
    have : index ≤ x ∧ x < index + 1 ↔ x = index := by omega
    rw [this, or_comm]

theorem Built.finalize (h : Built b builder S bound) :
    IndexSet.Valid b builder.finalize ∧ IndexSet.members builder.finalize = S := by
  obtain ⟨done, chunk, prepared, hbuilds, hcounted, hS, -⟩ := h
  obtain ⟨hframed, hranges, hcounts⟩ := finalize_spec hbuilds
  refine ⟨⟨fun c hc => Chunk.tidy_iff.mpr ⟨hframed c hc, hcounts.mpr hcounted c hc⟩, ?_⟩, ?_⟩
  · rw [hranges]
    exact hbuilds.separated
  · rw [IndexSet.members, hranges]
    exact hS

end ChunkedRangeVectorBuilder

end Realm
