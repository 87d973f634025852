/-
# `Realm.ChunkedRangeVectorSpec` — an iterator splits the ranges in two

The chunks are `Tidy` if each knows its ends and its count.  An iterator into tidy
chunks splits the list of all ranges into those before it and those from it on
(`Splits`), and every operation of the vector is stated on these two lists: where
`++` and `--` lead, that `set`, `adjust` and `shift` exchange the range at the
iterator, `insert` puts one before it and `erase` takes it away.  None of it faults,
and all of it leaves the chunks tidy, whether or not the ranges are in order; the
assertions of `verify` hold if they are (`verify_eq_ok`).
-/
import CrashRealm.Realm.ChunkedRangeVector

namespace Realm

open Rx (Fault ok_bind)
open RangeList (Range Separated total width total_append total_cons)

variable {b : Build}

theorem realmAssert_of {p : Prop} [Decidable p] (h : p) (text : String) :
    realmAssert p text = .ok () := if_pos h

namespace Chunk

/-- A chunk that knows its ends and its count. -/
structure Tidy (b : Build) (chunk : Chunk) : Prop where
  begin_eq : chunk.data.head?.map Range.first = some chunk.begin
  stop_eq : chunk.data.getLast?.map Range.second = some chunk.stop
  count_eq : chunk.count = total chunk.data
  size_le : chunk.data.length ≤ b.maxSize

variable {chunk : Chunk} {l l' : List Range} {r : Range}

theorem Tidy.data_ne_nil (h : chunk.Tidy b) : chunk.data ≠ [] := by
  intro hnil
  have := h.begin_eq
  rw [hnil] at this
  cases this

theorem Tidy.begin_eq_first (h : chunk.Tidy b) (hdata : chunk.data = l ++ r :: l') (hl : l = []) :
    chunk.begin = r.first := by
  have := h.begin_eq
  rw [hdata, hl] at this
  exact (Option.some.inj this).symm

theorem Tidy.stop_eq_second (h : chunk.Tidy b) (hdata : chunk.data = l ++ r :: l')
    (hl' : l' = []) : chunk.stop = r.second := by
  have := h.stop_eq
  rw [hdata, hl'] at this
  simpa using this.symm

theorem Tidy.width_le (h : chunk.Tidy b) (hdata : chunk.data = l ++ r :: l') :
    width r ≤ chunk.count := by
  have := h.count_eq
  rw [hdata, total_append, total_cons] at this
  omega

/-- One range is replaced by another. -/
theorem Tidy.replace (h : chunk.Tidy b) (hdata : chunk.data = l ++ r :: l') (r' : Range)
    {begin stop count : Nat} (hbegin : l = [] → begin = r'.first) (hstop : l' = [] → stop = r'.second)
    (hcount : count + width r = chunk.count + width r') :
    (chunk.replace l.length r' begin stop count).Tidy b ∧
      (chunk.replace l.length r' begin stop count).data = l ++ r' :: l' := by
  have hdata' : (chunk.replace l.length r' begin stop count).data = l ++ r' :: l' := by
    rw [Chunk.replace, hdata]
    simp
  refine ⟨⟨?_, ?_, ?_, ?_⟩, hdata'⟩
  · rw [hdata', Chunk.replace]
    cases l with
    | nil =>
        rw [hbegin rfl]
        rfl
    | cons r₀ l =>
        have := h.begin_eq
        rw [hdata] at this
        exact this
  · rw [hdata', Chunk.replace]
    cases l' with
    | nil =>
        rw [hstop rfl, hdata]
        simp
    | cons r₀ l' =>
        have := h.stop_eq
        rw [hdata] at this
        rw [hdata]
        simpa using this
  · rw [hdata']
    have := h.count_eq
    rw [hdata] at this
    simp only [total_append, total_cons] at this ⊢
    show count = _
    omega
  · rw [hdata']
    have := h.size_le
    rw [hdata] at this
    simpa using this

end Chunk

namespace ChunkedRangeVector

variable {v v' : ChunkedRangeVector} {it : Iterator} {A B : List Range} {r : Range}

@[simp] theorem ranges_append (v v' : ChunkedRangeVector) :
    ranges (v ++ v') = ranges v ++ ranges v' := List.flatMap_append

@[simp] theorem ranges_cons (chunk : Chunk) (v : ChunkedRangeVector) :
    ranges (chunk :: v) = chunk.data ++ ranges v := List.flatMap_cons

@[simp] theorem ranges_nil : ranges [] = [] := rfl

/-- Every chunk is tidy. -/
def Tidy (b : Build) (v : ChunkedRangeVector) : Prop := ∀ chunk ∈ v, chunk.Tidy b

theorem tidy_append : Tidy b (v ++ v') ↔ Tidy b v ∧ Tidy b v' := by
  simp only [Tidy, List.forall_mem_append]

theorem tidy_cons {chunk : Chunk} : Tidy b (chunk :: v) ↔ chunk.Tidy b ∧ Tidy b v := by
  simp only [Tidy, List.forall_mem_cons]

theorem Tidy.eq_nil (h : Tidy b v) (hnil : v.ranges = []) : v = [] := by
  cases v with
  | nil => rfl
  | cons chunk v =>
      rw [ranges_cons] at hnil
      exact absurd (List.append_eq_nil_iff.mp hnil).1 (tidy_cons.mp h).1.data_ne_nil

/-- The ranges before an iterator and those from it on. -/
inductive Splits (v : ChunkedRangeVector) : Iterator → List Range → List Range → Prop where
  | inside (before after : ChunkedRangeVector) (chunk : Chunk) (l l' : List Range) (r : Range) :
      v = before ++ chunk :: after → chunk.data = l ++ r :: l' →
      Splits v ⟨before.length, l.length⟩ (ranges before ++ l) (r :: (l' ++ ranges after))
  | atEnd : Splits v v.cend v.ranges []

theorem Splits.ranges_eq (h : Splits v it A B) : v.ranges = A ++ B := by
  cases h with
  | inside before after chunk l l' r hv hdata => simp [hv, hdata]
  | atEnd => exact (List.append_nil _).symm

theorem outer_append (before after : ChunkedRangeVector) (chunk : Chunk) (offset : Nat) :
    outer (before ++ chunk :: after) ⟨before.length, offset⟩ = .ok chunk := by
  rw [outer, List.getElem?_append_right (Nat.le_refl _), Nat.sub_self]
  rfl

theorem deref_append (before after : ChunkedRangeVector) {chunk : Chunk} {l l' : List Range}
    (hdata : chunk.data = l ++ r :: l') :
    deref (before ++ chunk :: after) ⟨before.length, l.length⟩ = .ok r := by
  rw [deref, outer_append, ok_bind, hdata]
  simp

theorem Splits.deref_eq (h : Splits v it A (r :: B)) : v.deref it = .ok r := by
  cases h with
  | inside before after chunk l l' r hv hdata =>
      subst hv
      exact deref_append before after hdata

/-! ## Walking -/

/-- The start of a chunk, or the end. -/
theorem splits_start (before after : ChunkedRangeVector) (h : Tidy b after) :
    Splits (before ++ after) ⟨before.length, 0⟩ (ranges before) (ranges after) := by
  cases after with
  | nil =>
      rw [List.append_nil]
      exact .atEnd
  | cons chunk after =>
      obtain ⟨r, l, hdata⟩ := List.exists_cons_of_ne_nil (tidy_cons.mp h).1.data_ne_nil
      have hsplits := Splits.inside before after chunk [] l r rfl hdata
      rw [List.append_nil] at hsplits
      rw [ranges_cons, hdata]
      exact hsplits

theorem splits_cbegin (h : Tidy b v) : Splits v cbegin [] v.ranges := splits_start [] v h

theorem Splits.next (ht : Tidy b v) (h : Splits v it A (r :: B)) :
    ∃ it', v.next it = .ok it' ∧ Splits v it' (A ++ [r]) B := by
  cases h with
  | inside before after chunk l l' r hv hdata =>
      subst hv
      rw [ChunkedRangeVector.next, outer_append, ok_bind]
      refine ⟨_, rfl, ?_⟩
      cases l' with
      | nil =>
          rw [if_pos (by simp [hdata])]
          have hsplits := splits_start (before ++ [chunk]) after (tidy_cons.mp (tidy_append.mp ht).2).2
          simpa [hdata, nextChunk] using hsplits
      | cons r' l' =>
          rw [if_neg (by simp [hdata])]
          have hsplits := Splits.inside (v := before ++ chunk :: after) before after chunk (l ++ [r]) l' r' rfl
            (by simp [hdata])
          simpa using hsplits

/-- Back from the start of a chunk, or the end. -/
theorem prev_start (before after : ChunkedRangeVector) (ht : Tidy b (before ++ after))
    (hA : before.ranges = A ++ [r]) :
    ∃ it', prev (before ++ after) ⟨before.length, 0⟩ = .ok it' ∧
      Splits (before ++ after) it' A (r :: ranges after) := by
  rcases List.eq_nil_or_concat before with rfl | ⟨before, chunk, rfl⟩
  · exact absurd hA (by simp)
  · rw [List.concat_eq_append] at ht hA ⊢
    have hchunk := (tidy_cons.mp (tidy_append.mp (tidy_append.mp ht).1).2).1
    rcases List.eq_nil_or_concat chunk.data with hnil | ⟨l, r', hdata⟩
    · exact absurd hnil hchunk.data_ne_nil
    · rw [List.concat_eq_append] at hdata
      have hlast : ranges before ++ l = A ∧ r' = r := by
        rw [ranges_append, ranges_cons, hdata] at hA
        simpa [← List.append_assoc] using hA
      obtain ⟨rfl, rfl⟩ := hlast
      have happend : before ++ [chunk] ++ after = before ++ chunk :: after := by simp
      have hlength : (before ++ [chunk]).length = before.length + 1 := by simp
      have hprev : prev (before ++ chunk :: after) ⟨before.length + 1, 0⟩ =
          .ok ⟨before.length, chunk.data.length - 1⟩ := by
        show outer (before ++ chunk :: after) ⟨before.length, 0⟩ >>= _ = _
        rw [outer_append]
        rfl
      rw [happend, hlength]
      refine ⟨_, hprev, ?_⟩
      have hsplits := Splits.inside (v := before ++ chunk :: after) before after chunk l [] r' rfl hdata
      rw [hdata, List.length_append]
      exact hsplits

theorem Splits.prev (ht : Tidy b v) (h : Splits v it (A ++ [r]) B) :
    ∃ it', v.prev it = .ok it' ∧ Splits v it' A (r :: B) := by
  generalize hA : A ++ [r] = A' at h
  cases h with
  | inside before after chunk l l' r₀ hv hdata =>
      subst hv
      rcases List.eq_nil_or_concat l with rfl | ⟨l, r', rfl⟩
      · rw [List.append_nil] at hA
        obtain ⟨it', hprev, hsplits⟩ := prev_start before (chunk :: after) ht hA.symm
        refine ⟨it', hprev, ?_⟩
        rw [ranges_cons, hdata] at hsplits
        exact hsplits
      · rw [List.concat_eq_append] at hA hdata ⊢
        have hlast : A = ranges before ++ l ∧ r = r' := by
          simpa [← List.append_assoc] using hA
        obtain ⟨rfl, rfl⟩ := hlast
        rw [List.length_append]
        refine ⟨_, rfl, ?_⟩
        have hsplits := Splits.inside (v := before ++ chunk :: after) before after chunk l (r₀ :: l') r rfl
          (by simp [hdata])
        exact hsplits
  | atEnd =>
      obtain ⟨it', hprev, hsplits⟩ := prev_start v [] (by rwa [List.append_nil]) hA.symm
      rw [List.append_nil] at hprev hsplits
      exact ⟨it', hprev, hsplits⟩

theorem Splits.eq_cend_iff (h : Splits v it A B) : it = v.cend ↔ B = [] := by
  cases h with
  | inside before after chunk l l' r hv hdata =>
      subst hv
      simp [cend]
  | atEnd => simp

theorem Splits.eq_cbegin_iff (ht : Tidy b v) (h : Splits v it A B) : it = cbegin ↔ A = [] := by
  cases h with
  | inside before after chunk l l' r hv hdata =>
      subst hv
      have hnil : before.ranges = [] ↔ before = [] :=
        ⟨(tidy_append.mp ht).1.eq_nil, fun h => by rw [h]; rfl⟩
      simp [cbegin, hnil]
  | atEnd =>
      have hnil : v.ranges = [] ↔ v = [] := ⟨ht.eq_nil, fun h => by rw [h]; rfl⟩
      simp [cbegin, cend, hnil]

/-- The sizes of the chunks. -/
def shape (v : ChunkedRangeVector) : List Nat := v.map fun chunk => chunk.data.length

theorem length_ranges (v : ChunkedRangeVector) : (ranges v).length = (shape v).sum := by
  induction v with
  | nil => rfl
  | cons chunk v ih =>
      rw [ranges_cons, List.length_append, ih]
      simp [shape]

/-- An iterator splits chunks of the same sizes at the same place. -/
theorem Splits.of_shape (h : Splits v it A B) (hshape : shape v' = shape v) {A' B' : List Range}
    (hranges : ranges v' = A' ++ B') (hlength : A'.length = A.length) : Splits v' it A' B' := by
  cases h with
  | inside before after chunk l l' r hv hdata =>
      subst hv
      rw [shape, shape, List.map_append, List.map_cons] at hshape
      obtain ⟨before', rest', rfl, hbefore, hrest⟩ := List.map_eq_append_iff.mp hshape
      obtain ⟨chunk', after', rfl, hchunk, hafter⟩ := List.map_eq_cons_iff.mp hrest
      have hsize : before'.length = before.length := by
        simpa using congrArg List.length hbefore
      have hlt : l.length < chunk'.data.length := by
        rw [hchunk, hdata, List.length_append, List.length_cons]
        omega
      have hdata' : chunk'.data = chunk'.data.take l.length ++
          chunk'.data[l.length] :: chunk'.data.drop (l.length + 1) := by
        rw [List.getElem_cons_drop, List.take_append_drop]
      have hsplits := Splits.inside (v := before' ++ chunk' :: after') before' after' chunk' _ _ _ rfl hdata'
      have htake : (chunk'.data.take l.length).length = l.length := by
        rw [List.length_take]
        omega
      have hprefix : (ranges before' ++ chunk'.data.take l.length).length = A'.length := by
        rw [hlength, List.length_append, List.length_append, htake, length_ranges, length_ranges,
          shape, shape, hbefore]
      have heq := hsplits.ranges_eq
      rw [hranges] at heq
      obtain ⟨hA, hB⟩ := List.append_inj heq hprefix.symm
      rw [hsize, htake, ← hA, ← hB] at hsplits
      exact hsplits
  | atEnd =>
      have hsame : v'.length = v.length := by
        simpa [shape] using congrArg List.length hshape
      have hB : B' = [] := by
        have := congrArg List.length hranges
        rw [length_ranges, hshape, ← length_ranges, List.length_append, hlength] at this
        exact List.length_eq_zero_iff.mp (by omega)
      rw [hB, List.append_nil] at hranges
      have hend : v.cend = v'.cend := by rw [cend, cend, hsame]
      rw [hB, hend, ← hranges]
      exact .atEnd

/-! ## Exchanging the range at an iterator -/

/-- A chunk is exchanged for one with another range at the iterator. -/
theorem exchange {before after : ChunkedRangeVector} {chunk : Chunk} {l l' : List Range}
    (ht : Tidy b (before ++ chunk :: after)) (hdata : chunk.data = l ++ r :: l') (r' : Range)
    {begin stop count : Nat} (hbegin : l = [] → begin = r'.first) (hstop : l' = [] → stop = r'.second)
    (hcount : count + width r = chunk.count + width r') :
    let v' := List.set (before ++ chunk :: after) before.length
      (chunk.replace l.length r' begin stop count)
    Tidy b v' ∧ shape v' = shape (before ++ chunk :: after) ∧
      Splits v' ⟨before.length, l.length⟩ (ranges before ++ l) (r' :: (l' ++ ranges after)) := by
  obtain ⟨hbefore, hrest⟩ := tidy_append.mp ht
  obtain ⟨hchunk, hafter⟩ := tidy_cons.mp hrest
  obtain ⟨hchunk', hdata'⟩ := hchunk.replace hdata r' hbegin hstop hcount
  have hset : List.set (before ++ chunk :: after) before.length
      (chunk.replace l.length r' begin stop count) =
      before ++ chunk.replace l.length r' begin stop count :: after := by simp
  refine ⟨?_, ?_, ?_⟩
  · rw [hset]
    exact tidy_append.mpr ⟨hbefore, tidy_cons.mpr ⟨hchunk', hafter⟩⟩
  · rw [hset]
    simp [shape, hdata, hdata']
  · exact .inside before after _ l l' r' hset hdata'

theorem Splits.set (ht : Tidy b v) (h : Splits v it A (r :: B)) (front back : Nat) :
    ∃ v', it.set v front back = .ok v' ∧ Tidy b v' ∧ shape v' = shape v ∧
      Splits v' it A (⟨front, back⟩ :: B) := by
  cases h with
  | inside before after chunk l l' r hv hdata =>
      subst hv
      rw [Iterator.set, outer_append, deref_append before after hdata, ok_bind, ok_bind]
      refine ⟨_, rfl, exchange ht hdata ⟨front, back⟩ (fun _ => rfl) (fun _ => rfl) ?_⟩
      have := (tidy_cons.mp (tidy_append.mp ht).2).1.width_le hdata
      simp only [width] at this ⊢
      omega

theorem Splits.adjust (ht : Tidy b v) (h : Splits v it A (r :: B)) (front back : Int) (r' : Range)
    (hfirst : (r.first : Int) + front = r'.first) (hsecond : (r.second : Int) + back = r'.second)
    (hle : r.first ≤ r.second) (hle' : r'.first ≤ r'.second) :
    ∃ v', it.adjust v front back = .ok v' ∧ Tidy b v' ∧ shape v' = shape v ∧
      Splits v' it A (r' :: B) := by
  cases h with
  | inside before after chunk l l' r hv hdata =>
      subst hv
      have hchunk := (tidy_cons.mp (tidy_append.mp ht).2).1
      rw [Iterator.adjust, outer_append, deref_append before after hdata, ok_bind, ok_bind]
      have hr' : (⟨plus r.first front, plus r.second back⟩ : Range) = r' := by
        rw [plus, plus, hfirst, hsecond]
        rfl
      rw [hr']
      refine ⟨_, rfl, exchange ht hdata r' (fun hl => ?_) (fun hl' => ?_) ?_⟩
      · rw [hchunk.begin_eq_first hdata hl, plus, hfirst]
        rfl
      · rw [hchunk.stop_eq_second hdata hl', plus, hsecond]
        rfl
      · have := hchunk.width_le hdata
        simp only [width, plus] at this ⊢
        omega

theorem Splits.shift (ht : Tidy b v) (h : Splits v it A (r :: B)) (distance : Int) (r' : Range)
    (hfirst : (r.first : Int) + distance = r'.first)
    (hsecond : (r.second : Int) + distance = r'.second) :
    ∃ v', it.shift v distance = .ok v' ∧ Tidy b v' ∧ shape v' = shape v ∧
      Splits v' it A (r' :: B) := by
  cases h with
  | inside before after chunk l l' r hv hdata =>
      subst hv
      have hchunk := (tidy_cons.mp (tidy_append.mp ht).2).1
      rw [Iterator.shift, outer_append, deref_append before after hdata, ok_bind, ok_bind]
      have hr' : (⟨plus r.first distance, plus r.second distance⟩ : Range) = r' := by
        rw [plus, plus, hfirst, hsecond]
        rfl
      rw [hr']
      refine ⟨_, rfl, exchange ht hdata r' (fun hl => ?_) (fun hl' => ?_) ?_⟩
      · rw [hchunk.begin_eq_first hdata hl, plus, hfirst]
        rfl
      · rw [hchunk.stop_eq_second hdata hl', plus, hsecond]
        rfl
      · simp only [width]
        omega

/-! ## What `verify` asserts -/

theorem verifyRanges_of {l : List Range} (h : Separated l) : ∀ {prevEnd : Option Nat},
    (∀ e ∈ prevEnd, ∀ r ∈ l, e < r.first) → verifyRanges prevEnd l = .ok () := by
  induction l with
  | nil => exact fun _ => rfl
  | cons r l ih =>
      intro prevEnd hprev
      obtain ⟨hne, hr, hl⟩ := RangeList.separated_cons.mp h
      rw [verifyRanges, realmAssert_of hne, ok_bind,
        realmAssert_of fun e he => hprev e he r List.mem_cons_self, ok_bind]
      refine ih hl fun e he r' hr' => ?_
      cases he
      exact hr r' hr'

theorem verifyChunk_of {chunk : Chunk} (h : chunk.Tidy b) (hsep : Separated chunk.data) :
    verifyChunk chunk = .ok () := by
  obtain ⟨r, l, hdata⟩ := List.exists_cons_of_ne_nil h.data_ne_nil
  have hbegin := h.begin_eq
  have hstop := h.stop_eq
  have hspan : total chunk.data + r.first ≤ chunk.stop := by
    rw [hdata] at hsep hstop ⊢
    exact hsep.total_add_first_le hstop
  have hfirst := h.begin_eq_first (l := []) hdata rfl
  rw [verifyChunk, realmAssert_of h.data_ne_nil, ok_bind, realmAssert_of, ok_bind, realmAssert_of,
    ok_bind, realmAssert_of, ok_bind, realmAssert_of]
  · exact h.count_eq.symm
  · rw [h.count_eq]
    omega
  · intro r' hr'
    rw [hr'] at hstop
    exact Option.some.inj hstop
  · intro r' hr'
    rw [hr'] at hbegin
    exact Option.some.inj hbegin

theorem separated_chunk (h : Separated v.ranges) {chunk : Chunk} (hmem : chunk ∈ v) :
    Separated chunk.data := by
  obtain ⟨before, after, rfl⟩ := List.append_of_mem hmem
  rw [ranges_append, ranges_cons] at h
  exact (RangeList.separated_append.mp (RangeList.separated_append.mp h).2.1).1

/-- The assertions of `verify` hold of tidy chunks with separated ranges. -/
theorem verify_eq_ok (ht : Tidy b v) (h : Separated v.ranges) : v.verify = .ok () := by
  rw [verify, verifyRanges_of h fun _ he => (by cases he), ok_bind]
  have hall : ∀ chunk ∈ v, verifyChunk chunk = .ok () :=
    fun chunk hmem => verifyChunk_of (ht chunk hmem) (separated_chunk h hmem)
  clear ht h
  induction v with
  | nil => rfl
  | cons chunk v ih =>
      show verifyChunk chunk >>= (fun _ => List.forM v verifyChunk) = .ok ()
      rw [hall chunk List.mem_cons_self, ok_bind]
      exact ih fun chunk' hmem => hall chunk' (List.mem_cons_of_mem _ hmem)

/-! ## `push_back`, `insert` and `erase` -/

theorem head?_append {l l' : List Range} (h : l ≠ []) : (l ++ l').head? = l.head? := by
  cases l with
  | nil => exact absurd rfl h
  | cons r l => rfl

theorem getLast?_append {l l' : List Range} (h : l' ≠ []) : (l ++ l').getLast? = l'.getLast? := by
  obtain ⟨l₀, r, rfl⟩ := (List.eq_nil_or_concat l').resolve_left h
  rw [List.concat_eq_append, ← List.append_assoc, List.getLast?_concat, List.getLast?_concat]

theorem tidy_single (hsize : 0 < b.maxSize) (value : Range) : (Chunk.single value).Tidy b :=
  ⟨rfl, rfl, by simp [Chunk.single, total, width], hsize⟩

theorem pushBack_spec (ht : Tidy b v) (value : Range) (hsep : Separated (v.ranges ++ [value])) :
    ∃ v', v.pushBack b value = .ok v' ∧ Tidy b v' ∧ v'.ranges = v.ranges ++ [value] := by
  have hfinish : ∀ v' : ChunkedRangeVector, Tidy b v' → v'.ranges = v.ranges ++ [value] →
      ((Except.ok v' : Except Fault ChunkedRangeVector) >>= fun v' => v'.verify >>= fun _ => .ok v') =
        .ok v' := by
    intro v' ht' hranges
    rw [ok_bind, verify_eq_ok ht' (hranges ▸ hsep), ok_bind]
  have hnew : Tidy b (v ++ [.single value]) := by
    refine tidy_append.mpr ⟨ht, fun chunk hmem => ?_⟩
    rw [List.mem_singleton.mp hmem]
    exact tidy_single (by cases b <;> decide) value
  have hnew' : ranges (v ++ [.single value]) = v.ranges ++ [value] := by simp [Chunk.single]
  rw [pushBack]
  rcases List.eq_nil_or_concat v with rfl | ⟨before, chunk, rfl⟩
  · exact ⟨_, hfinish _ hnew hnew', hnew, hnew'⟩
  · rw [List.concat_eq_append] at *
    rw [List.getLast?_concat]
    simp only
    split
    next hlt =>
      obtain ⟨hbefore, hchunk⟩ := tidy_append.mp ht
      have hchunk := (tidy_cons.mp hchunk).1
      rw [ranges_append, ranges_cons, ranges_nil, List.append_nil] at hsep
      have hcross := (RangeList.separated_append.mp hsep).2.2
      obtain ⟨l, r, hdata⟩ := (List.eq_nil_or_concat chunk.data).resolve_left hchunk.data_ne_nil
      rw [List.concat_eq_append] at hdata
      have hstop := hchunk.stop_eq_second hdata rfl
      have hlast := hcross r (by simp [hdata]) value List.mem_cons_self
      rw [realmAssert_of (by omega), ok_bind, List.dropLast_concat]
      have hranges : ranges (before ++ [{ chunk with
          data := chunk.data ++ [value]
          count := chunk.count + (value.second - value.first)
          stop := value.second }]) = ranges (before ++ [chunk]) ++ [value] := by simp
      have htidy : Tidy b (before ++ [{ chunk with
          data := chunk.data ++ [value]
          count := chunk.count + (value.second - value.first)
          stop := value.second }]) := by
        refine tidy_append.mpr ⟨hbefore, fun chunk' hmem => ?_⟩
        rw [List.mem_singleton.mp hmem]
        refine ⟨?_, by simp, ?_, ?_⟩
        · rw [head?_append hchunk.data_ne_nil]
          exact hchunk.begin_eq
        · simp [hchunk.count_eq, total_append, width]
        · rw [List.length_append]
          exact hlt
      exact ⟨_, hfinish _ htidy hranges, htidy, hranges⟩
    next => exact ⟨_, hfinish _ hnew hnew', hnew, hnew'⟩

theorem half_maxSize (b : Build) : b.maxSize / 2 + b.maxSize / 2 = b.maxSize ∧ 0 < b.maxSize / 2 := by
  cases b <;> decide

/-- The two halves of a full chunk. -/
theorem split_spec {chunk : Chunk} (h : chunk.Tidy b) (hfull : chunk.data.length = b.maxSize) :
    (chunk.split b).1.Tidy b ∧ (chunk.split b).2.Tidy b ∧
      chunk.data = (chunk.split b).1.data ++ (chunk.split b).2.data ∧
      (chunk.split b).1.data.length = b.maxSize / 2 ∧
      (chunk.split b).2.data.length = b.maxSize / 2 := by
  obtain ⟨heven, hpos⟩ := half_maxSize b
  have hdata : chunk.data = (chunk.split b).1.data ++ (chunk.split b).2.data :=
    (List.take_append_drop _ _).symm
  have hkept : (chunk.split b).1.data.length = b.maxSize / 2 := by
    rw [Chunk.split, List.length_take, hfull]
    omega
  have hmoved : (chunk.split b).2.data.length = b.maxSize / 2 := by
    rw [Chunk.split, List.length_drop, hfull]
    omega
  have hkept_ne : (chunk.split b).1.data ≠ [] := List.ne_nil_of_length_pos (by omega)
  have hmoved_ne : (chunk.split b).2.data ≠ [] := List.ne_nil_of_length_pos (by omega)
  refine ⟨⟨?_, ?_, ?_, by omega⟩, ⟨?_, ?_, rfl, by omega⟩, hdata, hkept, hmoved⟩
  · have := h.begin_eq
    rw [hdata, head?_append hkept_ne] at this
    exact this
  · show (chunk.split b).1.data.getLast?.map Range.second =
      some (((chunk.split b).1.data.getLast?.map Range.second).getD 0)
    cases hlast : (chunk.split b).1.data.getLast? with
    | none => exact absurd (List.getLast?_eq_none_iff.mp hlast) hkept_ne
    | some r => rfl
  · have hcount := h.count_eq
    rw [hdata, total_append] at hcount
    show chunk.count - total (chunk.split b).2.data = _
    omega
  · show (chunk.split b).2.data.head?.map Range.first =
      some (((chunk.split b).2.data.head?.map Range.first).getD 0)
    cases hhead : (chunk.split b).2.data.head? with
    | none => exact absurd (List.head?_eq_none_iff.mp hhead) hmoved_ne
    | some r => rfl
  · show (chunk.split b).2.data.getLast?.map Range.second =
      some (((chunk.split b).2.data.getLast?.map Range.second).getD 0)
    cases hlast : (chunk.split b).2.data.getLast? with
    | none => exact absurd (List.getLast?_eq_none_iff.mp hlast) hmoved_ne
    | some r => rfl

/-- There is room for one more range in the chunk an iterator is in afterwards. -/
theorem Splits.ensureSpace (ht : Tidy b v) (h : Splits v it A (r :: B))
    (hsep : Separated (A ++ r :: B)) :
    ∃ v' it', v.ensureSpace b it = .ok (v', it') ∧ Tidy b v' ∧ Splits v' it' A (r :: B) ∧
      ∃ chunk, v'.outer it' = .ok chunk ∧ chunk.data.length + 1 ≤ b.maxSize := by
  have hranges := h.ranges_eq
  generalize hr : r :: B = B' at h
  cases h with
  | atEnd => cases hr
  | inside before after chunk l l' r hv hdata =>
      subst hv
      rw [ChunkedRangeVector.ensureSpace, outer_append, ok_bind]
      split
      next hroom => exact ⟨_, _, rfl, ht, .inside before after chunk l l' r rfl hdata,
        chunk, outer_append .., hroom⟩
      next hfull =>
        obtain ⟨hbefore, hrest⟩ := tidy_append.mp ht
        obtain ⟨hchunk, hafter⟩ := tidy_cons.mp hrest
        have hsize := hchunk.size_le
        obtain ⟨hkept, hmoved, hsplit, hlkept, hlmoved⟩ := split_spec hchunk (by omega)
        have hv' : (before ++ chunk :: after).take before.length ++ (chunk.split b).1 ::
            (chunk.split b).2 :: (before ++ chunk :: after).drop (before.length + 1) =
            before ++ (chunk.split b).1 :: (chunk.split b).2 :: after := by simp
        have ht' : Tidy b (before ++ (chunk.split b).1 :: (chunk.split b).2 :: after) :=
          tidy_append.mpr ⟨hbefore, tidy_cons.mpr ⟨hkept, tidy_cons.mpr ⟨hmoved, hafter⟩⟩⟩
        have hsame : ranges (before ++ (chunk.split b).1 :: (chunk.split b).2 :: after) =
            ranges (before ++ chunk :: after) := by
          simp [hsplit]
        simp only
        rw [hv', verify_eq_ok ht' (by rw [hsame, hranges]; exact hsep), ok_bind]
        have hplace : (∃ rest, (chunk.split b).1.data = l ++ r :: rest ∧
            l' = rest ++ (chunk.split b).2.data) ∨
            ∃ l₂, l = (chunk.split b).1.data ++ l₂ ∧ (chunk.split b).2.data = l₂ ++ r :: l' := by
          rw [hdata] at hsplit
          rcases List.append_eq_append_iff.mp hsplit with ⟨rest, hK, hM⟩ | ⟨l₂, hl, hM⟩
          · cases rest with
            | nil => exact .inr ⟨[], by simp [hK], hM.symm⟩
            | cons r₀ rest =>
                rw [List.cons_append, List.cons.injEq] at hM
                obtain ⟨rfl, hM⟩ := hM
                exact .inl ⟨rest, hK, hM⟩
          · exact .inr ⟨l₂, hl, hM⟩
        rcases hplace with ⟨rest, hK, rfl⟩ | ⟨l₂, rfl, hM⟩
        · rw [hK, List.length_append, List.length_cons] at hlkept
          rw [if_neg (by show ¬ b.maxSize / 2 ≤ l.length; omega)]
          have hsplits := Splits.inside (v := before ++ (chunk.split b).1 :: (chunk.split b).2 :: after)
            before _ _ l rest r rfl hK
          rw [ranges_cons, ← List.append_assoc] at hsplits
          refine ⟨_, _, rfl, ht', hsplits, _, outer_append .., ?_⟩
          rw [hK, List.length_append, List.length_cons]
          omega
        · rw [if_pos (by rw [← hlkept, List.length_append]; exact Nat.le_add_right ..)]
          have hsplits := Splits.inside (v := before ++ (chunk.split b).1 :: (chunk.split b).2 :: after)
            (before ++ [(chunk.split b).1]) after _ l₂ l' r (by simp) hM
          have hplaces : (⟨(before ++ [(chunk.split b).1]).length, l₂.length⟩ : Iterator) =
              ⟨before.length + 1, ((chunk.split b).1.data ++ l₂).length - b.maxSize / 2⟩ := by
            rw [List.length_append, List.length_append, hlkept]
            simp
          rw [hplaces, ranges_append, ranges_cons, ranges_nil, List.append_nil,
            List.append_assoc] at hsplits
          have hhalf := half_maxSize b
          refine ⟨_, _, rfl, ht', hsplits, (chunk.split b).2, ?_, by omega⟩
          have houter := outer_append (before ++ [(chunk.split b).1]) after (chunk.split b).2
            (((chunk.split b).1.data ++ l₂).length - b.maxSize / 2)
          simpa using houter

theorem insertIdx_length_append (value : Range) (l l' : List Range) :
    (l ++ l').insertIdx l.length value = l ++ value :: l' := by
  induction l with
  | nil => rfl
  | cons r l ih => rw [List.cons_append, List.length_cons, List.insertIdx_succ_cons, ih, List.cons_append]

/-- A chunk with one range more, where there was room. -/
theorem Splits.insertIdx (ht : Tidy b v) (h : Splits v it A (r :: B)) {value : Range}
    (hsep : Separated (A ++ value :: r :: B)) {chunk : Chunk} (houter : v.outer it = .ok chunk)
    (hroom : chunk.data.length + 1 ≤ b.maxSize) :
    ∃ v', List.set v it.outer {
        data := chunk.data.insertIdx it.offset value
        count := chunk.count + (value.second - value.first)
        begin := min chunk.begin value.first
        stop := max chunk.stop value.second } = v' ∧
      Tidy b v' ∧ Splits v' it A (value :: r :: B) := by
  refine ⟨_, rfl, ?_⟩
  cases h with
  | inside before after chunk' l l' r hv hdata =>
      subst hv
      rw [outer_append] at houter
      cases houter
      obtain ⟨hbefore, hrest⟩ := tidy_append.mp ht
      obtain ⟨hchunk, hafter⟩ := tidy_cons.mp hrest
      have hdata' : chunk.data.insertIdx l.length value = l ++ value :: r :: l' := by
        rw [hdata, insertIdx_length_append]
      have hset : ∀ chunk'' : Chunk, List.set (before ++ chunk :: after) before.length chunk'' =
          before ++ chunk'' :: after := by simp
      have hsep' : Separated (l ++ value :: r :: l') := by
        have hsub : before.ranges ++ l ++ value :: r :: (l' ++ after.ranges) =
            before.ranges ++ ((l ++ value :: r :: l') ++ after.ranges) := by simp
        rw [hsub] at hsep
        exact (RangeList.separated_append.mp (RangeList.separated_append.mp hsep).2.1).1
      obtain ⟨hl, hvalue, hcross⟩ := RangeList.separated_append.mp hsep'
      obtain ⟨hne, hnext, hrl⟩ := RangeList.separated_cons.mp hvalue
      rw [hset]
      refine ⟨tidy_append.mpr ⟨hbefore, tidy_cons.mpr ⟨⟨?_, ?_, ?_, ?_⟩, hafter⟩⟩,
        .inside before after _ l (r :: l') value rfl hdata'⟩
      · show (chunk.data.insertIdx l.length value).head?.map Range.first = _
        rw [hdata']
        cases l with
        | nil =>
            have := hchunk.begin_eq_first (l := []) hdata rfl
            have := hnext r List.mem_cons_self
            show some value.first = some (min chunk.begin value.first)
            congr 1
            omega
        | cons r₀ l =>
            have := hchunk.begin_eq
            rw [hdata] at this
            have hbegin : r₀.first = chunk.begin := Option.some.inj this
            have := hcross r₀ List.mem_cons_self value List.mem_cons_self
            have := hl.nonempty r₀ List.mem_cons_self
            show some r₀.first = some (min chunk.begin value.first)
            congr 1
            omega
      · show (chunk.data.insertIdx l.length value).getLast?.map Range.second = _
        have hstop := hchunk.stop_eq
        rw [hdata, getLast?_append (List.cons_ne_nil _ _)] at hstop
        rw [hdata', getLast?_append (List.cons_ne_nil _ _), List.getLast?_cons_cons, hstop]
        have hlast := hrl.total_add_first_le hstop
        have := hnext r List.mem_cons_self
        show some chunk.stop = some (max chunk.stop value.second)
        congr 1
        omega
      · show _ = total (chunk.data.insertIdx l.length value)
        have := hchunk.count_eq
        rw [hdata] at this
        rw [hdata']
        simp only [total_append, total_cons, width] at this ⊢
        omega
      · show (chunk.data.insertIdx l.length value).length ≤ b.maxSize
        rw [hdata']
        rw [hdata] at hroom
        simp only [List.length_append, List.length_cons] at hroom ⊢
        omega

/-- The new range stands where the iterator was, before what was there. -/
theorem Splits.insert (ht : Tidy b v) (h : Splits v it A B) {value : Range}
    (hsep : Separated (A ++ value :: B)) :
    ∃ v' it', v.insert b it value = .ok (v', it') ∧ Tidy b v' ∧ Splits v' it' A (value :: B) := by
  rw [ChunkedRangeVector.insert]
  cases B with
  | nil =>
      have hend := (h.eq_cend_iff).mpr rfl
      have hranges := h.ranges_eq
      rw [List.append_nil] at hranges
      obtain ⟨v', hpush, ht', hranges'⟩ := pushBack_spec ht value (hranges ▸ hsep)
      have hsplits : Splits v' v'.cend (v.ranges ++ [value]) [] := hranges' ▸ .atEnd
      obtain ⟨it', hprev, hsplits'⟩ := hsplits.prev ht'
      rw [if_pos (by rw [hend]; rfl), hpush, ok_bind, hprev, ok_bind]
      exact ⟨v', it', rfl, ht', hranges ▸ hsplits'⟩
  | cons r B =>
      have hsep' : Separated (A ++ r :: B) := by
        obtain ⟨hA, hB, hcross⟩ := RangeList.separated_append.mp hsep
        exact RangeList.separated_append.mpr ⟨hA, (RangeList.separated_cons.mp hB).2.2,
          fun a ha r' hr' => hcross a ha r' (List.mem_cons_of_mem _ hr')⟩
      obtain ⟨v', it', hensure, ht', hsplits, chunk, houter, hroom⟩ := h.ensureSpace ht hsep'
      have hinside : it.outer ≠ v.length := by
        cases h with
        | inside before after chunk l l' r hv hdata =>
            subst hv
            simp
      rw [if_neg hinside, hensure, ok_bind]
      obtain ⟨v'', hset, ht'', hsplits''⟩ := hsplits.insertIdx ht' hsep houter hroom
      have hranges := hsplits''.ranges_eq
      simp only
      rw [houter, ok_bind, hset, verify_eq_ok ht'' (hranges ▸ hsep), ok_bind]
      exact ⟨_, _, rfl, ht'', hsplits''⟩

/-- The iterator stands at what followed the range. -/
theorem Splits.erase (ht : Tidy b v) (h : Splits v it A (r :: B)) (hsep : Separated (A ++ B)) :
    ∃ v' it', v.erase it = .ok (v', it') ∧ Tidy b v' ∧ Splits v' it' A B := by
  cases h with
  | inside before after chunk l l' r hv hdata =>
      subst hv
      obtain ⟨hbefore, hrest⟩ := tidy_append.mp ht
      obtain ⟨hchunk, hafter⟩ := tidy_cons.mp hrest
      have herase : chunk.data.eraseIdx l.length = l ++ l' := by
        rw [hdata]
        simp [List.eraseIdx_append]
      rw [ChunkedRangeVector.erase, outer_append, deref_append before after hdata, ok_bind, ok_bind]
      have hverify : ∀ v' : ChunkedRangeVector, Tidy b v' → v'.ranges = before.ranges ++ l ++
          (l' ++ after.ranges) → v'.verify = .ok () := by
        intro v' ht' hranges
        exact verify_eq_ok ht' (hranges ▸ hsep)
      simp only [herase]
      rcases List.eq_nil_or_concat (l ++ l') with hnil | ⟨l₀, back, hback⟩
      · obtain ⟨rfl, rfl⟩ := List.append_eq_nil_iff.mp hnil
        have herase' : (before ++ chunk :: after).eraseIdx before.length = before ++ after := by
          simp [List.eraseIdx_append]
        have ht' : Tidy b (before ++ after) := tidy_append.mpr ⟨hbefore, hafter⟩
        have hsplits := splits_start before after hafter
        simp only [List.append_nil, List.head?_nil, List.nil_append]
        rw [herase', hverify _ ht' (by simp), ok_bind]
        exact ⟨_, _, rfl, ht', hsplits⟩
      · rw [List.concat_eq_append] at hback
        have hne : l ++ l' ≠ [] := by simp [hback]
        obtain ⟨front, l₁, hfront⟩ := List.exists_cons_of_ne_nil hne
        have hhead : (l ++ l').head? = some front := by rw [hfront]; rfl
        have hlast : (l ++ l').getLast? = some back := by rw [hback, List.getLast?_concat]
        have hchunk' : Chunk.Tidy b
            ⟨l ++ l', front.first, back.second, chunk.count - (r.second - r.first)⟩ := by
          refine ⟨by rw [hhead]; rfl, by rw [hlast]; rfl, ?_, ?_⟩
          · have := hchunk.count_eq
            rw [hdata] at this
            simp only [total_append, total_cons, width] at this ⊢
            omega
          · have := hchunk.size_le
            rw [hdata] at this
            simp only [List.length_append, List.length_cons] at this ⊢
            omega
        rw [hhead, hlast]
        simp only
        generalize hc : (⟨l ++ l', front.first, back.second,
          chunk.count - (r.second - r.first)⟩ : Chunk) = chunk' at hchunk' ⊢
        have hdata' : chunk'.data = l ++ l' := by rw [← hc]
        have hset : List.set (before ++ chunk :: after) before.length chunk' =
            before ++ chunk' :: after := by simp
        have ht' := tidy_append.mpr ⟨hbefore, tidy_cons.mpr ⟨hchunk', hafter⟩⟩
        rw [hset, hverify _ ht' (by simp [hdata']), ok_bind]
        refine ⟨_, _, rfl, ht', ?_⟩
        cases l' with
        | nil =>
            rw [if_neg (by simp)]
            have hsplits := splits_start (before ++ [chunk']) after hafter
            simpa [nextChunk, hdata'] using hsplits
        | cons r' l' =>
            rw [if_pos (by simp)]
            exact .inside before after chunk' l l' r' rfl hdata'

end ChunkedRangeVector

end Realm
