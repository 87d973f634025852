/-
# `Realm.IndexSetCount` — how many indices there are in an interval

`count` starts in the middle of a chunk or at its beginning, goes on by chunks, then by
ranges, and adds what the interval has of the last one.  From the beginning of a chunk
this is right (`countFrom_spec`).

From the middle of a chunk it is not always: where the interval ends in the first range
of the next chunk, the function returns after the rest of its own chunk and leaves out
what the interval has of that range (`CutShort`).  `count_spec` says how much is left
out, and that nothing is left out otherwise.
-/
import CrashRealm.Realm.IndexSetShift

namespace Realm

open Rx (Fault ok_bind)
open RangeList (Range Separated Below Above toSet total width total_append total_cons)
open Positions (below spread rank)

variable {b : Build}

namespace IndexSet

open ChunkedRangeVector

variable {v : IndexSet} {it : Iterator} {A B : List Range} {r : Range} {start stop : Nat}

/-- The interval begins inside a chunk, behind its first index, and ends in the first range
of the next chunk. -/
def CutShort (v : IndexSet) (start stop : Nat) : Prop :=
  ∃ before chunk next after r, v = before ++ chunk :: next :: after ∧
    chunk.begin < start ∧ start < chunk.stop ∧
    next.data.head? = some r ∧ r.first < stop ∧ stop ≤ r.second

/-! ## Which chunk the interval begins in -/

theorem below_members (hv : Valid b v) (hsplits : Splits v it A B) (hA : Below A stop) :
    below (members v) stop = total A + below (toSet B) stop := by
  rw [members_of_splits hsplits, Positions.below_toSet_append (hsplits.ranges_eq ▸ hv.separated) hA]

/-- There is only one chunk that reaches beyond `start` and has none such before it. -/
theorem first_unique (hv : Valid b v) {before after before' after' : ChunkedRangeVector}
    {chunk chunk' : Chunk} (hchunks : v = before ++ chunk :: after)
    (hchunks' : v = before' ++ chunk' :: after') (hbefore : Below (ranges before) start)
    (hbefore' : Below (ranges before') start) (hstop : start < chunk.stop)
    (hstop' : start < chunk'.stop) : before = before' ∧ chunk = chunk' ∧ after = after' := by
  have hlast : ∀ {l : ChunkedRangeVector} {c : Chunk}, c ∈ l → c ∈ v → Below (ranges l) start →
      c.stop ≤ start := by
    intro l c hmem hmemv hl
    have htidy := hv.tidy c hmemv
    obtain ⟨data, r, hdata⟩ := (List.eq_nil_or_concat c.data).resolve_left htidy.data_ne_nil
    rw [List.concat_eq_append] at hdata
    rw [htidy.stop_eq_second hdata rfl]
    exact hl r (List.mem_flatMap.mpr ⟨c, hmem, by simp [hdata]⟩)
  rcases List.append_eq_append_iff.mp (hchunks.symm.trans hchunks') with
    ⟨rest, hb, hrest⟩ | ⟨rest, hb, hrest⟩
  · cases rest with
    | nil =>
        cases hrest
        exact ⟨by rw [hb, List.append_nil], rfl, rfl⟩
    | cons c rest =>
        cases hrest
        exact absurd (hlast (by simp [hb]) (by simp [hchunks]) hbefore') (Nat.not_le_of_lt hstop)
  · cases rest with
    | nil =>
        cases hrest
        exact ⟨by rw [hb, List.append_nil], rfl, rfl⟩
    | cons c rest =>
        cases hrest
        exact absurd (hlast (by simp [hb]) (by simp [hchunks']) hbefore) (Nat.not_le_of_lt hstop')

/-- What it means to be cut short, in terms of the chunk that `find` finds. -/
theorem cutShort_iff (hv : Valid b v) {before after : ChunkedRangeVector} {chunk : Chunk}
    (hchunks : v = before ++ chunk :: after) (hbefore : Below (ranges before) start)
    (hstop : start < chunk.stop) : CutShort v start stop ↔ chunk.begin < start ∧
      ∃ r ∈ (ranges after).head?, r.first < stop ∧ stop ≤ r.second := by
  constructor
  · rintro ⟨before', chunk', next, after', r, hchunks', hbegin, hstop', hhead, hr⟩
    have hbefore' : Below (ranges before') start := by
      intro r' hr'
      have hsep := hv.separated
      have htidy := hv.tidy chunk' (by simp [hchunks'])
      obtain ⟨r₀, l, hdata⟩ := List.exists_cons_of_ne_nil htidy.data_ne_nil
      rw [hchunks', ranges_append, ranges_cons, hdata] at hsep
      have := (RangeList.separated_append.mp hsep).2.2 r' hr' r₀ (by simp)
      have := htidy.begin_eq_first (l := []) hdata rfl
      omega
    obtain ⟨rfl, rfl, rfl⟩ := first_unique hv hchunks hchunks' hbefore hbefore' hstop hstop'
    obtain ⟨l, hdata⟩ : ∃ l, next.data = r :: l := List.head?_eq_some_iff.mp hhead
    exact ⟨hbegin, r, by simp [hdata], hr⟩
  · rintro ⟨hbegin, r, hhead, hr⟩
    cases after with
    | nil => cases hhead
    | cons next after =>
        have htidy := hv.tidy next (by simp [hchunks])
        obtain ⟨r₀, l, hdata⟩ := List.exists_cons_of_ne_nil htidy.data_ne_nil
        rw [ranges_cons, hdata] at hhead
        cases hhead
        exact ⟨before, chunk, next, after, _, hchunks, hbegin, hstop, by rw [hdata]; rfl, hr⟩

/-! ## From the beginning of a chunk -/

theorem countFrom_spec (hv : Valid b v) {before after : ChunkedRangeVector}
    (hchunks : v = before ++ after) (hbefore : Below (ranges before) stop) {ret d : Nat}
    (hret : ret + d = total (ranges before)) :
    ∃ n, countFrom v ⟨before.length, 0⟩ stop ret = .ok n ∧ n + d = below (members v) stop := by
  obtain ⟨passed, rest, hafter, hlength, hbelow, htotal⟩ := walkChunks_spec
    (fun A x => Below A stop ∧ x + d = total A) (fun chunk _ => chunk.stop ≤ stop)
    (fun chunk x => x + chunk.count)
    (fun {before after chunk x} hchunks hP hmore => by
      refine ⟨below_chunk hv hchunks hP.1 (by simpa using hmore), ?_⟩
      rw [total_append, count_chunk hv hchunks, ← hP.2]
      omega)
    after before hchunks (x := ret) ⟨hbefore, hret⟩
  have hchunks' : v = (before ++ passed) ++ rest := by rw [hchunks, hafter, List.append_assoc]
  have hsplits := splits_start (before ++ passed) rest (tidy_append.mp (hchunks' ▸ hv.tidy)).2
  rw [← hchunks', List.length_append] at hsplits
  obtain ⟨it, A, B, n, hwalk, hsplits', hP, hend⟩ := walk_spec
    (fun A x => Below A stop ∧ x + d = total A) (fun _ r _ => r.second ≤ stop)
    (fun r x => x + (r.second - r.first))
    (fun {it A r B x} _ hP hmore => by
      refine ⟨below_concat hP.1 (by simpa using hmore), ?_⟩
      rw [total_append, total_cons, width, RangeList.total_nil, ← hP.2]
      omega)
    hv.tidy hsplits ⟨hbelow, htotal⟩ (length_lt_rounds hsplits)
  obtain ⟨hA, hn⟩ := hP
  have hdrop : v.drop before.length = after := by
    rw [hchunks]
    simp
  have hplace : (if passed.length = 0 then (⟨before.length, 0⟩ : Iterator)
      else ⟨before.length + passed.length, 0⟩) = ⟨before.length + passed.length, 0⟩ := by
    split
    next hzero => rw [hzero, Nat.add_zero]
    next => rfl
  rw [countFrom, wholeChunks]
  simp only
  rw [hdrop, realmAssert_of (fun _ => trivial), ok_bind, hlength, hplace, wholeRanges, hwalk, ok_bind]
  simp only
  rw [rangeAt_eq hsplits', ok_bind, below_members hv hsplits' hA, ← hn]
  refine ⟨_, rfl, ?_⟩
  have hsep : Separated (A ++ B) := hsplits'.ranges_eq ▸ hv.separated
  cases B with
  | nil => simp
  | cons r B =>
      have hr : stop < r.second := by simpa using hend r rfl
      obtain ⟨-, -, -, -, hrB⟩ := RangeList.separated_middle.mp hsep
      have hrest : below (toSet B) stop = 0 := Positions.below_toSet_eq_zero fun r' hr' => by
        have := hrB r' hr'
        omega
      rw [Positions.below_toSet_cons (RangeList.separated_append.mp hsep).2.1, hrest]
      simp only [List.head?_cons, Option.elim_some]
      split
      next hlt => omega
      next hge => omega

/-! ## From the middle of a chunk -/

/-- What the rest of its own chunk adds: the walk ends at a range that the interval ends in
or before, or at the next chunk. -/
theorem restOfChunk_spec (hv : Valid b v) {before after : ChunkedRangeVector} {chunk : Chunk}
    (hchunks : v = before ++ chunk :: after) {d : Nat} : ∀ {l' l : List Range} {ret k : Nat},
    chunk.data = l ++ l' → l ≠ [] → Below (ranges before ++ l) stop →
    ret + d = total (ranges before ++ l) → l'.length < k →
    ∃ it ret', restOfChunk stop k v
        (if l' = [] then ⟨before.length + 1, 0⟩ else ⟨before.length, l.length⟩) ret = .ok (it, ret') ∧
      ((∃ A r B, Splits v it A (r :: B) ∧ Below A stop ∧ ret' + d = total A ∧ it.offset ≠ 0 ∧
          stop ≤ r.second ∧ ∃ l₁ l₂, chunk.data = l₁ ++ r :: l₂) ∨
        it = ⟨before.length + 1, 0⟩ ∧ Below (ranges (before ++ [chunk])) stop ∧
          ret' + d = total (ranges (before ++ [chunk]))) := by
  intro l'
  induction l' with
  | nil =>
      intro l ret k hdata hl hA hret hk
      obtain ⟨k, rfl⟩ := Nat.exists_eq_succ_of_ne_zero (Nat.ne_of_gt hk)
      have hranges : ranges before ++ l = ranges (before ++ [chunk]) := by simp [hdata]
      have hchunks' : v = (before ++ [chunk]) ++ after := by rw [hchunks, List.append_assoc]; rfl
      have hsplits := splits_start (before ++ [chunk]) after (tidy_append.mp (hchunks' ▸ hv.tidy)).2
      rw [← hchunks', List.length_append] at hsplits
      rw [if_pos rfl, restOfChunk, walk]
      have hat : rangeAt v ⟨before.length + 1, 0⟩ = .ok (ranges after).head? := rangeAt_eq hsplits
      rw [hat, ok_bind]
      rw [hranges] at hA hret
      refine ⟨⟨before.length + 1, 0⟩, ret, ?_, .inr ⟨rfl, hA, hret⟩⟩
      cases (ranges after).head? with
      | none => rfl
      | some r => simp
  | cons r l' ih =>
      intro l ret k hdata hl hA hret hk
      obtain ⟨k, rfl⟩ := Nat.exists_eq_succ_of_ne_zero (Nat.ne_of_gt (Nat.zero_lt_of_lt hk))
      have hsplits := Splits.inside before after chunk l l' r hchunks hdata
      have hoffset : l.length ≠ 0 := fun h => hl (List.length_eq_zero_iff.mp h)
      rw [if_neg (List.cons_ne_nil _ _), restOfChunk, walk, rangeAt_eq hsplits, ok_bind]
      simp only [List.head?_cons]
      split
      next hmore =>
        have hmore : r.second < stop := by
          simp only [decide_eq_true_eq] at hmore
          exact hmore.1
        have hnext : next v ⟨before.length, l.length⟩ =
            .ok (if l' = [] then ⟨before.length + 1, 0⟩ else ⟨before.length, (l ++ [r]).length⟩) := by
          rw [next, hchunks, outer_append, ok_bind, hdata]
          cases l' with
          | nil => simp [nextChunk]
          | cons r' l' => simp
        rw [hnext, ok_bind]
        have hassoc : ranges before ++ (l ++ [r]) = ranges before ++ l ++ [r] :=
          (List.append_assoc ..).symm
        refine ih (l := l ++ [r]) (by rw [hdata, List.append_assoc]; rfl) (by simp) ?_ ?_
          (Nat.lt_of_succ_lt_succ hk)
        · rw [hassoc]
          exact below_concat hA hmore.le
        · rw [hassoc, total_append, total_cons, width, RangeList.total_nil, ← hret]
          omega
      next hmore =>
        simp only [decide_eq_true_eq] at hmore
        exact ⟨_, ret, rfl, .inl ⟨_, r, _, hsplits, hA, hret, hoffset,
          Nat.le_of_not_lt fun h => hmore ⟨h, hoffset⟩, l, l', hdata⟩⟩

/-- What `count` returns and what it leaves out are the indices of the interval together;
it leaves something out just where it is cut short. -/
theorem count_spec (hv : Valid b v) (hle : start ≤ stop) :
    ∃ n m, count v start stop = .ok n ∧
      n + m + below (members v) start = below (members v) stop ∧ (m ≠ 0 ↔ CutShort v start stop) := by
  obtain ⟨it, A, B, hfind, hsplits, hA, hB⟩ := find_cbegin hv start
  have hsep : Separated (A ++ B) := hsplits.ranges_eq ▸ hv.separated
  have hstart := below_members hv hsplits hA
  have hstop := below_members hv hsplits (hA.mono hle)
  rw [count, hfind, ok_bind, rangeAt_eq hsplits, ok_bind, hstart]
  generalize hB' : B = B' at hsplits
  cases hsplits with
  | atEnd =>
      subst hB'
      refine ⟨0, 0, rfl, ?_, ?_⟩
      · rw [hstop, Positions.below_toSet_eq_zero fun _ hr => absurd hr List.not_mem_nil,
          Positions.below_toSet_eq_zero fun _ hr => absurd hr List.not_mem_nil]
        omega
      · refine ⟨fun h => absurd rfl h, ?_⟩
        rintro ⟨before, chunk, next, after, -, hchunks, -, hlt, -⟩
        have htidy := hv.tidy chunk (by simp [hchunks])
        obtain ⟨l, r, hdata⟩ := (List.eq_nil_or_concat chunk.data).resolve_left htidy.data_ne_nil
        rw [List.concat_eq_append] at hdata
        rw [htidy.stop_eq_second hdata rfl] at hlt
        exact absurd (hA r (List.mem_flatMap.mpr ⟨chunk, by simp [hchunks], by simp [hdata]⟩))
          (Nat.not_le_of_lt hlt)
  | inside before after chunk l l' r hchunks hdata =>
      subst hB'
      have hlt : start < r.second := hB r List.mem_cons_self
      have hmem : chunk ∈ v := by simp [hchunks]
      have htidy := hv.tidy chunk hmem
      have hschunk := separated_chunk hv.separated hmem
      have hbounds := chunk_bounds htidy hschunk (r := r) (by simp [hdata])
      have hbefore : Below (ranges before) start := fun r' hr' => hA r' (List.mem_append_left _ hr')
      have hcut : CutShort v start stop ↔ _ := cutShort_iff hv hchunks hbefore (hlt.trans_le hbounds.2)
      obtain ⟨-, hsB, hne, -, hrB⟩ := RangeList.separated_middle.mp hsep
      have hsrB := (RangeList.separated_append.mp hsep).2.1
      have hzero : ∀ {y : Nat}, y ≤ r.second → below (toSet (l' ++ ranges after)) y = 0 := by
        intro y hy
        refine Positions.below_toSet_eq_zero fun r' hr' => ?_
        have := hrB r' hr'
        omega
      have hwide : ∀ {y : Nat}, y ≤ r.second →
          below (toSet (r :: (l' ++ ranges after))) y = y - r.first := by
        intro y hy
        rw [Positions.below_toSet_cons hsrB, hzero hy, Nat.min_eq_left hy, Nat.add_zero]
      -- an interval that ends in the first range ends before the next chunk
      have hnotCut : stop ≤ r.second → ¬ CutShort v start stop := by
        rw [hcut]
        rintro hend ⟨-, r₂, hhead, hfirst, -⟩
        have := hrB r₂ (List.mem_append_right _ (List.mem_of_mem_head? hhead))
        omega
      have hnone : ∀ {m : Nat}, m = 0 → ¬ CutShort v start stop →
          (m ≠ 0 ↔ CutShort v start stop) := fun hm hnot =>
        ⟨fun h => absurd hm h, fun h => absurd h hnot⟩
      rw [hwide hlt.le]
      simp only [List.head?_cons]
      split
      next hpast =>
        refine ⟨0, 0, rfl, ?_, hnone rfl (hnotCut (hpast.trans hne.le))⟩
        rw [hstop, hwide (hpast.trans hne.le)]
        omega
      next hmeet =>
        split
        next hend =>
          refine ⟨_, 0, rfl, ?_, hnone rfl (hnotCut hend)⟩
          rw [hstop, hwide hend]
          omega
        next hbeyond =>
          have hbeyond : r.second < stop := Nat.lt_of_not_le hbeyond
          have hbegin : chunk.begin < start ↔ r.first < start ∨ l.length ≠ 0 := by
            cases l with
            | nil =>
                rw [htidy.begin_eq_first (l := []) hdata rfl]
                simp
            | cons r₀ l =>
                have := htidy.begin_eq_first (l := []) hdata rfl
                have := hA r₀ (List.mem_append_right _ List.mem_cons_self)
                have := hschunk.nonempty r₀ (by simp [hdata])
                refine ⟨fun _ => .inr (by simp), fun _ => by omega⟩
          have hAr : Below (ranges before ++ (l ++ [r])) stop := by
            rw [← List.append_assoc]
            exact below_concat (hA.mono hle) hbeyond.le
          split
          next hmiddle =>
            have hbegin := hbegin.mpr hmiddle
            have hnext : next v ⟨before.length, l.length⟩ =
                .ok (if l' = [] then ⟨before.length + 1, 0⟩ else ⟨before.length, (l ++ [r]).length⟩) := by
              rw [next, hchunks, outer_append, ok_bind, hdata]
              cases l' with
              | nil => simp [nextChunk]
              | cons r' l' => simp
            have hret : r.second - max r.first start + (total (ranges before ++ l) + (start - r.first)) =
                total (ranges before ++ (l ++ [r])) := by
              rw [← List.append_assoc, total_append (ranges before ++ l), total_cons, width,
                RangeList.total_nil]
              omega
            have hk : l'.length < rounds v := by
              rw [rounds, hchunks]
              simp only [ranges_append, ranges_cons, hdata, List.length_append, List.length_cons]
              omega
            obtain ⟨it', ret', hwalk, houtcome⟩ := restOfChunk_spec hv hchunks (l := l ++ [r])
              (by rw [hdata, List.append_assoc]; rfl) (by simp) hAr hret hk
            rw [hnext, ok_bind, hwalk, ok_bind]
            simp only
            rcases houtcome with ⟨A', r', B', hsplits', hA', hret', hoffset, hend', l₁, l₂, hdata'⟩ |
              ⟨rfl, hA', hret'⟩
            · -- the interval ends in this chunk
              have hsep' : Separated (A' ++ r' :: B') := hsplits'.ranges_eq ▸ hv.separated
              obtain ⟨-, -, hne', -, hr'B⟩ := RangeList.separated_middle.mp hsep'
              have hwide' : below (toSet (r' :: B')) stop = stop - r'.first := by
                rw [Positions.below_toSet_cons (RangeList.separated_append.mp hsep').2.1,
                  Nat.min_eq_left hend', Positions.below_toSet_eq_zero fun r'' hr'' => by
                    have := hr'B r'' hr''
                    omega, Nat.add_zero]
              rw [rangeAt_eq hsplits', ok_bind]
              simp only [List.head?_cons]
              rw [if_pos hend']
              refine ⟨_, 0, rfl, ?_, hnone rfl ?_⟩
              · rw [below_members hv hsplits' hA', hwide']
                split
                next hin => omega
                next hout =>
                  have : stop ≤ r'.first := Nat.le_of_not_lt fun h => hout ⟨h, hoffset⟩
                  omega
              · rw [hcut]
                rintro ⟨-, r₂, hhead, hfirst, -⟩
                have hall := hv.separated
                rw [hchunks, ranges_append, ranges_cons] at hall
                have hcross := (RangeList.separated_append.mp
                  (RangeList.separated_append.mp hall).2.1).2.2 r' (by simp [hdata']) r₂
                  (List.mem_of_mem_head? hhead)
                omega
            · -- the interval goes beyond this chunk
              have hchunks' : v = (before ++ [chunk]) ++ after := by
                rw [hchunks, List.append_assoc]
                rfl
              have hsplits' := splits_start (before ++ [chunk]) after
                (tidy_append.mp (hchunks' ▸ hv.tidy)).2
              rw [← hchunks'] at hsplits'
              have hlength : (before ++ [chunk]).length = before.length + 1 := by simp
              rw [hlength] at hsplits'
              rw [rangeAt_eq hsplits', ok_bind]
              have htotal := below_members hv hsplits' hA'
              have hsafter : Separated (ranges after) := by
                have hall := hv.separated
                rw [hchunks', ranges_append] at hall
                exact (RangeList.separated_append.mp hall).2.1
              generalize hranges : ranges after = rest at htotal hsafter hcut
              cases rest with
              | nil =>
                  refine ⟨ret', 0, rfl, ?_, hnone rfl fun h => ?_⟩
                  · rw [htotal, Positions.below_toSet_eq_zero fun _ hr => absurd hr List.not_mem_nil]
                    omega
                  · obtain ⟨-, r₂, hhead, -⟩ := hcut.mp h
                    cases hhead
              | cons r₂ rest =>
                  obtain ⟨hne₂, hr₂, hsrest⟩ := RangeList.separated_cons.mp hsafter
                  simp only [List.head?_cons, ne_eq, not_true_eq_false, and_false, if_false]
                  split
                  next hend₂ =>
                    have hrest : below (toSet (r₂ :: rest)) stop = stop - r₂.first := by
                      rw [Positions.below_toSet_cons hsafter, Nat.min_eq_left hend₂,
                        Positions.below_toSet_eq_zero fun r'' hr'' => by
                          have := hr₂ r'' hr''
                          omega, Nat.add_zero]
                    refine ⟨ret', stop - r₂.first, rfl, ?_, ?_⟩
                    · rw [htotal, hrest]
                      omega
                    · rw [hcut]
                      constructor
                      · intro hm
                        exact ⟨hbegin, r₂, rfl, by omega, hend₂⟩
                      · rintro ⟨-, r₃, hhead, hfirst, -⟩
                        cases hhead
                        omega
                  next hbeyond₂ =>
                    obtain ⟨n, hfrom, hn⟩ := countFrom_spec hv hchunks' hA' hret'
                    rw [hlength] at hfrom
                    refine ⟨n, 0, hfrom, by omega, hnone rfl fun h => ?_⟩
                    obtain ⟨-, r₃, hhead, -, hend₃⟩ := hcut.mp h
                    cases hhead
                    exact hbeyond₂ hend₃
          next hnotMiddle =>
            have hl : l = [] := List.length_eq_zero_iff.mp (by
              by_contra h
              exact hnotMiddle (.inr h))
            subst hl
            have hfirst : start ≤ r.first := Nat.le_of_not_lt fun h => hnotMiddle (.inl h)
            rw [List.append_nil] at *
            obtain ⟨n, hfrom, hn⟩ := countFrom_spec hv hchunks (hbefore.mono hle)
              (d := total (ranges before)) (Nat.zero_add _)
            refine ⟨n, 0, hfrom, by omega, hnone rfl fun h => ?_⟩
            exact hnotMiddle (hbegin.mp (hcut.mp h).1)

/-- Two chunks: four ranges of one index, and one of four. -/
def sample : IndexSet := [⟨[⟨0, 1⟩, ⟨2, 3⟩, ⟨4, 5⟩, ⟨6, 7⟩], 0, 7, 4⟩, ⟨[⟨8, 12⟩], 8, 12, 4⟩]

theorem sample_valid : Valid .debug sample := by
  refine ⟨fun chunk hmem => ?_, ⟨by decide, by decide⟩⟩
  simp only [sample, List.mem_cons, List.not_mem_nil, or_false] at hmem
  rcases hmem with rfl | rfl
  · exact ⟨rfl, rfl, rfl, by decide⟩
  · exact ⟨rfl, rfl, rfl, by decide⟩

/-- From 1 to 10 there are five indices; those in the second chunk are left out. -/
example : count sample 1 10 = .ok 3 := by decide

end IndexSet

end Realm
