/-
# `RxFoundation.DictionarySpec` — `Dictionary` is a finite partial map

`Dictionary` keeps the laws of a derived class with nothing asked of it in
return: it can always grow and always shrink.  So every program over
`Dictionary` objects computes the maps' own answers, and no reachable object
ever leaves the invariant.
-/
import CrashRealm.RxFoundation.BasicHashTypeInfo
import CrashRealm.RxFoundation.HashClassSpec

namespace Rx

open OpenAddressing BasicHashTable

variable {K V : Type} {T : TableType K V}

/-- The bucket count `grow` asks for. -/
theorem max_nextPowerOf2_64 {n : Nat} (h : PowerOrZero n) :
    max 64 (Math.nextPowerOf2_64 (sub64 n 1)) = max 64 n := by
  rcases h with rfl | ⟨k, hk, rfl⟩
  · decide
  · have hpos := Nat.two_pow_pos k
    have hlt : 2 ^ k < 2 ^ 64 := Nat.pow_lt_pow_right (by decide) (by omega)
    rw [sub64_of_le hlt hpos, Math.nextPowerOf2_64_pred hk]

theorem PowerOrZero.max_64 {n : Nat} (h : PowerOrZero n) : PowerOrZero (max 64 n) := by
  rcases Nat.le_total 64 n with hle | hle
  · rwa [Nat.max_eq_right hle]
  · rw [Nat.max_eq_left hle]
    exact Or.inr ⟨6, by decide, rfl⟩

namespace Dictionary

/-- The invariant: well formed, and fewer entries than `INT_MAX`. -/
structure Inv (T : TableType K V) (d : Dictionary K V) : Prop where
  wellFormed : WellFormed T d
  few : d.numEntries < intMax

theorem Cleared.inv {d : Dictionary K V} (h : Cleared T d) : Inv T d :=
  ⟨h.wellFormed, by rw [h.entries]; decide⟩

theorem Inv.of_same {d d' : Dictionary K V} (h : Inv T d) (hwf : WellFormed T d')
    (hs : SameContents T d d') : Inv T d' :=
  ⟨hwf, by rw [hs.entries]; exact h.few⟩

theorem entriesOk_eq (n : Nat) : entriesOk n = true := rfl

/-- A freshly allocated array put in order. -/
theorem init_spec (n : Nat) (d : Dictionary K V) :
    ∃ d', init T n d = .ok d' ∧ Cleared T d' ∧
      d'.buckets.length = getMinBucketToReserveForEntries n := by
  have hpow := Laws.getMinBucketToReserveForEntries_pow n
  by_cases h0 : getMinBucketToReserveForEntries n = 0
  · refine ⟨⟨[], 0, 0, d.epoch⟩, ?_, cleared_of_empty (Or.inl rfl) rfl, h0.symm⟩
    simp only [init, allocatedBuckets, h0, bne_self_eq_false, List.replicate_zero]
  · obtain ⟨d', hrun, hclr, hlen⟩ := initEmpty_spec (T := T)
      (t := { d with buckets := List.replicate (getMinBucketToReserveForEntries n) T.raw })
      (entriesOk_eq 0) (by simpa only [List.length_replicate] using hpow)
    refine ⟨d', ?_, hclr, hlen.trans List.length_replicate⟩
    simp only [init, allocatedBuckets, bne_iff_ne.mpr h0, hrun]

/-- A rehash into an array that is no smaller, and has at least 64 buckets. -/
theorem grow_wellFormed {d : Dictionary K V} {n : Nat} (h : WellFormed T d)
    (hpow : PowerOrZero n) (hle : d.buckets.length ≤ n) :
    ∃ d', grow T n d = .ok d' ∧ WellFormed T d' ∧ SameContents T d d' ∧ d'.numTombstones = 0 ∧
      d'.buckets.length = max 64 n := by
  have hnew : PowerOrZero (List.replicate (max 64 n) T.raw).length := by
    rw [List.length_replicate]
    exact hpow.max_64
  by_cases hnil : d.buckets = []
  · obtain ⟨d', hrun, hclr, hlen⟩ := initEmpty_spec (T := T)
      (t := { d with buckets := List.replicate (max 64 n) T.raw }) (entriesOk_eq 0) hnew
    have h0 := h.entries_eq_zero (by rw [hnil]; rfl)
    refine ⟨d', ?_, hclr.wellFormed, ⟨?_, ?_⟩, hclr.tombs, hlen.trans List.length_replicate⟩
    · simp only [grow, allocatedBuckets, max_nextPowerOf2_64 hpow, hnil, List.isEmpty_nil, if_true]
      simpa only [hnil] using hrun
    · rw [hclr.entries, h0]
    · exact fun b => iff_of_false (hclr.none_stored b) (h.none_stored h0 b)
  · have hne : d.buckets.length ≠ 0 := fun h0 => hnil (List.eq_nil_of_length_eq_zero h0)
    have hroom := h.room hne
    obtain ⟨d', hrun, hwf, htomb, hent, hlen, hst⟩ := moveFromOldBuckets_spec 
      (t := { d with buckets := List.replicate (max 64 n) T.raw }) hnew h.distinct
      (by rw [List.length_replicate, ← h.entries]; omega)
      (fun k _ => entriesOk_eq k)
    rw [← h.entries] at hent
    refine ⟨d', ?_, hwf, ⟨hent, hst⟩, htomb, hlen.trans List.length_replicate⟩
    simp only [grow, allocatedBuckets, max_nextPowerOf2_64 hpow, List.isEmpty_iff, hnil, if_false]
    exact hrun

theorem grow_spec {d : Dictionary K V} {n : Nat} (h : Inv T d) (hpow : PowerOrZero n)
    (hle : d.buckets.length ≤ n) :
    ∃ d', grow T n d = .ok d' ∧ Inv T d' ∧ SameContents T d d' ∧ d'.numTombstones = 0 ∧
      n ≤ d'.buckets.length ∧ 64 ≤ d'.buckets.length := by
  obtain ⟨d', hrun, hwf, hsame, htomb, hlen⟩ := grow_wellFormed h.wellFormed hpow hle
  refine ⟨d', hrun, h.of_same hwf hsame, hsame, htomb, ?_, ?_⟩
  · rw [hlen]
    exact Nat.le_max_right ..
  · rw [hlen]
    exact Nat.le_max_left ..

/-- The end of `shrink_and_clear`, whatever number of buckets is asked for. -/
theorem startOver_spec {d : Dictionary K V} (h : WellFormed T d) (num : Nat) :
    ∃ d', (if num = getNumBuckets d then initEmpty entriesOk T d else init T num d) = .ok d' ∧
      Cleared T d' := by
  split
  next =>
    obtain ⟨d', hrun, hclr, -⟩ := initEmpty_spec (T := T) (entriesOk_eq 0) h.pow
    exact ⟨d', hrun, hclr⟩
  next =>
    obtain ⟨d', hrun, hclr, -⟩ := init_spec (T := T) num d
    exact ⟨d', hrun, hclr⟩

/-- Shrinking never asks for an undefined shift: the exponent is at most 31. -/
theorem shrinkAndClear_spec {d : Dictionary K V} (h : Inv T d) :
    ∃ d', shrinkAndClear T d = .ok d' ∧ Cleared T d' := by
  have hint : intMax = 2147483647 := rfl
  have hfew := h.few
  by_cases h0 : d.numEntries = 0
  · simp only [shrinkAndClear, h0, if_true, ok_bind]
    exact startOver_spec h.wellFormed 0
  · have harg : u32 (u32 d.numEntries + 1) = d.numEntries + 1 := by
      rw [u32_of_lt (n := d.numEntries) (by omega), u32_of_lt (by omega)]
    have hlog : Math.log2_32_Ceil (d.numEntries + 1) ≤ 31 := by
      rw [Math.log2_32_Ceil_eq (Nat.succ_pos _) (by omega)]
      exact Nat.size_le.mpr (by show d.numEntries < 2 ^ 31; omega)
    obtain ⟨i, hshift⟩ : ∃ i, shiftLeftOne (Math.log2_32_Ceil (d.numEntries + 1)) = .ok i := by
      rw [shiftLeftOne]
      split
      next => exact ⟨_, rfl⟩
      next hgt =>
        rw [if_pos (by omega)]
        exact ⟨_, rfl⟩
    simp only [shrinkAndClear, h0, if_false, harg, hshift, ok_bind]
    exact startOver_spec h.wellFormed _

/-- A copy takes over the other's contents and its bucket count. -/
theorem copyFrom_wellFormed {d other : Dictionary K V} (h : WellFormed T other) :
    ∃ d', copyFrom T d other = .ok d' ∧ WellFormed T d' ∧ SameContents T other d' ∧
      d'.buckets.length = other.buckets.length := by
  by_cases h0 : getNumBuckets other = 0
  · have hent := h.entries_eq_zero h0
    have hclr : Cleared T (⟨[], 0, 0, d.epoch⟩ : Dictionary K V) :=
      cleared_of_empty (Or.inl rfl) rfl
    refine ⟨⟨[], 0, 0, d.epoch⟩, ?_, hclr.wellFormed, ⟨hent.symm, ?_⟩, h0.symm⟩
    · simp only [copyFrom, allocatedBuckets, h0, bne_self_eq_false, List.replicate_zero]
    · exact fun b => iff_of_false (hclr.none_stored b) (h.none_stored hent b)
  · obtain ⟨d', hrun, hwf, hsame, hlen⟩ := BasicHashTable.copyFrom_spec (T := T)
      (t := { d with buckets := List.replicate (getNumBuckets other) T.raw })
      h List.length_replicate (entriesOk_eq _)
    refine ⟨d', ?_, hwf, hsame, hlen⟩
    simp only [copyFrom, allocatedBuckets, bne_iff_ne.mpr h0, hrun]

theorem copyFrom_spec {d other : Dictionary K V} (h : Inv T other) :
    ∃ d', copyFrom T d other = .ok d' ∧ Inv T d' ∧ SameContents T other d' := by
  obtain ⟨d', hrun, hwf, hsame, -⟩ := copyFrom_wellFormed (d := d) h.wellFormed
  exact ⟨d', hrun, h.of_same hwf hsame, hsame⟩

theorem Inv.epoch {d : Dictionary K V} (h : Inv T d) (epoch : Nat) :
    Inv T { d with epoch := epoch } :=
  ⟨h.wellFormed.epoch epoch, h.few⟩

/-- `swap` hands each object the other's table, and keeps the epochs. -/
theorem swap_eq (d other : Dictionary K V) : ∃ e e',
    swap false d other = ({ other with epoch := e }, { d with epoch := e' }) :=
  ⟨_, _, rfl⟩

theorem swap_self_eq (d : Dictionary K V) : ∃ e,
    swap true d d = ({ d with epoch := e }, { d with epoch := e }) :=
  ⟨_, rfl⟩

theorem copyConstruct_spec {other : Dictionary K V} (h : Inv T other) :
    ∃ d', copyConstruct T other = .ok d' ∧ Inv T d' ∧ SameContents T other d' := by
  obtain ⟨d, hrun, -⟩ := init_spec (T := T) 0 fresh
  obtain ⟨d', hrun', hinv, hsame⟩ := copyFrom_spec (d := d) h
  exact ⟨d', by simp only [copyConstruct, hrun, hrun', ok_bind], hinv, hsame⟩

theorem moveConstruct_spec {other : Dictionary K V} (h : Inv T other) :
    ∃ d' rest, moveConstruct T other = .ok (d', rest) ∧ Inv T d' ∧ SameContents T other d' ∧
      Inv T rest ∧ Cleared T rest := by
  obtain ⟨d, hrun, hclr, -⟩ := init_spec (T := T) 0 fresh
  obtain ⟨e, e', hswap⟩ := swap_eq d other
  refine ⟨{ other with epoch := e }, { d with epoch := e' }, ?_, h.epoch e, same_epoch other e,
    Cleared.inv (hclr.epoch e'), hclr.epoch e'⟩
  simp only [moveConstruct, hrun, hswap, ok_bind]

theorem moveAssign_self_spec (d : Dictionary K V) :
    ∃ d' rest, moveAssign T true d d = .ok (d', rest) ∧ Inv T d' ∧ Cleared T d' := by
  obtain ⟨d₀, hrun, hclr, -⟩ := init_spec (T := T) 0 d
  refine ⟨_, _, by simp only [moveAssign, hrun, ok_bind, swap, if_true]; rfl, ?_, ?_⟩
  · exact Cleared.inv (hclr.epoch _)
  · exact hclr.epoch _

theorem moveAssign_spec (d : Dictionary K V) {other : Dictionary K V} (h : Inv T other) :
    ∃ d' rest, moveAssign T false d other = .ok (d', rest) ∧ Inv T d' ∧
      SameContents T other d' ∧ Inv T rest ∧ Cleared T rest := by
  obtain ⟨d₀, hrun, hclr, -⟩ := init_spec (T := T) 0 d
  obtain ⟨e, e', hswap⟩ := swap_eq d₀ other
  refine ⟨{ other with epoch := e }, { d₀ with epoch := e' }, ?_, h.epoch e, same_epoch other e,
    Cleared.inv (hclr.epoch e'), hclr.epoch e'⟩
  simp only [moveAssign, hrun, hswap, ok_bind]

/-- `Dictionary` keeps the laws, and nothing is asked of its states. -/
def laws (T : TableType K V) : Laws (hashClass (K := K) (V := V)) T where
  Inv := Inv T
  GrowOk _ _ := True
  ShrinkOk _ := True
  ConstructOk _ := True
  wellFormed h := h.wellFormed
  few h := h.few
  entriesOk _ := rfl
  table_setTable _ _ := rfl
  setTable_setTable _ _ _ := rfl
  inv_setTable _ hwf hfew _ := ⟨hwf, hfew⟩
  growOk_bump _ := trivial
  shrinkOk_bump _ := trivial
  grow h _ hpow hle := grow_spec h hpow hle
  shrink h _ := by
    obtain ⟨d', hrun, hclr⟩ := shrinkAndClear_spec h
    exact ⟨d', hrun, Cleared.inv hclr, hclr⟩
  construct {n} _ := by
    obtain ⟨d', hrun, hclr, -⟩ := init_spec (T := T) n fresh
    exact ⟨d', hrun, Cleared.inv hclr, hclr⟩
  copyConstruct h := copyConstruct_spec h
  moveConstruct h := moveConstruct_spec h
  assign_self _ := rfl
  assign _ h := copyFrom_spec h
  moveAssign_self {d} _ := moveAssign_self_spec d
  moveAssign {d _} _ h := moveAssign_spec d h
  swap_self {d} h := by
    obtain ⟨e, hswap⟩ := swap_self_eq d
    exact ⟨_, _, congrArg Except.ok hswap, h.epoch e, same_epoch d e⟩
  swap {d other} hd ho := by
    obtain ⟨e, e', hswap⟩ := swap_eq d other
    exact ⟨_, _, congrArg Except.ok hswap, ho.epoch e, same_epoch other e, hd.epoch e',
      same_epoch d e'⟩

/-! ## Programs -/

/-- The most entries a program may have in one object. -/
def maxEntries : Nat := 2 ^ 30

/-- Everything is granted that leaves the entry counter in range. -/
theorem callOk {d : Dictionary K V} (c : Call K V)
    (h : ∀ key ∈ c.stored?, Laws.Absent T d key → d.numEntries + 1 < intMax) :
    (laws T).CallOk d c := by
  have hstore : ∀ key ∈ c.stored?, (laws T).StoreOk d key := fun key hkey habs =>
    ⟨⟨fun _ => trivial, fun _ _ => trivial⟩, h key hkey habs⟩
  cases c with
  | insert key value => exact hstore key rfl
  | findAndConstruct key => exact hstore key rfl
  | subscript key => exact hstore key rfl
  | store key value => exact hstore key rfl
  | clear => exact fun _ _ => trivial
  | reserve n => exact fun _ => trivial
  | erase key => trivial
  | find key => trivial
  | count key => trivial
  | size => trivial

theorem opOk {env : List (Dictionary K V)} (op : Op K V)
    (h : ∀ (i : Nat) (c : Call K V) (d : Dictionary K V), op = .on i c → env[i]? = some d →
      (laws T).CallOk d c) : (laws T).OpOk env op := by
  cases op with
  | on i c => exact fun d hget => h i c d rfl hget
  | construct n => trivial
  | copyConstruct i => trivial
  | moveConstruct i => trivial
  | assign i j => trivial
  | moveAssign i j => trivial
  | swap i j => trivial

theorem opOk_of_few {env : List (Dictionary K V)} (hfew : ∀ d ∈ env, d.numEntries < maxEntries)
    (op : Op K V) : (laws T).OpOk env op := by
  refine opOk op fun i c d _ hget => callOk c fun _ _ _ => ?_
  have hint : intMax = 2147483647 := rfl
  have hmax : maxEntries = 1073741824 := by decide
  have := hfew d (List.mem_of_getElem? hget)
  omega

/-- Maps with few keys are kept in tables with few entries. -/
theorem numEntries_lt {env : List (Dictionary K V)} {maps : List (DictMap T)}
    (h : (laws T).RefinesAll env maps) {limit : Nat} (hfew : ∀ m ∈ maps, m.size < limit) :
    ∀ d ∈ env, d.numEntries < limit := by
  intro d hd
  obtain ⟨i, hi, rfl⟩ := List.mem_iff_getElem.mp hd
  have hget := List.getElem?_eq_getElem hi
  obtain ⟨hinv, hmod⟩ := h.2 i _ hget
  have hi' : i < maps.length := h.1 ▸ hi
  have hnum := hmod.numEntries hinv.wellFormed
  rw [List.getD_eq_getElem?_getD, List.getElem?_eq_getElem hi', Option.getD_some] at hnum
  show env[i].numEntries < limit
  rw [show env[i].numEntries = maps[i].size from hnum]
  exact hfew _ (List.getElem_mem hi')

theorem runOk (ops : List (Op K V)) :
    ∀ {env : List (Dictionary K V)} {maps : List (DictMap T)}, (laws T).RefinesAll env maps →
      DictMap.Admissible maxEntries maps ops → (laws T).RunOk env ops := by
  induction ops with
  | nil => exact fun _ _ => trivial
  | cons op ops ih =>
      intro env maps h ⟨hfew, hop, hrest⟩
      rw [← h.1] at hop
      have hok := opOk_of_few (T := T) (numEntries_lt h hfew) op
      refine ⟨hop, hok, ?_⟩
      intro env' a hstep
      obtain ⟨env₁, hstep₁, href⟩ := (laws T).step_refines h op hop hok
      rw [hstep₁] at hstep
      cases hstep
      exact ih href hrest

/-- Every program over `Dictionary` objects returns, and its answers are those
of the same program over finite partial maps. -/
theorem run_eq_map (T : TableType K V) (ops : List (Op K V))
    (h : DictMap.Admissible (T := T) maxEntries [] ops) :
    ∃ env, hashClass.run T [] ops = .ok (env, (DictMap.run (T := T) [] ops).2) := by
  have hstart : (laws T).RefinesAll [] [] := ⟨rfl, fun i s hs => nomatch hs⟩
  obtain ⟨env, hrun, -⟩ := (laws T).run_refines ops hstart (runOk ops hstart h)
  exact ⟨env, hrun⟩

/-- A program with a collision, a reused tombstone, a copy and a swap. -/
def sampleProgram : List (Op UInt32 Nat) :=
  [.construct 0, .on 0 (.insert 1 10), .on 0 (.insert 1 11), .on 0 (.erase 1),
    .on 0 (.subscript 65), .copyConstruct 0, .on 0 (.store 1 7), .swap 0 1, .on 0 (.find 1),
    .on 1 .size]

theorem run_eq_map_sample :
    ∃ env, hashClass.run (unsignedTable Nat) [] sampleProgram
      = .ok (env, (DictMap.run (T := unsignedTable Nat) [] sampleProgram).2) :=
  run_eq_map (unsignedTable Nat) sampleProgram (by decide +kernel)

/-! ## Reachable objects -/

/-- The objects a program can own, none of which ever has `maxEntries` entries. -/
inductive Reachable (T : TableType K V) : List (Dictionary K V) → Prop
  | start : Reachable T []
  | step {env env' : List (Dictionary K V)} {op : Op K V} {a : Answer K V} :
      Reachable T env → op.Proper T env.length → hashClass.step T env op = .ok (env', a) →
      (∀ d ∈ env', d.numEntries < maxEntries) → Reachable T env'

/-- Reachable objects stand for maps. -/
theorem Reachable.refines {env : List (Dictionary K V)} (h : Reachable T env) :
    (∀ d ∈ env, d.numEntries < maxEntries) ∧ ∃ maps, (laws T).RefinesAll env maps := by
  induction h with
  | start =>
      refine ⟨?_, [], rfl, ?_⟩
      · exact fun d hd => nomatch hd
      · exact fun i s hs => nomatch hs
  | @step env env' op a _ hop hstep hfew ih =>
      obtain ⟨hfew₀, maps, href⟩ := ih
      obtain ⟨env₁, hstep₁, href₁⟩ := (laws T).step_refines href op hop (opOk_of_few hfew₀ op)
      rw [hstep] at hstep₁
      cases hstep₁
      exact ⟨hfew, _, href₁⟩

/-- The objects an admissible program ends with are reachable. -/
theorem reachable_of_admissible (ops : List (Op K V)) :
    ∀ {env : List (Dictionary K V)} {maps : List (DictMap T)}, Reachable T env →
      (laws T).RefinesAll env maps → DictMap.Admissible maxEntries maps ops →
      ∃ env', hashClass.run T env ops = .ok (env', (DictMap.run maps ops).2) ∧
        Reachable T env' := by
  induction ops with
  | nil => exact fun hr _ _ => ⟨_, rfl, hr⟩
  | cons op ops ih =>
      intro env maps hr h ⟨hfew, hop, hrest⟩
      rw [← h.1] at hop
      obtain ⟨env₁, hstep, href⟩ :=
        (laws T).step_refines h op hop (opOk_of_few (numEntries_lt h hfew) op)
      have hfew₁ : ∀ m ∈ (DictMap.step maps op).1, m.size < maxEntries := by
        cases ops with
        | nil => exact hrest
        | cons op' ops => exact hrest.1
      obtain ⟨env', hrun, hr'⟩ := ih (.step hr hop hstep (numEntries_lt href hfew₁)) href hrest
      refine ⟨env', ?_, hr'⟩
      simp only [HashClass.run, hstep, hrun, ok_bind, DictMap.run]

/-- The bucket indices `lookupBucketFor` goes through for a key. -/
def probeIndex (T : TableType K V) (numBuckets : Nat) (key : K) : Nat → Nat
  | 0 => (T.getHashValue key).toNat &&& (numBuckets - 1)
  | n + 1 => u64 (probeIndex T numBuckets key n + u64 (n + 1)) &&& (numBuckets - 1)

theorem probeIndex_eq {e : Nat} (he : e ≤ 63) (key : K) (n : Nat) :
    probeIndex T (2 ^ e) key n = probeOf T (2 ^ e) (classOf T key) n := by
  induction n with
  | zero =>
      rw [probeIndex, Nat.and_two_pow_sub_one_eq_mod]
      exact (TriangularProbe.probe_zero _ _).symm
  | succ n ih =>
      rw [probeIndex, ih]
      have hwrap : ∀ a b : Nat, u64 (a + u64 b) = u64 (a + b) := fun a b => Nat.add_mod_mod a b _
      rw [hwrap]
      exact next_index he _ n

/-- What holds of a table at every moment between two calls, on its buckets. -/
structure TableInvariant (T : TableType K V) (t : Table K V) : Prop where
  pow : t.buckets.length = 0 ∨ ∃ e, t.buckets.length = 2 ^ e
  entries : t.numEntries = t.buckets.countP fun b => isLiveKey T b.key
  tombs : t.numTombstones = t.buckets.countP fun b => T.isEqual b.key T.getTombstoneKey
  empty : t.buckets.length ≠ 0 → ∃ b ∈ t.buckets, T.isEqual b.key T.getEmptyKey = true
  distinct : ∀ (i j : Nat) (a b : Bucket K V), t.buckets[i]? = some a → t.buckets[j]? = some b →
    isLiveKey T a.key = true → isLiveKey T b.key = true → T.isEqual a.key b.key = true → i = j
  onPath : ∀ (i : Nat) (b : Bucket K V), t.buckets[i]? = some b → isLiveKey T b.key = true →
    ∃ n, probeIndex T t.buckets.length b.key n = i ∧ ∀ j < n, ∀ c,
      t.buckets[probeIndex T t.buckets.length b.key j]? = some c →
        T.isEqual c.key T.getEmptyKey = false

theorem tableInvariant_of_wellFormed {t : Table K V} (h : WellFormed T t) : TableInvariant T t where
  pow := h.pow.imp_right fun ⟨e, _, hlen⟩ => ⟨e, hlen⟩
  entries := by
    rw [h.entries, liveCount, slotsOf, List.countP_map]
    exact congrArg (List.countP · _) (funext isLive_slotOf)
  tombs := by
    rw [h.tombs, tombCount, slotsOf, List.countP_map]
    exact congrArg (List.countP · _) (funext isTombstone_slotOf)
  empty := by
    intro hne
    have hroom := h.room hne
    rw [h.entries, h.tombs, ← length_slotsOf (T := T)] at hroom
    obtain ⟨i, -, hi⟩ := OpenAddressing.exists_empty hroom
    rw [getElem?_slotsOf, Option.map_eq_some_iff] at hi
    obtain ⟨b, hb, hs⟩ := hi
    exact ⟨b, List.mem_of_getElem? hb, slotOf_eq_empty_iff.mp hs⟩
  distinct := by
    intro i j a b ha hb hla hlb hab
    exact h.valid.distinct i j a b (slotsOf_getElem?_live.mpr ⟨ha, hla⟩)
      (slotsOf_getElem?_live.mpr ⟨hb, hlb⟩) (classOf_eq_iff.mpr hab)
  onPath := by
    intro i b hb hlive
    have hne : t.buckets.length ≠ 0 := by
      have := (List.getElem?_eq_some_iff.mp hb).1
      omega
    obtain ⟨e, he, hlen⟩ := h.pow.resolve_left hne
    obtain ⟨n, hn, hclear⟩ := h.valid.onPath i b (slotsOf_getElem?_live.mpr ⟨hb, hlive⟩)
    rw [hlen] at hn hclear ⊢
    refine ⟨n, (probeIndex_eq he b.key n).trans hn, ?_⟩
    intro j hj c hc
    rw [probeIndex_eq he] at hc
    have hnot := hclear j hj
    rw [show bucketClass T b = classOf T b.key from rfl, getElem?_slotsOf, hc, Option.map_some,
      ne_eq, Option.some.injEq, slotOf_eq_empty_iff] at hnot
    exact Bool.eq_false_of_not_eq_true hnot

/-- The loop of `lookupBucketFor` ends for every key, sentinels included, after
at most as many rounds as there are buckets. -/
theorem probeLoop_ends {t : Table K V} (h : WellFormed T t)
    (hne : t.buckets.length ≠ 0) (key : K) :
    ∃ r, ∀ rounds ≥ t.buckets.length,
      probeLoop T t.buckets key rounds
        ((T.getHashValue key).toNat &&& (t.buckets.length - 1)) 1 none = .ok r := by
  obtain ⟨e, he, hlen⟩ := h.pow.resolve_left hne
  have hpow : 2 ^ e ≤ 2 ^ 63 := Nat.pow_le_pow_right (by decide) he
  obtain ⟨j, hj, hemp⟩ := h.exists_empty_on_path hlen (T.getHashValue key).toNat
  obtain ⟨r, hr⟩ := probeLoop_returns key hlen he (T.getHashValue key).toNat (2 ^ e) 0
    none (by omega) ⟨j, Nat.zero_le j, by omega, hemp⟩
  refine ⟨r, ?_⟩
  intro rounds hge
  obtain ⟨more, rfl⟩ := Nat.exists_eq_add_of_le hge
  rw [hlen, Nat.and_two_pow_sub_one_eq_mod, ← TriangularProbe.probe_zero]
  exact probeLoop_mono _ more _ _ _ hr

/-- Every reachable table keeps the invariant, and every lookup in it ends. -/
theorem reachable_invariant (T : TableType K V) {env : List (Dictionary K V)}
    (h : Reachable T env) :
    ∀ d ∈ env, TableInvariant T d ∧
      (d.buckets.length ≠ 0 → ∀ key, ∃ r, ∀ rounds ≥ d.buckets.length,
        probeLoop T d.buckets key rounds
          ((T.getHashValue key).toNat &&& (d.buckets.length - 1)) 1 none = .ok r) := by
  intro d hd
  obtain ⟨-, maps, href⟩ := h.refines
  obtain ⟨i, hi⟩ := List.mem_iff_getElem?.mp hd
  have hwf : WellFormed T d := (href.2 i d hi).1.wellFormed
  exact ⟨tableInvariant_of_wellFormed hwf, probeLoop_ends hwf⟩

theorem reachable_invariant_sample :
    ∃ env, Reachable (unsignedTable Nat) env ∧ ∀ d ∈ env, TableInvariant (unsignedTable Nat) d ∧
      (d.buckets.length ≠ 0 → ∀ key, ∃ r, ∀ rounds ≥ d.buckets.length,
        probeLoop (unsignedTable Nat) d.buckets key rounds
          (((unsignedTable Nat).getHashValue key).toNat &&& (d.buckets.length - 1)) 1 none
            = .ok r) := by
  have hstart : (laws (unsignedTable Nat)).RefinesAll [] [] := ⟨rfl, fun i s hs => nomatch hs⟩
  obtain ⟨env, -, hr⟩ :=
    reachable_of_admissible sampleProgram .start hstart (by decide +kernel)
  exact ⟨env, hr, reachable_invariant (unsignedTable Nat) hr⟩

end Dictionary

end Rx
