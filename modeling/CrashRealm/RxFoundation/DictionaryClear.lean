/-
# `RxFoundation.DictionaryClear` — what `clear` leaves

`clear` returns early, empties the array it has, or starts over with a smaller one.
The third path computes the new size in `int`: `1 << log2_32_Ceil((UInt32)entries + 1)`,
and at most 32.  Up to `2^30` in the low 32 bits of the entry count this is right.
From `2^30` on the shift gives `INT_MIN`, which is less than 32 and becomes `2^64 - 2^31`
as a `size_t`, for which `init` allocates `2^63` buckets; from `2^31` on the shift is
by 32, and undefined.
-/
import CrashRealm.RxFoundation.DictionaryReserve

namespace Rx

open OpenAddressing BasicHashTable

variable {K V : Type} {T : TableType K V}

/-- The exponent `shrink_and_clear` shifts by, for the low word of the entry count. -/
theorem log2_32_Ceil_succ {r : Nat} (h : r < 2 ^ 32) :
    Math.log2_32_Ceil (u32 (r + 1)) = r.size := by
  by_cases hmax : r = 2 ^ 32 - 1
  · subst hmax
    rw [Bits.size_pred_two_pow]
    decide
  · rw [u32_of_lt (n := r + 1) (by omega), Math.log2_32_Ceil_eq (Nat.succ_pos r) (by omega)]
    rfl

namespace Dictionary

variable {d : Dictionary K V}

/-- The table is empty and well formed, in no more buckets than before. -/
def ClearsWell (T : TableType K V) (d : Dictionary K V) : Prop :=
  ∃ d', clear derived T d = .ok d' ∧ Cleared T d' ∧ d'.buckets.length ≤ d.buckets.length

/-- Where `clear` starts over, the low 32 bits of the entry count are below `2^30`, or
below `2^31` and there are `2^63` buckets, the most there can be. -/
def clearOk (d : Dictionary K V) : Prop :=
  isSparse d → u32 d.numEntries < 2 ^ 30 ∨ u32 d.numEntries < 2 ^ 31 ∧ d.buckets.length = 2 ^ 63

instance (d : Dictionary K V) : Decidable (clearOk d) :=
  inferInstanceAs (Decidable (_ → _))

/-- `shrink_and_clear` with a new size other than the present one. -/
theorem startOver_length {num : Nat} (hnum : num ≠ getNumBuckets d) :
    ∃ d', (if num = getNumBuckets d then initEmpty entriesOk T d else init T num d) = .ok d' ∧
      Cleared T d' ∧ d'.buckets.length = getMinBucketToReserveForEntries num := by
  rw [if_neg hnum]
  exact init_spec num d

theorem shrinkAndClear_eq (h0 : d.numEntries ≠ 0) : shrinkAndClear T d =
    (shiftLeftOne (u32 d.numEntries).size >>= fun shifted =>
      if toSize (min 32 shifted) = getNumBuckets d then initEmpty entriesOk T d
      else init T (toSize (min 32 shifted)) d) := by
  rw [shrinkAndClear, if_neg h0, log2_32_Ceil_succ (u32_lt _)]
  rfl

/-- Up to 32 entries take at most 64 buckets. -/
theorem minBuckets_le {n : Nat} (h : n ≤ 32) : getMinBucketToReserveForEntries n ≤ 64 := by
  rw [getMinBucketToReserveForEntries]
  split
  · exact Nat.zero_le _
  · rw [u64_of_lt (n := n * 4) (by omega), u64_of_lt (n := n * 4 / 3 + 1) (by omega),
      Math.nextPowerOf2_64_eq (by omega), if_pos (by omega)]
    have hsize : (n * 4 / 3 + 1).size ≤ 6 := Nat.size_le.mpr (by omega)
    exact Nat.pow_le_pow_right (by decide) hsize

section Shrink

/-- The low word is below `2^30`: at most 64 buckets. -/
theorem shrinkAndClear_small (h0 : d.numEntries ≠ 0) (hlow : u32 d.numEntries < 2 ^ 30)
    (hmany : 64 < d.buckets.length) :
    ∃ d', shrinkAndClear T d = .ok d' ∧ Cleared T d' ∧ d'.buckets.length ≤ d.buckets.length := by
  have hsize : (u32 d.numEntries).size ≤ 30 := Nat.size_le.mpr hlow
  have hpos : (0 : Int) < 2 ^ (u32 d.numEntries).size := by positivity
  have hnum : toSize (min 32 (2 ^ (u32 d.numEntries).size)) ≤ 32 := by
    rw [toSize]
    omega
  have hshift : shiftLeftOne (u32 d.numEntries).size = .ok (2 ^ (u32 d.numEntries).size) :=
    if_pos hsize
  obtain ⟨d', hrun, hclr, hlen⟩ := startOver_length (T := T) (d := d)
    (show toSize (min 32 (2 ^ (u32 d.numEntries).size)) ≠ d.buckets.length by omega)
  refine ⟨d', ?_, hclr, ?_⟩
  · rw [shrinkAndClear_eq h0, hshift]
    exact hrun
  · have := minBuckets_le hnum
    omega

/-- The low word is from `2^30` on, and below `2^31`: the most buckets there can be. -/
theorem shrinkAndClear_wrapped (h0 : d.numEntries ≠ 0) (hge : 2 ^ 30 ≤ u32 d.numEntries)
    (hlt : u32 d.numEntries < 2 ^ 31) (hlen : d.buckets.length ≤ 2 ^ 63) :
    ∃ d', shrinkAndClear T d = .ok d' ∧ Cleared T d' ∧ d'.buckets.length = 2 ^ 63 := by
  have hsize : (u32 d.numEntries).size = 31 := by
    have hle : (u32 d.numEntries).size ≤ 31 := Nat.size_le.mpr hlt
    have hgt : 30 < (u32 d.numEntries).size := Nat.lt_size.mpr hge
    omega
  have hnum : toSize (min 32 (-2 ^ 31)) = 2 ^ 64 - 2 ^ 31 := by decide
  obtain ⟨d', hrun, hclr, hlen'⟩ := startOver_length (T := T) (d := d)
    (show toSize (min 32 (-2 ^ 31)) ≠ d.buckets.length by omega)
  refine ⟨d', ?_, hclr, ?_⟩
  · rw [shrinkAndClear_eq h0, hsize]
    exact hrun
  · rw [hlen', hnum]
    decide +kernel

/-- The low word is from `2^31` on: the shift is undefined. -/
theorem shrinkAndClear_undefined (h0 : d.numEntries ≠ 0) (hge : 2 ^ 31 ≤ u32 d.numEntries) :
    shrinkAndClear T d = .error .undefinedArithmetic := by
  have hgt : 31 < (u32 d.numEntries).size := Nat.lt_size.mpr hge
  have hshift : shiftLeftOne (u32 d.numEntries).size = .error .undefinedArithmetic := by
    rw [shiftLeftOne, if_neg (by omega), if_neg (by omega)]
  rw [shrinkAndClear_eq h0, hshift]
  rfl

end Shrink

/-- Where `clear` shrinks, it is well done exactly under `clearOk`. -/
theorem clearsWell_sparse_iff (h : WellFormed T d) (hsparse : isSparse d)
    (h0 : d.numEntries ≠ 0) : ClearsWell T d ↔ clearOk d := by
  have hmany : 64 < d.buckets.length := hsparse.2
  have hmost : d.buckets.length ≤ 2 ^ 63 := by
    rcases h.pow with hnil | ⟨e, he, hlen⟩
    · omega
    · rw [hlen]
      exact Nat.pow_le_pow_right (by decide) he
  have hclear : clear derived T d = shrinkAndClear T (incrementEpoch d) := by
    rw [clear_eq, if_neg (fun hempty => h0 hempty.1), if_pos hsparse]
  rw [ClearsWell, hclear]
  rcases Nat.lt_or_ge (u32 d.numEntries) (2 ^ 30) with hlow | hge
  · exact iff_of_true (shrinkAndClear_small (d := incrementEpoch d) h0 hlow hmany)
      fun _ => .inl hlow
  rcases Nat.lt_or_ge (u32 d.numEntries) (2 ^ 31) with hlt | hge'
  · obtain ⟨d', hrun, hclr, hlen⟩ :=
      shrinkAndClear_wrapped (T := T) (d := incrementEpoch d) h0 hge hlt hmost
    constructor
    · rintro ⟨d'', hrun', -, hle⟩ _
      rw [hrun] at hrun'
      cases hrun'
      exact .inr ⟨hlt, by omega⟩
    · intro hok
      rcases hok hsparse with hlow | ⟨-, hlargest⟩
      · omega
      · exact ⟨d', hrun, hclr, by omega⟩
  · rw [shrinkAndClear_undefined (T := T) (d := incrementEpoch d) h0 hge']
    constructor
    · rintro ⟨d', hrun, -⟩
      cases hrun
    · intro hok
      rcases hok hsparse with hlow | ⟨hlt, -⟩
      · omega
      · omega

/-- Without entries, or where the array is not sparse, it always is. -/
theorem clearsWell_of_not_sparse (h : WellFormed T d)
    (hpath : ¬ (isSparse d ∧ d.numEntries ≠ 0)) : ClearsWell T d := by
  by_cases hplace : isSparse d → d.numEntries = 0 ∧ d.numTombstones = 0
  · obtain ⟨d', hrun, hclr, hlen⟩ := clear_inPlace h hplace
    exact ⟨d', hrun, hclr, hlen.le⟩
  · -- only tombstones: no buckets are left
    obtain ⟨hsparse, hempty⟩ := Classical.not_imp.mp hplace
    have h0 : d.numEntries = 0 := not_not.mp fun hne => hpath ⟨hsparse, hne⟩
    have hne : (0 : Nat) ≠ getNumBuckets (incrementEpoch d) := by
      have : 64 < d.buckets.length := hsparse.2
      show 0 ≠ d.buckets.length
      omega
    obtain ⟨d', hrun, hclr, hlen⟩ := startOver_length (T := T) hne
    refine ⟨d', ?_, hclr, ?_⟩
    · rw [clear_eq, if_neg hempty, if_pos hsparse, shrinkAndClear,
        if_pos (show (incrementEpoch d).numEntries = 0 from h0)]
      exact hrun
    · rw [hlen]
      exact Nat.zero_le _

/-- Of every object a program can own, `clear` leaves an empty table in no more buckets
than before exactly under `clearOk`. -/
theorem clearsWell_iff {env : List (Dictionary K V)} (h : Reached T env) :
    ∀ d ∈ env, ClearsWell T d ↔ clearOk d := by
  intro d hd
  have hwf := (h.loaded d hd).wellFormed
  by_cases hpath : isSparse d ∧ d.numEntries ≠ 0
  · exact clearsWell_sparse_iff hwf hpath.1 hpath.2
  · refine iff_of_true (clearsWell_of_not_sparse hwf hpath) fun hsparse => .inl ?_
    have h0 : d.numEntries = 0 := not_not.mp fun hne => hpath ⟨hsparse, hne⟩
    rw [h0]
    decide

theorem clearsWell_iff_sample : ∃ env, Reached (unsignedTable Nat) env ∧
    ∀ d ∈ env, ClearsWell (unsignedTable Nat) d ↔ clearOk d := by
  have hstart : (laws (unsignedTable Nat)).RefinesAll [] [] := ⟨rfl, fun i s hs => nomatch hs⟩
  obtain ⟨env, -, hr⟩ :=
    reachable_of_admissible sampleProgram .start hstart (by decide +kernel)
  exact ⟨env, hr.reached, clearsWell_iff hr.reached⟩

/-! ## Tables with many entries -/

section Fill

theorem Reached.construct {n : Nat} (hinit : init T n fresh = .ok d) : Reached T [d] := by
  have hstep : hashClass.step T [] (.construct n) = .ok ([d], .none) := by
    show (init T n fresh >>= _) = _
    rw [hinit]
    rfl
  exact .step .start (show (Op.construct n).Proper T 0 from trivial) hstep

/-- Storing an absent key where there is room for it. -/
theorem Reached.insert (h : Reached T [d]) (hroom : HasRoom d) {key : K}
    (hkey : Ordinary T key) (habs : classOf T key ∉ storedClasses T d) (value : V) :
    ∃ d', Reached T [d'] ∧ d'.buckets.length = d.buckets.length ∧
      d'.numEntries = d.numEntries + 1 ∧ d'.numTombstones ≤ d.numTombstones ∧
      storedClasses T d' = Insert.insert (classOf T key) (storedClasses T d) := by
  have hwf := (h.loaded d List.mem_cons_self).wellFormed
  have hspace := hroom.room hwf
  rcases lookupBucketFor_spec hwf hkey with ⟨i, b, -, hget, hord, heq⟩ | ⟨bucket, hlook, hno, hsome⟩
  · refine absurd (mem_storedClasses.mpr ⟨b, ?_, (classOf_eq_iff.mpr heq).symm⟩) habs
    exact stored_iff.mpr ⟨List.mem_of_getElem? hget, hord⟩
  · obtain ⟨i, rfl, hout⟩ := hsome (by omega)
    obtain ⟨t, hrun, -, hbuckets, hget, hent, htombs, hst⟩ := insertIntoBucket_inPlace accessors
      (fun _ => rfl) (s := d) hwf hroom hkey hno hout value
    have hinsert : BasicHashTable.insert derived T d key value = .ok (t, i, true) := by
      show (lookupBucketFor T d key >>= _) = _
      rw [hlook]
      show (insertIntoBucket derived T d key value (some i) >>= _) = _
      rw [hrun]
      rfl
    have hcall : hashClass.call T d (.insert key value)
        = .ok (t, .inserted ⟨key, value⟩ true) := by
      show (BasicHashTable.insert derived T d key value >>= _) = _
      rw [hinsert]
      show (bucketAt t (some i) >>= _) = _
      rw [bucketAt_some hget]
      rfl
    have hstep : hashClass.step T [d] (.on 0 (.insert key value))
        = .ok ([t], .inserted ⟨key, value⟩ true) := by
      show (hashClass.call T d (.insert key value) >>= _) = _
      rw [hcall]
      rfl
    have hproper : (Op.on 0 (Call.insert key value)).Proper T [d].length := by
      refine ⟨Nat.zero_lt_one, fun k hk => ?_⟩
      obtain ⟨rfl⟩ : key = k := Option.some.inj hk
      exact hkey
    refine ⟨t, .step h hproper hstep, ?_, hent, htombs, storedClasses_store hst⟩
    rw [hbuckets]
    exact List.length_set

/-- Storing distinct keys one after another, short of three quarters of the buckets. -/
theorem Reached.fill (value : V) (keys : List K) :
    ∀ {d : Dictionary K V}, Reached T [d] → d.numTombstones = 0 →
      (keys.map (classOf T)).Nodup → (∀ key ∈ keys, Ordinary T key) →
      (∀ key ∈ keys, classOf T key ∉ storedClasses T d) →
      (d.numEntries + keys.length) * 4 < u64 (d.buckets.length * 3) →
      ∃ d', Reached T [d'] ∧ d'.buckets.length = d.buckets.length ∧
        d'.numEntries = d.numEntries + keys.length := by
  induction keys with
  | nil =>
      intro d h _ _ _ _ _
      exact ⟨d, h, rfl, rfl⟩
  | cons key keys ih =>
      intro d h htombs hnodup hord habs hwide
      rw [List.length_cons] at hwide
      rw [List.map_cons, List.nodup_cons] at hnodup
      have hfit : Placed.Fit T (d.numEntries + (keys.length + 1)) ⟨d, none, 0⟩ :=
        ⟨(h.loaded d List.mem_cons_self).wellFormed, htombs, hwide⟩
      have hroom : HasRoom d := hfit.hasRoom (by show d.numEntries + 1 ≤ _; omega)
      obtain ⟨d₁, h₁, hlen, hent, htombs₁, hclasses⟩ := h.insert hroom
        (hord key List.mem_cons_self) (habs key List.mem_cons_self) value
      obtain ⟨d', h', hlen', hent'⟩ := ih h₁ (by omega) hnodup.2
        (fun k hk => hord k (List.mem_cons_of_mem _ hk))
        (by
          intro k hk hmem
          rw [hclasses, Finset.mem_insert] at hmem
          rcases hmem with heq | hmem
          · exact hnodup.1 (heq ▸ List.mem_map_of_mem hk)
          · exact habs k (List.mem_cons_of_mem _ hk) hmem)
        (by rw [hlen, hent]; omega)
      refine ⟨d', h', hlen'.trans hlen, ?_⟩
      rw [hent', hent, List.length_cons]
      omega

end Fill

/-- The keys from 0 on. -/
theorem Reached.fill_below {d : Dictionary UInt64 Unit}
    (h : Reached (unsignedLongLongTable Unit) [d]) (hclr : Cleared (unsignedLongLongTable Unit) d)
    {n : Nat} (hn : n ≤ 2 ^ 63) (hwide : n * 4 < u64 (d.buckets.length * 3)) :
    ∃ d', Reached (unsignedLongLongTable Unit) [d'] ∧ d'.buckets.length = d.buckets.length ∧
      d'.numEntries = n := by
  have hlen : ((List.range n).map UInt64.ofNat).length = n :=
    List.length_map _ |>.trans List.length_range
  obtain ⟨d', hd, hlen', hent⟩ := h.fill () ((List.range n).map UInt64.ofNat) hclr.tombs
    (by
      rw [List.map_map]
      refine (List.nodup_map_iff_inj_on List.nodup_range).mpr fun i hi j hj h => ?_
      rw [List.mem_range] at hi hj
      exact Placed.classOf_ofNat_inj (by omega) (by omega) h)
    (by
      intro key hkey
      obtain ⟨i, hi, rfl⟩ := List.mem_map.mp hkey
      exact Placed.ordinary_ofNat ((List.mem_range.mp hi).trans_le hn))
    (by
      intro key _ hmem
      obtain ⟨b, hb, -⟩ := mem_storedClasses.mp hmem
      exact hclr.none_stored b hb)
    (by rw [hclr.entries, hlen, Nat.zero_add]; exact hwide)
  rw [hclr.entries, hlen, Nat.zero_add] at hent
  exact ⟨d', hd, hlen', hent⟩

/-- A table of `2^33` buckets with `2^30` entries, of which `clear` makes one of `2^63`. -/
theorem clear_enlarges : ∃ d : Dictionary UInt64 Unit,
    Reached (unsignedLongLongTable Unit) [d] ∧ d.numEntries = 2 ^ 30 ∧
      d.buckets.length = 2 ^ 33 ∧ ¬ ClearsWell (unsignedLongLongTable Unit) d := by
  obtain ⟨d₀, hinit, hclr, hlen⟩ := init_spec (T := unsignedLongLongTable Unit) (2 ^ 32) fresh
  have hmin : getMinBucketToReserveForEntries (2 ^ 32) = 2 ^ 33 := by decide +kernel
  obtain ⟨d, hd, hlen', hent⟩ := (Reached.construct hinit).fill_below hclr (n := 2 ^ 30)
    (by decide) (by rw [hlen, hmin]; decide)
  rw [hlen, hmin] at hlen'
  have hsparse : isSparse d := by
    rw [isSparse, getNumBuckets, hent, hlen']
    decide
  refine ⟨d, hd, hent, hlen', fun hwell => ?_⟩
  have hok := (clearsWell_sparse_iff (hd.loaded d List.mem_cons_self).wellFormed hsparse
    (by rw [hent]; decide)).mp hwell hsparse
  rw [hent, hlen'] at hok
  exact absurd hok (by decide)

end Dictionary

end Rx
