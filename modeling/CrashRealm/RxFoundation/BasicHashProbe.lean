/-
# `RxFoundation.BasicHashProbe` — the probe sequence visits every bucket once

`probes` is the two variables of the loop, `bucketIndex` and `probeAmt`, after
so many rounds.  As long as no bucket ends the search, the loop is at
`probes n` after `n` rounds (`probeLoop_probes`), whatever the buckets hold; and
on a power of two the first `numBuckets` of its indices are all the indices,
each once (`existsUnique_probes`).
-/
import CrashRealm.RxFoundation.BasicHashLookup

namespace Rx

namespace BasicHashTable

/-- `bucketIndex += probeAmt++; bucketIndex &= (numBuckets - 1);` -/
def nextProbe (numBuckets : Nat) (s : Nat × Nat) : Nat × Nat :=
  (u64 (s.1 + s.2) &&& (numBuckets - 1), u64 (s.2 + 1))

/-- `bucketIndex` and `probeAmt` after `n` rounds. -/
def probes (numBuckets hash : Nat) : Nat → Nat × Nat
  | 0 => (hash &&& (numBuckets - 1), 1)
  | n + 1 => nextProbe numBuckets (probes numBuckets hash n)

variable {K V : Type}

/-- A bucket that ends the search: the key is in it, or it is empty. -/
def EndsSearch (T : TableType K V) (value : K) (currentBucket : Bucket K V) : Prop :=
  T.isEqual value currentBucket.key = true ∨ T.isEqual T.getEmptyKey currentBucket.key = true

/-! ## The variables of the loop -/

section PowerOfTwo
variable {e : Nat} (he : e ≤ 63) (hash : Nat)
include he

theorem probes_eq {n : Nat} (hn : n < 2 ^ 63) :
    probes (2 ^ e) hash n = (TriangularProbe.probe (2 ^ e) hash n, n + 1) := by
  induction n with
  | zero => rw [probes, Nat.and_two_pow_sub_one_eq_mod, TriangularProbe.probe_zero]
  | succ n ih =>
      rw [probes, ih (Nat.lt_of_succ_lt hn), nextProbe, next_index he, u64_of_lt (by omega)]

theorem probes_lt {n : Nat} (hn : n < 2 ^ 63) : (probes (2 ^ e) hash n).1 < 2 ^ e := by
  rw [probes_eq he hash hn]
  exact TriangularProbe.probe_lt (Nat.two_pow_pos e) hash n

/-- Each index is the one of exactly one of the first `2 ^ e` rounds. -/
theorem existsUnique_probes {i : Nat} (hi : i < 2 ^ e) :
    ∃! n, n < 2 ^ e ∧ (probes (2 ^ e) hash n).1 = i := by
  have hpow : 2 ^ e ≤ 2 ^ 63 := Nat.pow_le_pow_right (by decide) he
  obtain ⟨n, hn, hprobe⟩ := TriangularProbe.exists_probe_eq e hash hi
  refine ⟨n, ⟨hn, ?_⟩, ?_⟩
  · rw [probes_eq he hash (Nat.lt_of_lt_of_le hn hpow)]
    exact hprobe
  · rintro n' ⟨hn', hprobe'⟩
    rw [probes_eq he hash (Nat.lt_of_lt_of_le hn' hpow)] at hprobe'
    exact TriangularProbe.probe_injOn hn' hn (hprobe'.trans hprobe.symm)

end PowerOfTwo

/-! ## The loop -/

section Loop
variable {T : TableType K V} {buckets : List (Bucket K V)} {value : K}

/-- A round that does not end the search goes on to the next probe. -/
theorem probeLoop_next {s : Nat × Nat} {currentBucket : Bucket K V}
    (hget : buckets[s.1]? = some currentBucket) (hends : ¬ EndsSearch T value currentBucket)
    (rounds : Nat) (foundTombstone : Option Nat) :
    ∃ foundTombstone', probeLoop T buckets value (rounds + 1) s.1 s.2 foundTombstone =
      probeLoop T buckets value rounds (nextProbe buckets.length s).1
        (nextProbe buckets.length s).2 foundTombstone' := by
  rw [EndsSearch, not_or] at hends
  rw [probeLoop, hget]
  simp only [if_neg hends.1, if_neg hends.2]
  exact ⟨_, rfl⟩

/-- After `n` rounds, none of which ended the search, the loop is at `probes n`. -/
theorem probeLoop_probes {hash : Nat} (rounds : Nat) : ∀ n, (∀ k < n, ∃ currentBucket,
      buckets[(probes buckets.length hash k).1]? = some currentBucket ∧
        ¬ EndsSearch T value currentBucket) →
    ∃ foundTombstone, probeLoop T buckets value (n + rounds) (hash &&& (buckets.length - 1)) 1 none =
      probeLoop T buckets value rounds (probes buckets.length hash n).1
        (probes buckets.length hash n).2 foundTombstone := by
  intro n
  induction n generalizing rounds with
  | zero =>
      intro _
      rw [Nat.zero_add]
      exact ⟨none, rfl⟩
  | succ n ih =>
      intro hpast
      obtain ⟨found, hrun⟩ := ih (rounds + 1) fun k hk => hpast k (Nat.lt_succ_of_lt hk)
      obtain ⟨currentBucket, hget, hends⟩ := hpast n (Nat.lt_succ_self n)
      obtain ⟨found', hnext⟩ := probeLoop_next hget hends rounds found
      refine ⟨found', ?_⟩
      rw [Nat.add_right_comm, Nat.add_assoc, hrun, hnext]
      rfl

end Loop

/-- In a table of `numBuckets` buckets, a power of two, and from any hash, each bucket is at
the index of exactly one of the first `numBuckets` rounds; and those are the rounds of the
loop, in whatever table, until a bucket ends it. -/
theorem visits_each_once {numBuckets : UInt64} (hpow : numBuckets.toNat.isPowerOfTwo)
    (hash : UInt64) :
    (∀ i < numBuckets.toNat, ∃! n, n < numBuckets.toNat ∧
      (probes numBuckets.toNat hash.toNat n).1 = i) ∧
    ∀ {K V : Type} (T : TableType K V) (buckets : List (Bucket K V)) (value : K) (rounds n : Nat),
      buckets.length = numBuckets.toNat → n ≤ numBuckets.toNat →
      (∀ k < n, ∀ currentBucket ∈ buckets[(probes numBuckets.toNat hash.toNat k).1]?,
        ¬ EndsSearch T value currentBucket) →
      ∃ foundTombstone, probeLoop T buckets value (n + rounds)
          (hash.toNat &&& (numBuckets.toNat - 1)) 1 none =
        probeLoop T buckets value rounds (probes numBuckets.toNat hash.toNat n).1
          (probes numBuckets.toNat hash.toNat n).2 foundTombstone := by
  obtain ⟨e, hsize⟩ := hpow
  have hlt : numBuckets.toNat < 2 ^ 64 := numBuckets.toNat_lt
  rw [hsize] at hlt ⊢
  have he : e ≤ 63 := Nat.lt_succ_iff.mp ((Nat.pow_lt_pow_iff_right (by decide)).mp hlt)
  have hle : 2 ^ e ≤ 2 ^ 63 := Nat.pow_le_pow_right (by decide) he
  refine ⟨fun i hi => existsUnique_probes he hash.toNat hi, ?_⟩
  intro K V T buckets value rounds n hlen hn hpast
  rw [← hlen] at hpast ⊢
  refine probeLoop_probes rounds n fun k hk => ?_
  have hin : (probes buckets.length hash.toNat k).1 < buckets.length := by
    rw [hlen]
    exact probes_lt he hash.toNat (by omega)
  exact ⟨_, List.getElem?_eq_getElem hin, hpast k hk _ (List.getElem?_eq_getElem hin)⟩

/-- Four buckets, from the hash 6. -/
theorem visits_each_once_four : ∃! n, n < 4 ∧ (probes 4 6 n).1 = 1 :=
  (@visits_each_once 4 ⟨2, rfl⟩ 6).1 1 (by decide)

end BasicHashTable

end Rx
