/-
# `RxFoundation.DataHash` — the ELF hash is a fold, and equal data hash alike

However many bytes are left over after the rounds of four, `Rx::hash` takes every byte
once and in order (`hash_eq_foldl`).  A step folds the top four bits of the sum into the
low byte and clears them, so what it returns fits in 28 bits (`elfStep_lt`).

`Data::hash` takes the first 80 bytes at most; `operator==` has compared all of them.
-/
import CrashRealm.RxFoundation.DataContent

namespace Rx

/-! ## One step -/

theorem getLsbD_topNibble {i : Nat} (hi : 28 ≤ i) (hlt : i < 32) :
    (0xF0000000 : BitVec 32).getLsbD i = true := by
  have hcases : i = 28 ∨ i = 29 ∨ i = 30 ∨ i = 31 := by omega
  rcases hcases with rfl | rfl | rfl | rfl <;> rfl

/-- A top bit of the sum is in its top nibble, and what is folded in is not. -/
theorem elfStep_lt (H : UInt32) (B : UInt8) : (elfStep H B).toNat < 2 ^ 28 := by
  refine Nat.lt_pow_two_of_testBit _ fun i hi => ?_
  rw [← UInt32.toNat_toBitVec, BitVec.testBit_toNat]
  by_cases hlt : i < 32
  · simp only [elfStep]
    generalize H <<< 4 + B.toUInt32 = T1
    have htop : (UInt32.toBitVec 0xF0000000).getLsbD i = true := getLsbD_topNibble hi hlt
    have hfold : ((T1 &&& 0xF0000000) >>> 24).toBitVec.getLsbD i = false := by
      show ((T1 &&& 0xF0000000).toBitVec >>> (24 : Nat)).getLsbD i = false
      rw [BitVec.getLsbD_ushiftRight]
      exact BitVec.getLsbD_of_ge _ _ (by omega)
    rw [UInt32.toBitVec_and, UInt32.toBitVec_not, BitVec.getLsbD_and, BitVec.getLsbD_not,
      UInt32.toBitVec_and, BitVec.getLsbD_and, htop, Bool.and_true]
    split
    · rw [UInt32.toBitVec_xor, BitVec.getLsbD_xor, hfold, Bool.xor_false]
      cases T1.toBitVec.getLsbD i <;> simp
    · cases T1.toBitVec.getLsbD i <;> simp
  · exact BitVec.getLsbD_of_ge _ _ (Nat.not_lt.mp hlt)

/-! ## All bytes -/

/-- The pointer has these bytes behind it. -/
def Points (bytes : Int → Except Fault UInt8) (content : List UInt8) : Prop :=
  ∀ i (h : i < content.length), bytes i = .ok content[i]

section Fold
variable {bytes : Int → Except Fault UInt8} {content : List UInt8}

/-- The byte `rem` from the end is taken, and `rem - 1` are left. -/
theorem elfStepAt_eq (hb : Points bytes content) (H : UInt32) (rem : Nat)
    (hrem : rem < content.length) {i : Int} (hi : i = content.length - (rem + 1 : Nat)) :
    ∃ B, elfStepAt bytes H i = .ok (elfStep H B) ∧
      content.drop (content.length - (rem + 1)) =
        B :: content.drop (content.length - rem) := by
  have hlt : content.length - (rem + 1) < content.length := by omega
  have hread := hb _ hlt
  refine ⟨content[content.length - (rem + 1)], ?_, ?_⟩
  · rw [elfStepAt, show i = (content.length - (rem + 1) : Nat) by omega, hread, ok_bind]
  · rw [List.drop_eq_getElem_cons hlt, show content.length - (rem + 1) + 1 = content.length - rem by
      omega]

/-- The fall-through takes what is left. -/
theorem hashTail_eq (hb : Points bytes content) (rem : Nat) : ∀ H, rem ≤ content.length →
    hashTail bytes content.length H rem =
      .ok ((content.drop (content.length - rem)).foldl elfStep H) := by
  induction rem with
  | zero =>
      intro H _
      rw [Nat.sub_zero, List.drop_length]
      rfl
  | succ rem ih =>
      intro H hrem
      obtain ⟨B, hstep, hdrop⟩ := elfStepAt_eq hb H rem hrem rfl
      rw [hashTail, show (content.length : Int) - ((rem : Int) + 1) = content.length - (rem + 1 : Nat)
        by omega, hstep, ok_bind, ih _ (Nat.le_of_succ_le hrem), hdrop]
      rfl

/-- A round takes the next four. -/
theorem hashLoop_eq (hb : Points bytes content) (H : UInt32) (rem : Nat)
    (hrem : rem ≤ content.length) :
    hashLoop bytes content.length H rem =
      .ok ((content.drop (content.length - rem)).foldl elfStep H) := by
  rw [hashLoop]
  split
  next hlt =>
    obtain ⟨rem, rfl⟩ := Nat.exists_eq_add_of_le' (show 4 ≤ rem by omega)
    obtain ⟨B₁, h₁, hdrop₁⟩ := elfStepAt_eq hb H (rem + 3)
      (i := content.length - (rem + 4 : Nat)) (by omega) (by omega)
    obtain ⟨B₂, h₂, hdrop₂⟩ := elfStepAt_eq hb (elfStep H B₁) (rem + 2)
      (i := content.length - (rem + 4 : Nat) + 1) (by omega) (by omega)
    obtain ⟨B₃, h₃, hdrop₃⟩ := elfStepAt_eq hb (elfStep (elfStep H B₁) B₂) (rem + 1)
      (i := content.length - (rem + 4 : Nat) + 2) (by omega) (by omega)
    obtain ⟨B₄, h₄, hdrop₄⟩ := elfStepAt_eq hb (elfStep (elfStep (elfStep H B₁) B₂) B₃) rem
      (i := content.length - (rem + 4 : Nat) + 3) (by omega) (by omega)
    rw [h₁, ok_bind, h₂, ok_bind, h₃, ok_bind, h₄, ok_bind,
      show ((rem + 4 : Nat) : Int) - 4 = rem by omega, hashLoop_eq hb _ rem (by omega), hdrop₁,
      hdrop₂, hdrop₃, hdrop₄, List.foldl_cons, List.foldl_cons, List.foldl_cons, List.foldl_cons]
  next => exact hashTail_eq hb rem H hrem
termination_by rem

/-- Below `2^31` bytes the count of what remains is the length. -/
theorem hash_eq (hb : Points bytes content) (hlt : content.length < 2 ^ 31) :
    hash bytes content.length = .ok (content.foldl elfStep 0) := by
  rw [hash, Int.bmod_eq_of_le (by omega) (by omega), hashLoop_eq hb 0 _ (Nat.le_refl _),
    Nat.sub_self, List.drop_zero]

theorem foldl_elfStep_lt (content : List UInt8) : (content.foldl elfStep 0).toNat < 2 ^ 28 := by
  rcases List.eq_nil_or_concat content with rfl | ⟨content, B, rfl⟩
  · decide
  · rw [List.concat_eq_append, List.foldl_append]
    exact elfStep_lt _ B

theorem Points.take (hb : Points bytes content) (n : Nat) : Points bytes (content.take n) := by
  intro i hi
  rw [List.getElem_take]
  exact hb i (Nat.lt_of_lt_of_le hi (List.length_take_le' _ _))

/-- Of a negative length nothing is read, or a byte before the first. -/
theorem hash_of_neg {length : Int} (hneg : length < 0)
    (hbefore : ∀ i < 0, ∃ e, bytes i = .error e) {H : UInt32} :
    hash bytes length = .ok H ↔ Int.bmod length (2 ^ 32) ≤ 0 ∧ H = 0 := by
  rw [hash]
  generalize Int.bmod length (2 ^ 32) = rem
  have hfirst : 0 < rem → ∀ i, i = length - rem → ∃ e, bytes i = .error e :=
    fun hpos i hi => hbefore i (by omega)
  rw [hashLoop]
  split
  next hlt =>
    obtain ⟨e, he⟩ := hfirst (by omega) _ rfl
    rw [elfStepAt, he]
    exact iff_of_false (fun h => by cases h) fun h => by omega
  next hge =>
    by_cases hpos : 0 < rem
    · obtain ⟨n, hn⟩ := Nat.exists_eq_add_of_le' (show 1 ≤ rem.toNat by omega)
      obtain ⟨e, he⟩ := hfirst hpos (length - (n + 1)) (by omega)
      rw [hn, hashTail, elfStepAt, he]
      exact iff_of_false (fun h => by cases h) fun h => by omega
    · rw [Int.toNat_of_nonpos (by omega), hashTail]
      constructor
      · intro h
        cases h
        exact ⟨by omega, rfl⟩
      · rintro ⟨-, rfl⟩
        rfl

end Fold

/-! ## `Data` -/

section Data
variable {h : Memory} {d rhs : Data} {cells : List UInt8}

theorem byteAt_before (p : Option Ptr) {i : Int} (hi : i < 0) :
    ∃ e, byteAt h p i = .error e := by
  cases p with
  | none => exact ⟨_, rfl⟩
  | some p => exact ⟨_, if_pos hi⟩

/-- What `memcmp` reads, `hash` reads. -/
theorem points_of_load {p : Option Ptr} {n : Nat} (hload : load h p n = .ok cells) :
    cells.length = n ∧ Points (byteAt h p) cells := by
  cases p with
  | none =>
      by_cases hzero : n = 0
      · subst hzero
        cases hload
        exact ⟨rfl, fun i hi => absurd hi (Nat.not_lt_zero i)⟩
      · rw [load, if_neg hzero] at hload
        cases hload
  | some p =>
      obtain ⟨hroom, hlen, hcells⟩ := load_eq_ok_iff.mp hload
      refine ⟨hlen, fun i hi => ?_⟩
      have hread : h.read (p.shift i) 1 = some [cells[i]] := by
        refine Heap.read_eq_some_iff.mpr ⟨?_, rfl, fun j hj => ?_⟩
        · have hleft : h.room (p.shift i) = h.room p - i := Heap.room_advance h p.block p.offset i
          omega
        · obtain rfl : j = 0 := by omega
          rw [Ptr.shift_shift, Nat.add_zero, hcells i (by omega), List.getElem?_eq_getElem hi]
          rfl
      have hnat : ¬ (i : Int) < 0 := by omega
      simp only [byteAt, if_neg hnat, Int.toNat_natCast]
      rw [show (⟨p.block, p.offset + i⟩ : Ptr) = p.shift i from rfl, hread]

theorem Data.hash_eq (hload : load h d.bytes d.length.toNat = .ok cells) (hpos : 0 ≤ d.length) :
    d.hash h = .ok ((cells.take 80).foldl elfStep 0) := by
  obtain ⟨hlen, hpoints⟩ := points_of_load hload
  have htake : (cells.take 80).length = min 80 d.length.toNat := by
    rw [List.length_take, hlen]
  rw [Data.hash, show min 80 d.length = (cells.take 80).length by omega]
  exact Rx.hash_eq (hpoints.take 80) (by omega)

/-- Two that are equal have one length and, where that makes sense, one content. -/
theorem Data.equals_iff : d.equals h rhs = .ok true ↔ d.length = rhs.length ∧
    ∃ cells, load h d.bytes d.length.toNat = .ok cells ∧
      load h rhs.bytes rhs.length.toNat = .ok cells := by
  rw [Data.equals]
  split
  next hne => exact iff_of_false (fun h => by cases h) fun h => hne h.1
  next hlen =>
    rw [not_not] at hlen
    rw [bind_eq_ok, ← hlen]
    constructor
    · rintro ⟨ptr0, h0, h1⟩
      obtain ⟨ptr1, h1, heq⟩ := bind_eq_ok.mp h1
      rw [beq_iff_eq.mp (Except.ok.inj heq)] at h0
      exact ⟨rfl, ptr1, h0, h1⟩
    · rintro ⟨-, cells, h0, h1⟩
      refine ⟨cells, h0, ?_⟩
      rw [h1, ok_bind, beq_self_eq_true]

theorem Data.hash_of_equals (heq : d.equals h rhs = .ok true) :
    (∀ H, d.hash h = .ok H ↔ rhs.hash h = .ok H) ∧
      (0 ≤ d.length → ∃ H, d.hash h = .ok H ∧ rhs.hash h = .ok H) := by
  obtain ⟨hlen, cells, h0, h1⟩ := Data.equals_iff.mp heq
  by_cases hpos : 0 ≤ d.length
  · have hd := Data.hash_eq h0 hpos
    have hr := Data.hash_eq h1 (hlen ▸ hpos)
    exact ⟨fun H => by rw [hd, hr], fun _ => ⟨_, hd, hr⟩⟩
  · have hmin : min 80 d.length = d.length := by omega
    refine ⟨fun H => ?_, fun h => absurd h hpos⟩
    rw [Data.hash, Data.hash, ← hlen, hmin,
      hash_of_neg (by omega) (fun _ hi => byteAt_before _ hi),
      hash_of_neg (by omega) (fun _ hi => byteAt_before _ hi)]

end Data

/-- Of any bytes, fewer than `2^31`, the hash is the fold of the step over all of them in
their order, and is below `2^28`; and data that are equal have equal hashes. -/
theorem hash_eq_foldl {bytes : Int → Except Fault UInt8} {content : List UInt8}
    (hb : Points bytes content) (hlt : content.length < 2 ^ 31) :
    (hash bytes content.length = .ok (content.foldl elfStep 0) ∧
      (content.foldl elfStep 0).toNat < 2 ^ 28) ∧
    ∀ (h : Memory) (d rhs : Data), d.equals h rhs = .ok true →
      (∀ H, d.hash h = .ok H ↔ rhs.hash h = .ok H) ∧
        (0 ≤ d.length → ∃ H, d.hash h = .ok H ∧ rhs.hash h = .ok H) :=
  ⟨⟨hash_eq hb hlt, foldl_elfStep_lt content⟩, fun _ _ _ heq => Data.hash_of_equals heq⟩

/-- Seven bytes: a round, and three that fall through. -/
theorem hash_eq_foldl_seven :
    hash (fun i => .ok (97 + i.toNat.toUInt8)) (7 : Nat) =
      .ok ([97, 98, 99, 100, 101, 102, 103].foldl elfStep 0) := by
  have hpoints : Points (fun i => .ok (97 + i.toNat.toUInt8)) [97, 98, 99, 100, 101, 102, 103] := by
    unfold Points
    decide
  exact (hash_eq_foldl hpoints (by decide)).1.1

end Rx
