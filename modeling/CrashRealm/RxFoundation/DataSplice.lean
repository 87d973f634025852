/-
# `RxFoundation.DataSplice` — when `replaceBytes` is a splice

**In place.**  The tail moves first, over whatever lies where it goes.  A source
inside the buffer is read after that, so the result is the splice exactly when
the tail leaves the source's bytes as they were (`TailSpares`).

**Growing.**  A source in the buffer is copied first, and the buffer moves; then
nothing is in the way.  What can go wrong is memory: no room for the copy, a
buffer `realloc` does not take, a capacity rounded down, or a source behind the
capacity in the same block (`GrowsClean`).

`splices_iff` puts the two together.  Running out of memory halts, by design.
-/
import CrashRealm.RxFoundation.DataBounds
import CrashRealm.RxFoundation.DataContent

namespace Rx

open Heap DataSystem

/-- The call halts, or leaves the old bytes with the range replaced by the source. -/
def Data.Splices (H : Host) (h : Memory) (d : Data) (range : Range) (newBytes : Option Ptr)
    (newLength : Int) (old src : List UInt8) : Prop :=
  Ends IsHalt (d.replaceBytes H h range newBytes newLength) fun r =>
    r.2.length = d.length - range.length + newLength ∧
    load r.1 r.2.bytes r.2.length.toNat =
      .ok (splice old range.location.toNat range.length.toNat src)

/-- Where the tail moves over a byte of the source, it brings the same byte. -/
def Data.TailSpares (h : Memory) (d : Data) (range : Range) (newBytes : Option Ptr)
    (newLength : Int) : Prop :=
  ∀ p ∈ d.bytes, ∀ q ∈ newBytes, q.block = p.block → ∀ i j : Nat, (i : Int) < newLength →
    q.offset + i = p.offset + j → range.location + newLength ≤ j →
    j < d.length - range.length + newLength →
    h.get? (p.shift (j - newLength + range.length).toNat) = h.get? (q.shift i)

/-- There is memory for a copy of a source in the way, `realloc` takes the buffer,
the rounded capacity is no less than asked for, and no source in the block goes
unnoticed. -/
def Data.GrowsClean (H : Host) (h : Memory) (d : Data) (newBytes : Option Ptr)
    (newLength newCount : Int) : Prop :=
  (d.overlaps newBytes newLength = true → H.grant h.next newLength.toNat = true) ∧
  (newCount ≤ H.platform.dataMaxSize →
    (∀ p ∈ d.bytes, h.isBase p = true) ∧
    (H.grant (if d.overlaps newBytes newLength then h.next + 1 else h.next)
        (H.platform.roundUpCapacity newCount.toNat) = true →
      newCount ≤ H.platform.roundUpCapacity newCount.toNat ∧
      (d.overlaps newBytes newLength = false →
        ∀ p ∈ d.bytes, ∀ q ∈ newBytes, q.block ≠ p.block)))

/-- The count is of type `Index`, and the buffer suffices and the tail spares the
source, or it grows cleanly. -/
def Data.Spliceable (H : Host) (h : Memory) (d : Data) (range : Range) (newBytes : Option Ptr)
    (newLength : Int) : Prop :=
  d.length - range.length + newLength ≤ H.platform.indexMax ∧
  (d.length - range.length + newLength ≤ d.capacity → d.TailSpares h range newBytes newLength) ∧
  (d.capacity < d.length - range.length + newLength →
    d.GrowsClean H h newBytes newLength (d.length - range.length + newLength))

/-! ## In place -/

section Contents
variable {h h₂ : Memory} {p q : Ptr} {loc len n length : Nat} {old src : List UInt8}

/-- What the two moves leave is the splice exactly when the source is read as it was. -/
theorem load_splice_iff (hroom : Room h p loc len n length)
    (hold : load h (some p) length = .ok old) (hsrc : src.length = n) (hshape : SameShape h h₂)
    (hbefore : ∀ i, i < loc → h₂.get? (p.shift i) = h.get? (p.shift i))
    (hstored : ∀ i, i < n → h₂.get? (p.shift (loc + i)) = sourceAfter h p q loc len n length i)
    (htail : ∀ i, loc + n ≤ i → i < length - len + n →
      h₂.get? (p.shift i) = h.get? (p.shift (i - n + len))) :
    load h₂ (some p) (length - len + n) = .ok (splice old loc len src) ↔
      ∀ i, i < n → sourceAfter h p q loc len n length i = src[i]? := by
  obtain ⟨hrange, -, hnew⟩ := hroom
  obtain ⟨-, hlength, hcells⟩ := load_eq_ok_iff.mp hold
  have hin : loc + len ≤ old.length := by omega
  rw [load_eq_ok_iff]
  constructor
  · rintro ⟨-, -, hall⟩ i hi
    have hplace := hall (loc + i) (by omega)
    rw [hstored i hi, getElem?_splice hin, if_neg (by omega), if_pos (by omega),
      Nat.add_sub_cancel_left] at hplace
    exact hplace
  · intro hall
    refine ⟨by rw [hshape.room]; exact hnew, by rw [length_splice hin]; omega, fun i hi => ?_⟩
    rw [getElem?_splice hin]
    split
    next hlt => rw [hbefore i hlt, hcells i (by omega)]
    next hge =>
      split
      next hlt =>
        rw [← hall (i - loc) (by omega), ← hstored (i - loc) (by omega)]
        congr 2
        omega
      next hout => rw [htail i (by omega) hi, hcells _ (by omega), hsrc]

end Contents

section InPlace
variable {H : Host} {h : Memory} {d : Data} {range : Range} {newBytes : Option Ptr}
  {newLength : Int} {old src : List UInt8}

/-- The checks passed, `replaceBytes` makes room and moves. -/
theorem replaceBytes_eq (hvalid : d.ValidRange range) (hpos : 0 ≤ newLength)
    (hindex : d.length - range.length + newLength ≤ H.platform.indexMax) :
    d.replaceBytes H h range newBytes newLength = (do
      let (h, e, srcBuf) ← d.makeRoom H h range newBytes newLength
        (d.length - range.length + newLength)
      let h ← e.moveTail h range newLength
      let h ← e.storeSource h range srcBuf newLength
      let h ← Data.releaseSource h srcBuf newBytes
      .ok (h, { e with length := d.length - range.length + newLength })) := by
  obtain ⟨hloc, hlen, hend⟩ := hvalid
  rw [Data.replaceBytes, Data.validateRange, if_neg (not_not_intro ⟨hloc, by omega⟩),
    if_neg (not_not_intro hlen), if_neg (not_not_intro hend), ok_bind,
    if_neg (not_not_intro hpos), if_neg (by omega)]
  dsimp only
  rw [if_neg (by omega), if_neg (by omega)]

theorem exists_source {n : Nat} (hsrc : load h newBytes n = .ok src) :
    src.length = n ∧ ∃ q, (0 < n → newBytes = some q ∧ n ≤ h.room q) ∧
      (∀ q' ∈ newBytes, q' = q) ∧ ∀ i, i < n → h.get? (q.shift i) = src[i]? := by
  cases newBytes with
  | none =>
      rw [load] at hsrc
      by_cases hzero : n = 0
      · rw [if_pos hzero] at hsrc
        cases hsrc
        refine ⟨hzero.symm, ⟨0, 0⟩, fun hpos => ?_, fun q' hq' => ?_, fun i hi => ?_⟩
        · exact absurd hpos (by omega)
        · cases hq'
        · exact absurd hi (by omega)
      · rw [if_neg hzero] at hsrc
        cases hsrc
  | some q =>
      obtain ⟨hroom, hlen, hcells⟩ := load_eq_ok_iff.mp hsrc
      refine ⟨hlen, q, fun _ => ⟨rfl, hroom⟩, fun q' hq' => ?_, hcells⟩
      exact (Option.some.inj hq').symm

/-- Without a source in the place the tail goes to, the source is read as it was. -/
theorem sourceAfter_eq_iff {p q : Ptr} {loc len n length : Nat} (hbytes : d.bytes = some p)
    (hlength : d.length = length) (hq : ∀ q' ∈ newBytes, q' = q)
    (hsome : 0 < n → newBytes = some q) (hlen : len ≤ length) :
    (∀ i, i < n → sourceAfter h p q loc len n length i = h.get? (q.shift i)) ↔
      d.TailSpares h ⟨loc, len⟩ newBytes n := by
  rw [Data.TailSpares, hlength]
  constructor
  · rintro hall p' hp' q' hq' hb i j hi hij hlo hhi
    cases hbytes.symm.trans hp'
    cases hq q' hq'
    dsimp only at hlo hhi
    have hread := hall i (by omega)
    rw [sourceAfter, if_pos ⟨hb, by omega, by omega⟩] at hread
    rw [← hread]
    congr 2
    dsimp only
    omega
  · intro hspare i hi
    rw [sourceAfter]
    split
    next hc =>
      obtain ⟨hb, hlo, hhi⟩ := hc
      rw [← hspare p hbytes q (hsome (Nat.zero_lt_of_lt hi)) hb i (q.offset + i - p.offset)
        (by omega) (by omega) (by dsimp only; omega) (by dsimp only; omega)]
      congr 2
      dsimp only
      omega
    next => rfl

/-- The two moves, in a buffer that suffices. -/
theorem moves_splice_iff {p : Ptr} {loc len n length : Nat} (hbytes : d.bytes = some p)
    (hlength : d.length = length) (hroom : Room h p loc len n length)
    (hold : load h (some p) length = .ok old) (hsrc : load h newBytes n = .ok src) :
    Ends IsHalt (do
      let h ← d.moveTail h ⟨loc, len⟩ n
      let h ← d.storeSource h ⟨loc, len⟩ newBytes n
      let h ← Data.releaseSource h newBytes newBytes
      .ok (h, { d with length := (length : Int) - len + n })) (fun r =>
        r.2.length = (length : Int) - len + n ∧
        load r.1 r.2.bytes r.2.length.toNat = .ok (splice old loc len src)) ↔
      d.TailSpares h ⟨loc, len⟩ newBytes n := by
  obtain ⟨hsrcLen, q, hq, hq', hcells⟩ := exists_source hsrc
  obtain ⟨h₁, h₂, htail, hstore, hshape, hbefore, hstored, hafter⟩ :=
    edit_cells hbytes hlength hroom hq
  have hrange := hroom.range
  have hcount : ((length : Int) - len + n).toNat = length - len + n := by omega
  rw [htail, ok_bind, hstore, ok_bind, release_same, ok_bind, hbytes,
    ← sourceAfter_eq_iff hbytes hlength hq' (fun hpos => (hq hpos).1) (by omega)]
  show _ ∧ _ ↔ _
  rw [hcount, load_splice_iff hroom hold hsrcLen hshape hbefore hstored hafter]
  constructor
  · exact fun hres i hi => (hres.2 i hi).trans (hcells i hi).symm
  · exact fun hres => ⟨rfl, fun i hi => (hres i hi).trans (hcells i hi)⟩

/-- Where the buffer suffices. -/
theorem splices_inPlace_iff (hd : d.Sound h) (hvalid : d.ValidRange range) (hpos : 0 ≤ newLength)
    (hold : load h d.bytes d.length.toNat = .ok old)
    (hsrc : load h newBytes newLength.toNat = .ok src)
    (hindex : d.length - range.length + newLength ≤ H.platform.indexMax)
    (hle : d.length - range.length + newLength ≤ d.capacity) :
    d.Splices H h range newBytes newLength old src ↔ d.TailSpares h range newBytes newLength := by
  rw [Data.Splices, replaceBytes_eq hvalid hpos hindex, Data.makeRoom,
    if_neg (Int.not_lt.mpr hle), ok_bind]
  dsimp only
  obtain ⟨hnonneg, hcap, hroom⟩ := hd
  obtain ⟨hloc, hlen, hend⟩ := hvalid
  obtain ⟨location, length⟩ := range
  dsimp only at *
  lift location to ℕ using hloc with loc
  lift length to ℕ using hlen with len
  lift newLength to ℕ using hpos with n
  obtain ⟨L, hL⟩ := Int.eq_ofNat_of_zero_le hnonneg
  rw [hL, Int.toNat_natCast] at hold
  rw [Int.toNat_natCast] at hsrc
  cases hbytes : d.bytes with
  | none =>
      rw [hbytes] at hroom hold
      have hzero : d.capacity ≤ 0 := hroom
      obtain ⟨rfl, rfl, rfl, rfl⟩ : L = 0 ∧ loc = 0 ∧ len = 0 ∧ n = 0 := by omega
      have hnil : old = [] := (Except.ok.inj hold).symm
      have hnil' : src = [] := (Except.ok.inj hsrc).symm
      refine iff_of_true ?_ fun p hp => ?_
      · simp [Data.moveTail, Data.storeSource, release_same, hL, Ends, load, splice, hnil, hnil']
      · rw [hbytes] at hp
        cases hp
  | some p =>
      rw [hbytes] at hroom hold
      have hroom' : d.capacity ≤ h.room p := hroom
      have hplace : Room h p loc len n L := ⟨by omega, by omega, by omega⟩
      have hmoves := moves_splice_iff hbytes hL hplace hold hsrc
      rw [← hmoves, hL, hbytes]
      rfl

end InPlace

/-! ## Growing -/

section Grow
variable {H : Host} {h : Memory} {d : Data} {range : Range} {newBytes : Option Ptr}
  {newLength : Int} {old src : List UInt8}

theorem load_of_blocks_eq {h' : Memory} {p : Ptr} (hb : h'.blocks p.block = h.blocks p.block)
    (n : Nat) : load h' (some p) n = load h (some p) n := by
  have hcells : h'.cells? p.block = h.cells? p.block := by rw [cells?, cells?, hb]
  have hread : h'.read p n = h.read p n := by
    unfold Heap.read room
    rw [hcells]
  simp only [load, hread]

/-- A pointer that something can be read at is to a block that was handed out. -/
theorem block_lt_of_load {p : Ptr} {n : Nat} (hpos : 0 < n) (hload : load h (some p) n = .ok src) :
    p.block < h.next := by
  by_contra hge
  have hroom := (load_eq_ok_iff.mp hload).1
  rw [room_fresh (Nat.not_lt.mp hge)] at hroom
  omega

/-- The two moves, with a source in another block. -/
theorem moves_splice {e : Data} {p : Ptr} {loc len n length : Nat} {srcBuf : Option Ptr}
    (hbytes : e.bytes = some p) (hlength : e.length = length) (hroom : Room h p loc len n length)
    (hold : load h (some p) length = .ok old) (hsrc : load h srcBuf n = .ok src)
    (hapart : 0 < n → ∀ q ∈ srcBuf, q.block ≠ p.block) :
    ∃ h₁ h₂, e.moveTail h ⟨loc, len⟩ n = .ok h₁ ∧ e.storeSource h₁ ⟨loc, len⟩ srcBuf n = .ok h₂ ∧
      SameShape h h₂ ∧ load h₂ (some p) (length - len + n) = .ok (splice old loc len src) := by
  obtain ⟨hsrcLen, q, hq, hq', hcells⟩ := exists_source hsrc
  obtain ⟨h₁, h₂, htail, hstore, hshape, hbefore, hstored, hafter⟩ :=
    edit_cells hbytes hlength hroom hq
  refine ⟨h₁, h₂, htail, hstore, hshape, ?_⟩
  rw [load_splice_iff hroom hold hsrcLen hshape hbefore hstored hafter]
  intro i hi
  have hpos : 0 < n := Nat.zero_lt_of_lt hi
  rw [sourceAfter, if_neg fun hc => hapart hpos q (hq hpos).1 hc.1, hcells i hi]

/-- The buffer after growing, and the source: saved, or never in the way. -/
structure Ready (h : Memory) (d : Data) (newBytes : Option Ptr) (n size : Nat)
    (old src : List UInt8) (hs hg : Memory) (srcBuf : Option Ptr) : Prop where
  later : h.next ≤ hs.next
  idle : ∀ b, b ≠ h.next → hs.blocks b = h.blocks b
  grown : Grown hs d.bytes size hg
  content : load hg (some ⟨hs.next, 0⟩) old.length = .ok old
  source : load hg srcBuf n = .ok src
  apart : 0 < n → ∀ q ∈ srcBuf, q.block ≠ hs.next
  copied : srcBuf = newBytes ∨ ∃ q, newBytes = some q ∧ q.block ≠ h.next ∧ h.next ≠ hs.next ∧
    srcBuf = some ⟨h.next, 0⟩ ∧ hg.isBase ⟨h.next, 0⟩ = true

/-- The grown buffer begins with the old content. -/
theorem Grown.content {hs hg : Memory} {size length : Nat} (hgrown : Grown hs d.bytes size hg)
    (hold : load hs d.bytes length = .ok old) (hsize : length ≤ size) :
    load hg (some ⟨hs.next, 0⟩) old.length = .ok old := by
  have hroom : hg.room ⟨hs.next, 0⟩ = size := hgrown.regrown.room_new
  obtain ⟨hlen, q, hq, -, hcells⟩ := exists_source hold
  refine load_eq_ok_iff.mpr ⟨by omega, rfl, fun i hi => ?_⟩
  obtain ⟨hbytes, hfit⟩ := hq (by omega)
  rw [← hcells i (by omega), ← hgrown.cells q hbytes i (by omega) (by omega), Ptr.shift,
    Nat.zero_add]

/-- The data with its grown buffer, which starts the block `b`. -/
def Data.inBlock (H : Host) (d : Data) (count : Int) (b : Nat) : Data :=
  ⟨d.dontDeallocate, d.length, H.platform.roundUpCapacity count.toNat, some ⟨b, 0⟩⟩

/-- The source is saved and the buffer grown to `count`. -/
def GrowsReady (H : Host) (h : Memory) (d : Data) (newBytes : Option Ptr) (n : Nat)
    (count delta : Int) (old src : List UInt8) : Prop :=
  ∃ hs hg srcBuf, d.saveSource H h newBytes n = .ok (hs, srcBuf) ∧
    d.dataGrow H hs delta = .ok (hg, d.inBlock H count hs.next) ∧
    Ready h d newBytes n (H.platform.roundUpCapacity count.toNat) old src hs hg srcBuf

/-- Growing with a copy of the source put aside. -/
theorem grow_copied {n : Nat} {count delta : Int} (hcount : count = d.length + delta)
    (hnonneg : 0 ≤ count) (hold : load h d.bytes d.length.toNat = .ok old)
    (hsrc : load h newBytes n = .ok src) (hmax : count ≤ H.platform.dataMaxSize)
    (hover : d.overlaps newBytes n = true) (hcopies : H.grant h.next n = true)
    (hbase : ∀ p ∈ d.bytes, h.isBase p = true)
    (hgrant : H.grant (h.next + 1) (H.platform.roundUpCapacity count.toNat) = true)
    (hsize : d.length.toNat ≤ H.platform.roundUpCapacity count.toNat) :
    GrowsReady H h d newBytes n count delta old src := by
  subst hcount
  obtain ⟨hs, hrun, hnext, hidle, hfresh, hcopy⟩ := saveSource_copied hover hcopies hsrc
  obtain ⟨p, q, hp, rfl, hblock⟩ := overlaps_block hover
  have hne : p.block ≠ h.next := (Regrown.ne_of_isBase (hbase p hp)).symm
  have hbase' : ∀ p ∈ d.bytes, hs.isBase p = true := by
    intro p' hp'
    cases hp.symm.trans hp'
    rw [isBase_of_blocks_eq (hidle _ hne)]
    exact hbase p hp
  rw [← hnext] at hgrant
  obtain ⟨hg, hrun', hgrown⟩ := dataGrow_grown hmax hnonneg hbase' hgrant
  refine ⟨hs, hg, some ⟨h.next, 0⟩, hrun, hrun', by omega, hidle, hgrown,
    hgrown.content ?_ hsize, ?_, ?_, ?_⟩
  · rw [hp] at hold ⊢
    rw [load_of_blocks_eq (hidle _ hne), hold]
  · have hkeep : hg.blocks h.next = hs.blocks h.next := by
      refine hgrown.blocks _ (by omega) fun p' hp' => ?_
      cases hp.symm.trans hp'
      exact hne.symm
    rw [load_of_blocks_eq hkeep, hcopy]
  · rintro - q' hq'
    cases hq'
    show h.next ≠ hs.next
    omega
  · right
    refine ⟨q, rfl, hblock ▸ hne, by omega, rfl, ?_⟩
    refine hgrown.regrown.isBase (fun p' hp' => ?_) hfresh
    cases hp.symm.trans hp'
    exact hne.symm

/-- Growing with the source elsewhere. -/
theorem grow_apart {n : Nat} {count delta : Int} (hcount : count = d.length + delta)
    (hnonneg : 0 ≤ count) (hold : load h d.bytes d.length.toNat = .ok old)
    (hsrc : load h newBytes n = .ok src) (hmax : count ≤ H.platform.dataMaxSize)
    (hover : d.overlaps newBytes n ≠ true) (hbase : ∀ p ∈ d.bytes, h.isBase p = true)
    (hgrant : H.grant h.next (H.platform.roundUpCapacity count.toNat) = true)
    (hsize : d.length.toNat ≤ H.platform.roundUpCapacity count.toNat)
    (hapart : ∀ p ∈ d.bytes, ∀ q ∈ newBytes, q.block ≠ p.block) :
    GrowsReady H h d newBytes n count delta old src := by
  subst hcount
  obtain ⟨hg, hrun, hgrown⟩ := dataGrow_grown hmax hnonneg hbase hgrant
  refine ⟨h, hg, newBytes, by rw [Data.saveSource, if_neg hover], hrun, Nat.le_refl _,
    fun _ _ => rfl, hgrown, hgrown.content hold hsize, ?_, ?_, Or.inl rfl⟩
  · cases newBytes with
    | none => exact hsrc
    | some q =>
        by_cases hzero : n = 0
        · subst hzero
          exact hsrc
        · have hlt := block_lt_of_load (Nat.pos_of_ne_zero hzero) hsrc
          rw [load_of_blocks_eq (hgrown.blocks _ (by omega) fun p hp => hapart p hp q rfl), hsrc]
  · rintro hpos q hq
    cases hq
    exact Nat.ne_of_lt (block_lt_of_load hpos hsrc)

/-- Growing, from a memory in which all that it asks for is granted. -/
theorem makeRoom_ready (hpos : 0 ≤ newLength)
    (hnonneg : 0 ≤ d.length - range.length + newLength)
    (hold : load h d.bytes d.length.toNat = .ok old)
    (hsrc : load h newBytes newLength.toNat = .ok src)
    (hlt : d.capacity < d.length - range.length + newLength)
    (hmax : d.length - range.length + newLength ≤ H.platform.dataMaxSize)
    (hcopies : d.overlaps newBytes newLength = true → H.grant h.next newLength.toNat = true)
    (hbase : ∀ p ∈ d.bytes, h.isBase p = true)
    (hgrant : H.grant (if d.overlaps newBytes newLength then h.next + 1 else h.next)
      (H.platform.roundUpCapacity (d.length - range.length + newLength).toNat) = true)
    (hsize : d.length.toNat ≤
      H.platform.roundUpCapacity (d.length - range.length + newLength).toNat)
    (hapart : d.overlaps newBytes newLength = false →
      ∀ p ∈ d.bytes, ∀ q ∈ newBytes, q.block ≠ p.block) :
    ∃ hs hg srcBuf, d.makeRoom H h range newBytes newLength
        (d.length - range.length + newLength) =
          .ok (hg, d.inBlock H (d.length - range.length + newLength) hs.next, srcBuf) ∧
      Ready h d newBytes newLength.toNat
        (H.platform.roundUpCapacity (d.length - range.length + newLength).toNat) old src
        hs hg srcBuf := by
  have hcount : d.length - range.length + newLength = d.length + (newLength - range.length) := by
    omega
  obtain ⟨n, rfl⟩ := Int.eq_ofNat_of_zero_le hpos
  rw [Int.toNat_natCast] at hsrc hcopies ⊢
  have hgrow : GrowsReady H h d newBytes n (d.length - range.length + n) (n - range.length)
      old src := by
    by_cases hover : d.overlaps newBytes n = true
    · rw [if_pos hover] at hgrant
      exact grow_copied hcount hnonneg hold hsrc hmax hover (hcopies hover) hbase hgrant hsize
    · rw [if_neg hover] at hgrant
      exact grow_apart hcount hnonneg hold hsrc hmax hover hbase hgrant hsize
        (hapart (Bool.eq_false_iff.mpr hover))
  obtain ⟨hs, hg, srcBuf, hsave, hrun, hready⟩ := hgrow
  refine ⟨hs, hg, srcBuf, ?_, hready⟩
  rw [Data.makeRoom, if_pos hlt]
  simp only [hsave, hrun, ok_bind]

/-- Growing with all granted: the splice, in a buffer of its own. -/
theorem replaceBytes_grown (hvalid : d.ValidRange range) (hwide : range.length ≤ newLength)
    (hold : load h d.bytes d.length.toNat = .ok old)
    (hsrc : load h newBytes newLength.toNat = .ok src)
    (hindex : d.length - range.length + newLength ≤ H.platform.indexMax)
    (hlt : d.capacity < d.length - range.length + newLength)
    (hmax : d.length - range.length + newLength ≤ H.platform.dataMaxSize)
    (hcopies : d.overlaps newBytes newLength = true → H.grant h.next newLength.toNat = true)
    (hbase : ∀ p ∈ d.bytes, h.isBase p = true)
    (hgrant : H.grant (if d.overlaps newBytes newLength then h.next + 1 else h.next)
      (H.platform.roundUpCapacity (d.length - range.length + newLength).toNat) = true)
    (hfits : d.length - range.length + newLength ≤
      H.platform.roundUpCapacity (d.length - range.length + newLength).toNat)
    (hapart : d.overlaps newBytes newLength = false →
      ∀ p ∈ d.bytes, ∀ q ∈ newBytes, q.block ≠ p.block) :
    ∃ r, d.replaceBytes H h range newBytes newLength = .ok r ∧
      r.2.length = d.length - range.length + newLength ∧
      load r.1 r.2.bytes r.2.length.toNat =
        .ok (splice old range.location.toNat range.length.toNat src) := by
  obtain ⟨hloc, hlen, hend⟩ := hvalid
  have hpos : 0 ≤ newLength := Int.le_trans hlen hwide
  have hnonneg : 0 ≤ d.length := by omega
  obtain ⟨hs, hg, srcBuf, hroom, hready⟩ :=
    makeRoom_ready hpos (by omega) hold hsrc hlt hmax hcopies hbase hgrant (by omega) hapart
  rw [replaceBytes_eq ⟨hloc, hlen, hend⟩ hpos hindex, hroom, ok_bind]
  dsimp only
  obtain ⟨location, length⟩ := range
  dsimp only at *
  obtain ⟨loc, rfl⟩ := Int.eq_ofNat_of_zero_le hloc
  obtain ⟨len, rfl⟩ := Int.eq_ofNat_of_zero_le hlen
  obtain ⟨n, rfl⟩ := Int.eq_ofNat_of_zero_le hpos
  obtain ⟨L, hL⟩ := Int.eq_ofNat_of_zero_le hnonneg
  obtain ⟨hlater, -, hgrown, hcontent, hsource, hother, hcopied⟩ := hready
  rw [Int.toNat_natCast] at hsource hother
  have hlength : old.length = L := by
    rw [(exists_source hold).1]
    omega
  rw [hlength] at hcontent
  have hsize : hg.room ⟨hs.next, 0⟩ = _ := hgrown.regrown.room_new
  have hplace : Room hg ⟨hs.next, 0⟩ loc len n L := ⟨by omega, by omega, by omega⟩
  obtain ⟨h₁, h₂, htail, hstore, hshape, hload⟩ :=
    moves_splice (e := d.inBlock H (d.length - len + n) hs.next) rfl hL hplace hcontent hsource
      hother
  have hcount : (d.length - len + n).toNat = L - len + n := by omega
  rw [htail, ok_bind, hstore, ok_bind]
  rcases hcopied with rfl | ⟨q, rfl, hne, hne', rfl, hfresh⟩
  · rw [release_same, ok_bind]
    exact ⟨_, rfl, rfl, by rw [hcount]; exact hload⟩
  · obtain ⟨h', hrelease, hfree⟩ := release_copy (h := h₂) hne.symm ((hshape.base _).trans hfresh)
    rw [hrelease, ok_bind]
    refine ⟨_, rfl, rfl, ?_⟩
    show load h' (some ⟨hs.next, 0⟩) _ = _
    rw [hcount, load_of_blocks_eq (blocks_free hfree hne'.symm)]
    exact hload

/-- A move of at least one byte succeeds inside what is there, and nowhere else. -/
theorem memmove_cases {p q : Ptr} {n : Nat} (hn : n ≠ 0) :
    (n ≤ h.room p ∧ n ≤ h.room q ∧ ∃ h', memmove h (some p) (some q) n = .ok h' ∧ SameShape h h') ∨
    (h.room p < n ∨ h.room q < n) ∧ memmove h (some p) (some q) n = .error .outOfBounds := by
  by_cases hq : n ≤ h.room q
  · by_cases hp : n ≤ h.room p
    · obtain ⟨h', hrun, hmoved⟩ := memmove_moved hp hq
      exact Or.inl ⟨hp, hq, h', hrun, hmoved.shape⟩
    · refine Or.inr ⟨Or.inl (Nat.not_le.mp hp), ?_⟩
      obtain ⟨cells, hread, hlen⟩ := read_spec hq
      rw [memmove, if_neg hn]
      simp only [hread]
      rw [Heap.write, if_neg (by rw [hlen]; exact hp)]
  · refine Or.inr ⟨Or.inr (Nat.not_le.mp hq), ?_⟩
    rw [memmove, if_neg hn]
    simp only [Heap.read, if_neg hq]

/-- The two moves fail where the buffer or the source is too short. -/
theorem moves_fail {α : Type} {e : Data} {p q : Ptr} {loc len n length : Nat}
    (hbytes : e.bytes = some p) (hlength : e.length = length) (hrange : loc + len ≤ length)
    (hwide : len < n) (hshort : h.room p < length - len + n ∨ h.room q < n)
    (f : Memory → Except Fault α) :
    (do
      let h ← e.moveTail h ⟨loc, len⟩ n
      let h ← e.storeSource h ⟨loc, len⟩ (some q) n
      f h) = .error .outOfBounds := by
  have hstore : ∀ h₁, SameShape h h₁ → (h.room p < loc + n ∨ h.room q < n) →
      e.storeSource h₁ ⟨loc, len⟩ (some q) n = .error .outOfBounds := by
    intro h₁ hs hbad
    rw [Data.storeSource, hbytes, if_pos ⟨by omega, rfl⟩, advance_some (k := loc) rfl,
      Int.toNat_natCast]
    rcases memmove_cases (h := h₁) (p := p.shift loc) (q := q) (n := n) (by omega) with hok | hfail
    · obtain ⟨hp, hq, -⟩ := hok
      rw [room_shift, hs.room] at hp
      rw [hs.room] at hq
      omega
    · exact hfail.2
  rw [Data.moveTail, hbytes, hlength]
  dsimp only
  split
  next htail =>
    rw [advance_some (k := loc + n) (by omega), advance_some (k := loc + len) (by omega),
      show ((length : Int) - loc - len).toNat = length - len - loc by omega]
    rcases memmove_cases (h := h) (p := p.shift (loc + n)) (q := p.shift (loc + len))
      (n := length - len - loc) (by omega) with hok | hfail
    · obtain ⟨hp, -, h₁, hrun, hs⟩ := hok
      rw [room_shift] at hp
      rw [hrun, ok_bind, hstore h₁ hs (by omega), error_bind]
    · rw [hfail.2, error_bind]
  next hstay =>
    have hlast : loc + len = length := by
      by_contra hne
      exact hstay ⟨by omega, by omega⟩
    rw [ok_bind, hstore h (.refl h) (by omega), error_bind]

/-- The source, saved if need be. -/
theorem saveSource_spec {n : Nat} (hn : 0 < n) (hsrc : load h newBytes n = .ok src)
    (hcopies : d.overlaps newBytes n = true → H.grant h.next n = true) :
    ∃ hs q, d.saveSource H h newBytes n = .ok (hs, some q) ∧
      hs.next = (if d.overlaps newBytes n then h.next + 1 else h.next) ∧
      (∀ p ∈ d.bytes, hs.isBase p = h.isBase p) ∧
      (d.overlaps newBytes n = false → hs = h ∧ newBytes = some q) := by
  by_cases hover : d.overlaps newBytes n = true
  · obtain ⟨hs, hrun, hnext, hidle, -⟩ := saveSource_copied hover (hcopies hover) hsrc
    refine ⟨hs, _, hrun, by rw [if_pos hover, hnext], fun p hp => ?_, fun hno => ?_⟩
    · obtain ⟨p', q, hp', rfl, hblock⟩ := overlaps_block hover
      cases hp'.symm.trans hp
      have hlt := block_lt_of_load hn hsrc
      exact isBase_of_blocks_eq (hidle _ (by omega))
    · rw [hover] at hno
      cases hno
  · obtain ⟨-, q, hq, -⟩ := exists_source hsrc
    refine ⟨h, q, ?_, by rw [if_neg hover], fun _ _ => rfl, fun _ => ⟨rfl, (hq hn).1⟩⟩
    rw [Data.saveSource, if_neg hover, (hq hn).1]

/-- No memory for a copy of a source in the own buffer. -/
theorem saveSource_denied (hwide : 0 < newLength.toNat)
    (hover : d.overlaps newBytes newLength = true) (hno : H.grant h.next newLength.toNat ≠ true) :
    d.saveSource H h newBytes newLength = .error .dangling := by
  have hnull : memmove h.refuse none newBytes newLength.toNat = .error .dangling := by
    rw [memmove.eq_def, if_neg (Nat.ne_of_gt hwide)]
  rw [Data.saveSource, if_pos hover, Host.dataAllocate, if_neg hno]
  simp only [hnull, error_bind]

/-- `__dataGrow` when something is denied: too large and refused halt, a buffer
that is not the allocator's is a bad `free`. -/
theorem dataGrow_denied {n : Int} (hnonneg : 0 ≤ d.length + n) :
    (H.platform.dataMaxSize < d.length + n → d.dataGrow H h n = .error .halt) ∧
    (d.length + n ≤ H.platform.dataMaxSize → ¬ (∀ p ∈ d.bytes, h.isBase p = true) →
      d.dataGrow H h n = .error .badFree) ∧
    (d.length + n ≤ H.platform.dataMaxSize → (∀ p ∈ d.bytes, h.isBase p = true) →
      H.grant h.next (H.platform.roundUpCapacity (d.length + n).toNat) ≠ true →
      d.dataGrow H h n = .error .halt) := by
  rw [Data.dataGrow]
  dsimp only
  refine ⟨fun hmax => if_pos (Or.inl hmax), fun hmax hbad => ?_, fun hmax hbase hno => ?_⟩
  · rw [if_neg (by omega)]
    cases hp : d.bytes with
    | none => exact absurd (fun p hp' => by rw [hp] at hp'; cases hp') hbad
    | some p =>
        rw [Host.realloc, if_neg, error_bind]
        intro hb
        refine hbad fun p' hp' => ?_
        cases hp.symm.trans hp'
        exact hb
  · rw [if_neg (by omega)]
    cases hp : d.bytes with
    | none => rw [Host.realloc, Host.dataAllocate, if_neg hno, ok_bind]
    | some p => rw [Host.realloc, if_pos (hbase p hp), if_neg hno, ok_bind]

/-- Where the buffer has to grow. -/
theorem splices_grown_iff (hd : d.Sound h) (hvalid : d.ValidRange range) (hpos : 0 ≤ newLength)
    (hold : load h d.bytes d.length.toNat = .ok old)
    (hsrc : load h newBytes newLength.toNat = .ok src)
    (hindex : d.length - range.length + newLength ≤ H.platform.indexMax)
    (hlt : d.capacity < d.length - range.length + newLength) :
    d.Splices H h range newBytes newLength old src ↔
      d.GrowsClean H h newBytes newLength (d.length - range.length + newLength) := by
  have hnonneg := hd.nonneg
  have hcap := hd.le
  obtain ⟨hloc, hlen, hend⟩ := hvalid
  have hcount : d.length - range.length + newLength = d.length + (newLength - range.length) := by
    omega
  have hrun : d.replaceBytes H h range newBytes newLength = _ :=
    replaceBytes_eq ⟨hloc, hlen, hend⟩ hpos hindex
  rw [Data.makeRoom, if_pos hlt] at hrun
  obtain ⟨n, hn⟩ := Int.eq_ofNat_of_zero_le hpos
  have hsrc' : load h newBytes n = .ok src := by rw [hn] at hsrc; exact hsrc
  have hwide : 0 < n := by omega
  by_cases hcopies : d.overlaps newBytes newLength = true → H.grant h.next newLength.toNat = true
  swap
  · refine iff_of_false (fun hs => ?_) (fun hg => hcopies hg.1)
    obtain ⟨hover, hno⟩ := Classical.not_imp.mp hcopies
    rw [Data.Splices, hrun, saveSource_denied (by omega) hover hno, error_bind, error_bind] at hs
    cases hs
  obtain ⟨hs, q, hsave, hnext, hkeep, hapart⟩ :=
    saveSource_spec (H := H) (d := d) hwide hsrc' (by rw [hn] at hcopies; exact hcopies)
  rw [hn, hsave, ← hn] at hrun
  rw [← hn] at hnext hapart
  simp only [ok_bind] at hrun
  obtain ⟨htoo, hbad, hrefused⟩ :=
    dataGrow_denied (H := H) (h := hs) (d := d) (n := newLength - range.length) (by omega)
  rw [← hcount, hnext] at hrefused
  rw [← hcount] at htoo hbad
  have hbases : (∀ p ∈ d.bytes, hs.isBase p = true) ↔ ∀ p ∈ d.bytes, h.isBase p = true :=
    forall₂_congr fun p hp => by rw [hkeep p hp]
  rw [hbases] at hbad hrefused
  rw [Data.GrowsClean, Data.Splices]
  by_cases hmax : d.length - range.length + newLength ≤ H.platform.dataMaxSize
  swap
  · rw [hrun, htoo (Int.not_le.mp hmax)]
    exact iff_of_true isHalt ⟨hcopies, fun hle => absurd hle hmax⟩
  by_cases hbase : ∀ p ∈ d.bytes, h.isBase p = true
  swap
  · rw [hrun, hbad hmax hbase]
    exact iff_of_false (fun hhalt : Fault.badFree = .halt => by cases hhalt)
      fun hg => hbase (hg.2 hmax).1
  by_cases hgrant : H.grant (if d.overlaps newBytes newLength then h.next + 1 else h.next)
      (H.platform.roundUpCapacity (d.length - range.length + newLength).toNat) = true
  swap
  · rw [hrun, hrefused hmax hbase hgrant]
    exact iff_of_true isHalt ⟨hcopies, fun _ => ⟨hbase, fun hg => absurd hg hgrant⟩⟩
  by_cases hgood : d.length - range.length + newLength ≤
        H.platform.roundUpCapacity (d.length - range.length + newLength).toNat ∧
      (d.overlaps newBytes newLength = false → ∀ p ∈ d.bytes, ∀ q ∈ newBytes, q.block ≠ p.block)
  · obtain ⟨r, hr, hres⟩ := replaceBytes_grown ⟨hloc, hlen, hend⟩ (by omega) hold hsrc hindex hlt hmax
      hcopies hbase hgrant hgood.1 hgood.2
    rw [hr]
    exact iff_of_true hres ⟨hcopies, fun _ => ⟨hbase, fun _ => hgood⟩⟩
  -- the new block is too short, or the source went with the old one
  · refine iff_of_false (fun hres => ?_) fun hg => hgood ((hg.2 hmax).2 hgrant)
    obtain ⟨hg, hgrow, hgrown⟩ := dataGrow_grown (n := newLength - range.length)
      (by rw [← hcount]; exact hmax) (by omega) (hbases.mpr hbase)
      (by rw [← hcount, hnext]; exact hgrant)
    rw [hrun, hgrow] at hres
    simp only [ok_bind] at hres
    have hsize := hgrown.regrown.room_new
    rw [← hcount] at hsize
    obtain ⟨location, length⟩ := range
    dsimp only at *
    obtain ⟨loc, rfl⟩ := Int.eq_ofNat_of_zero_le hloc
    obtain ⟨len, rfl⟩ := Int.eq_ofNat_of_zero_le hlen
    obtain ⟨L, hL⟩ := Int.eq_ofNat_of_zero_le hnonneg
    have hshort : hg.room ⟨hs.next, 0⟩ < L - len + n ∨ hg.room q < n := by
      by_contra hno
      refine hgood ⟨by omega, fun hover p hp q' hq' hb => hno (Or.inr ?_)⟩
      cases ((hapart hover).2.symm.trans hq')
      rw [hgrown.gone p hp q hb]
      exact hwide
    rw [hn] at hres
    rw [moves_fail (e := ⟨d.dontDeallocate, d.length, _, some ⟨hs.next, 0⟩⟩) rfl hL (by omega)
      (by omega) hshort] at hres
    cases hres

end Grow

/-! ## The instances -/

section Instances
variable {H : Host} {h : Memory} {d : Data} {range : Range} {newBytes : Option Ptr}
  {newLength : Int} {old src : List UInt8}

/-- Behind the last byte there is no tail to move. -/
theorem tailSpares_append : d.TailSpares h ⟨d.length, 0⟩ newBytes newLength := by
  intro p _ q _ _ i j _ _ hlo hhi
  dsimp only at hlo hhi
  omega

/-- Appending where the buffer suffices, also what lies in it. -/
theorem appendBytes_splices (hd : d.Sound h) (hpos : 0 ≤ newLength)
    (hold : load h d.bytes d.length.toNat = .ok old)
    (hsrc : load h newBytes newLength.toNat = .ok src)
    (hindex : d.length + newLength ≤ H.platform.indexMax)
    (hle : d.length + newLength ≤ d.capacity) :
    d.Splices H h ⟨d.length, 0⟩ newBytes newLength old src :=
  (splices_inPlace_iff hd (validRange_end hd.nonneg) hpos hold hsrc (by dsimp only; omega)
    (by dsimp only; omega)).mpr tailSpares_append

/-- Deleting. -/
theorem deleteBytes_splices (hd : d.Sound h) (hvalid : d.ValidRange range)
    (hold : load h d.bytes d.length.toNat = .ok old) (hindex : d.length ≤ H.platform.indexMax) :
    d.Splices H h range none 0 old [] := by
  have hle := hd.le
  have hlen := hvalid.2.1
  exact (splices_inPlace_iff hd hvalid (Int.le_refl 0) hold rfl (by omega) (by omega)).mpr
    fun _ _ q hq => nomatch hq

end Instances

/-- An edit is a splice exactly when the buffer suffices and the moved tail spares
the source, or the buffer grows cleanly. -/
theorem splices_iff (H : Host) (h : Memory) (d : Data) (range : Range) (newBytes : Option Ptr)
    (newLength : Int) (old src : List UInt8) (hd : d.Sound h) (hvalid : d.ValidRange range)
    (hpos : 0 ≤ newLength) (hold : load h d.bytes d.length.toNat = .ok old)
    (hsrc : load h newBytes newLength.toNat = .ok src) :
    d.Splices H h range newBytes newLength old src ↔ d.Spliceable H h range newBytes newLength := by
  rw [Data.Spliceable]
  by_cases hindex : d.length - range.length + newLength ≤ H.platform.indexMax
  · rcases Int.lt_or_le d.capacity (d.length - range.length + newLength) with hlt | hle
    · rw [splices_grown_iff hd hvalid hpos hold hsrc hindex hlt]
      exact ⟨fun hg => ⟨hindex, fun hle => absurd hle (Int.not_le.mpr hlt), fun _ => hg⟩,
        fun hg => hg.2.2 hlt⟩
    · rw [splices_inPlace_iff hd hvalid hpos hold hsrc hindex hle]
      exact ⟨fun ht => ⟨hindex, fun _ => ht, fun hlt => absurd hle (Int.not_le.mpr hlt)⟩,
        fun ht => ht.2.1 hle⟩
  · refine iff_of_false (fun hs => ?_) fun hs => hindex hs.1
    obtain ⟨hloc, hlen, hend⟩ := hvalid
    have hnonneg := hd.nonneg
    rw [Data.Splices, Data.replaceBytes, Data.validateRange,
      if_neg (not_not_intro ⟨hloc, by omega⟩), if_neg (not_not_intro hlen),
      if_neg (not_not_intro hend), ok_bind, if_neg (not_not_intro hpos), if_neg (by omega)] at hs
    dsimp only at hs
    rw [if_pos (Int.not_le.mp hindex)] at hs
    cases hs

/-- A buffer of four bytes, three of them in use. -/
def threeOfFour : Data := ⟨false, 3, 4, some ⟨0, 0⟩⟩

def fourBytes : Memory := Heap.empty.malloc [1, 2, 3, 4]

theorem sound_threeOfFour : threeOfFour.Sound fourBytes := ⟨by decide, by decide, by decide⟩

theorem splices_iff_threeOfFour :
    (threeOfFour.Sound fourBytes ∧ threeOfFour.ValidRange ⟨0, 1⟩ ∧ (0 : Int) ≤ 2 ∧
      load fourBytes threeOfFour.bytes 3 = .ok [1, 2, 3] ∧
      load fourBytes (some ⟨0, 0⟩) 2 = .ok [1, 2]) ∧
    (threeOfFour.Splices generous fourBytes ⟨0, 1⟩ (some ⟨0, 0⟩) 2 [1, 2, 3] [1, 2] ↔
      threeOfFour.Spliceable generous fourBytes ⟨0, 1⟩ (some ⟨0, 0⟩) 2) :=
  ⟨⟨sound_threeOfFour, by decide, by decide, rfl, rfl⟩,
    splices_iff generous fourBytes threeOfFour ⟨0, 1⟩ (some ⟨0, 0⟩) 2 [1, 2, 3] [1, 2]
      sound_threeOfFour (by decide) (by decide) rfl rfl⟩

/-- The first byte replaced by the two behind it: the tail is there before they are
read. -/
theorem source_under_tail :
    threeOfFour.Sound fourBytes ∧ threeOfFour.ValidRange ⟨0, 1⟩ ∧
    load fourBytes threeOfFour.bytes 3 = .ok [1, 2, 3] ∧
    load fourBytes (some ⟨0, 1⟩) 2 = .ok [2, 3] ∧
    (∃ r, threeOfFour.replaceBytes generous fourBytes ⟨0, 1⟩ (some ⟨0, 1⟩) 2 = .ok r ∧
      load r.1 r.2.bytes 4 = .ok [2, 2, 2, 3]) ∧
    ¬ threeOfFour.Splices generous fourBytes ⟨0, 1⟩ (some ⟨0, 1⟩) 2 [1, 2, 3] [2, 3] := by
  refine ⟨sound_threeOfFour, by decide, rfl, rfl, ⟨_, rfl, rfl⟩, fun hs => ?_⟩
  cases hs.2

end Rx
