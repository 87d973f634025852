/-
# `RxFoundation.DataEffect` — what an edit does to the heap

`Data.Sound` is what every method relies on: the length is within the capacity,
and the capacity within the bytes that are there.

**Effects.**  An edit that returns has one of three effects (`Edited`): it changes
contents only; it puts a new block in place of the old one; or it does so between
making and releasing a copy of a source that lay in the old one.

**Faults.**  Which faults are allowed is a parameter.  Where every fault but a bad
`free` is, an edit needs no more than a block of its own to grow from; where only
a halt is, it also needs the accesses to be within bounds (`Within`).
`replaceBytes_ends` covers both.
-/
import CrashRealm.RxFoundation.Data

namespace Rx

open Heap

/-- The bytes available at a byte pointer. -/
def available (h : Memory) (p : Option Ptr) : Nat :=
  match p with
  | none => 0
  | some p => h.room p

/-- `0 <= length <= capacity`, and the capacity is there. -/
structure Data.Sound (h : Memory) (d : Data) : Prop where
  nonneg : 0 ≤ d.length
  le : d.length ≤ d.capacity
  room : d.capacity ≤ available h d.bytes

theorem Data.Sound.mono {h h' : Memory} {d : Data} (hd : d.Sound h)
    (hroom : available h d.bytes ≤ available h' d.bytes) : d.Sound h' :=
  ⟨hd.nonneg, hd.le, Int.le_trans hd.room (Int.ofNat_le.mpr hroom)⟩

/-- Faults that an access out of bounds, or any other misuse but a bad `free`, may raise. -/
def Lenient (allowed : Fault → Prop) : Prop := ∀ e, e ≠ .badFree → allowed e

section Moves
variable {h : Memory}

theorem available_congr {h' : Memory} (hs : SameShape h h') (p : Option Ptr) :
    available h' p = available h p := by
  cases p with
  | none => rfl
  | some p => exact hs.room p

theorem available_advance {p : Option Ptr} {n : Int} {m : Nat}
    (hroom : n.toNat + m ≤ available h p) : m ≤ available h (advance p n) := by
  cases p with
  | none =>
      have hz : available h none = 0 := rfl
      omega
  | some p =>
      show m ≤ h.room ⟨p.block, p.offset + n.toNat⟩
      have hp : n.toNat + m ≤ h.room p := hroom
      rw [room_advance]
      show m ≤ h.room p - n.toNat
      omega

/-- A move changes contents only, and inside what is there it succeeds. -/
theorem memmove_ends {allowed : Fault → Prop} {dst src : Option Ptr} {n : Nat}
    (hsafe : Lenient allowed ∨ n ≤ available h dst ∧ n ≤ available h src) :
    Ends allowed (memmove h dst src n) (SameShape h) := by
  unfold memmove
  by_cases hn : n = 0
  · rw [if_pos hn]
    exact .refl h
  · rw [if_neg hn]
    rcases hsafe with hlenient | ⟨hdst, hsrc⟩
    · split
      next dst src =>
        split
        next => exact hlenient _ nofun
        next cells _ =>
          split
          next => exact hlenient _ nofun
          next h' hwrite => exact write_shape hwrite
      next => exact hlenient _ nofun
    · cases dst with
      | none => exact absurd (Nat.le_zero.mp hdst) hn
      | some dst =>
          cases src with
          | none => exact absurd (Nat.le_zero.mp hsrc) hn
          | some src =>
              obtain ⟨cells, hread, hlen⟩ := read_spec hsrc
              obtain ⟨h', hwrite, hshape⟩ := write_spec (hlen ▸ hdst)
              simp only [hread, hwrite]
              exact hshape

end Moves

/-! ## Growing -/

/-- A block of `size` cells, under the next name, in place of the one at `bytes`. -/
inductive Regrown (h : Memory) (size : Nat) : Option Ptr → Memory → Prop where
  | fresh {cells : List UInt8} (hlen : cells.length = size) : Regrown h size none (h.malloc cells)
  | moved {p : Ptr} {cells : List UInt8} {h' : Memory} (hlen : cells.length = size)
      (hbase : h.isBase p = true) (hfree : (h.malloc cells).free p = some h') :
      Regrown h size (some p) h'

namespace Regrown

variable {h h' : Memory} {size : Nat} {bytes : Option Ptr}

/-- What was moved is not the new block. -/
theorem ne_of_isBase {p : Ptr} (hp : h.isBase p = true) : h.next ≠ p.block :=
  (Nat.ne_of_lt (isBase_lt hp)).symm

theorem room_new (hg : Regrown h size bytes h') : h'.room ⟨h.next, 0⟩ = size := by
  cases hg with
  | fresh hlen => exact (room_add_new true 0).trans hlen
  | moved hlen hbase hfree =>
      rw [(free_freed hfree).room _ (ne_of_isBase hbase)]
      exact (room_add_new true 0).trans hlen

theorem room (hg : Regrown h size bytes h') {q : Ptr} (hq : ∀ p ∈ bytes, q.block ≠ p.block) :
    h.room q ≤ h'.room q := by
  cases hg with
  | fresh hlen => exact room_add true q
  | moved hlen hbase hfree =>
      rw [(free_freed hfree).room q (hq _ rfl)]
      exact room_add true q

theorem isBase (hg : Regrown h size bytes h') {q : Ptr} (hq : ∀ p ∈ bytes, q.block ≠ p.block)
    (hbase : h.isBase q = true) : h'.isBase q = true := by
  cases hg with
  | fresh hlen => exact isBase_add true hbase
  | moved hlen hold hfree =>
      rw [(free_freed hfree).base q (hq _ rfl)]
      exact isBase_add true hbase

end Regrown

section Grow
variable {H : Host} {h : Memory}

theorem length_movedCells (p : Ptr) (size : Nat) : (H.movedCells h p size).length = size := by
  obtain ⟨cells, hread, hlen⟩ := read_spec (Nat.min_le_right size (h.room p))
  rw [Host.movedCells, hread, List.length_append, List.length_replicate]
  show cells.length + (size - h.room p) = size
  omega

theorem realloc_ends {allowed : Fault → Prop} {bytes : Option Ptr} {size : Nat}
    (hbase : ∀ p ∈ bytes, h.isBase p = true) :
    Ends allowed (H.realloc h bytes size) fun r =>
      r.2 = none ∨ Regrown h size bytes r.1 ∧ r.2 = some ⟨h.next, 0⟩ := by
  cases bytes with
  | none =>
      rw [Host.realloc, Host.dataAllocate]
      split
      next => exact Or.inr ⟨.fresh (List.length_replicate ..), rfl⟩
      next => exact Or.inl rfl
  | some p =>
      have hp := hbase p rfl
      rw [Host.realloc, if_pos hp]
      split
      next =>
        obtain ⟨h', hfree, -⟩ :=
          free_spec (h := h.malloc (H.movedCells h p size)) (p := p) (isBase_add true hp)
        simp only [Rx.free, hfree]
        exact Or.inr ⟨.moved (length_movedCells p size) hp hfree, rfl⟩
      next => exact Or.inl rfl

/-- `__dataGrow` halts, or puts a new block of the rounded size in place. -/
theorem dataGrow_ends {allowed : Fault → Prop} (hhalt : allowed .halt) {d : Data} {n : Int}
    (hbase : d.length + n ≤ H.platform.dataMaxSize → ∀ p ∈ d.bytes, h.isBase p = true) :
    Ends allowed (d.dataGrow H h n) fun r =>
      d.length + n ≤ H.platform.dataMaxSize ∧
      Regrown h (H.platform.roundUpCapacity (d.length + n).toNat) d.bytes r.1 ∧
      r.2 = ⟨d.dontDeallocate, d.length,
        H.platform.roundUpCapacity (d.length + n).toNat, some ⟨h.next, 0⟩⟩ := by
  rw [Data.dataGrow]
  split
  next => exact hhalt
  next hmax =>
    have hle : d.length + n ≤ H.platform.dataMaxSize := by omega
    refine (realloc_ends (hbase hle)).bind ?_
    rintro ⟨h', bytes⟩ (hnone | ⟨hg, hsome⟩)
    · cases hnone
      exact hhalt
    · cases hsome
      exact ⟨hle, hg, rfl⟩

end Grow

/-! ## The source -/

/-- What became of the source before growing: it was not in the way, there was no
memory for a copy of it, or it was copied to a block of its own. -/
inductive Saved (h : Memory) (d : Data) (newBytes : Option Ptr) (newLength : Int) :
    Memory → Option Ptr → Prop where
  | untouched (hover : d.overlaps newBytes newLength = false) :
      Saved h d newBytes newLength h newBytes
  | refused (hover : d.overlaps newBytes newLength = true) {h' : Memory} (hs : SameShape h h') :
      Saved h d newBytes newLength h' none
  | copied (hover : d.overlaps newBytes newLength = true) {cells : List UInt8}
      (hlen : cells.length = newLength.toNat) {h' : Memory} (hs : SameShape (h.malloc cells) h') :
      Saved h d newBytes newLength h' (some ⟨h.next, 0⟩)

theorem overlaps_block {d : Data} {newBytes : Option Ptr} {newLength : Int}
    (hover : d.overlaps newBytes newLength = true) :
    ∃ p q, d.bytes = some p ∧ newBytes = some q ∧ p.block = q.block := by
  unfold Data.overlaps at hover
  cases hp : d.bytes with
  | none =>
      rw [hp] at hover
      cases hover
  | some p =>
      cases newBytes with
      | none =>
          rw [hp] at hover
          cases hover
      | some q =>
          simp only [hp, Bool.and_eq_true, beq_iff_eq] at hover
          exact ⟨p, q, rfl, rfl, hover.1.1⟩

section Source
variable {H : Host} {h : Memory} {allowed : Fault → Prop} {d : Data} {newBytes : Option Ptr}
  {newLength : Int}

theorem available_of_readable (hread : DataSystem.Readable h newBytes newLength)
    (hsome : newBytes.isSome = true) : newLength.toNat ≤ available h newBytes := by
  obtain ⟨q, rfl⟩ := Option.isSome_iff_exists.mp hsome
  exact hread q rfl

theorem saveSource_ends (hsafe : Lenient allowed ∨ DataSystem.Readable h newBytes newLength ∧
      (d.overlaps newBytes newLength = true →
        newLength = 0 ∨ H.grant h.next newLength.toNat = true)) :
    Ends allowed (d.saveSource H h newBytes newLength) fun r =>
      Saved h d newBytes newLength r.1 r.2 := by
  rw [Data.saveSource]
  by_cases hover : d.overlaps newBytes newLength = true
  · obtain ⟨-, q, -, rfl, -⟩ := overlaps_block hover
    rw [if_pos hover, Host.dataAllocate]
    by_cases hgrant : H.grant h.next newLength.toNat = true
    · rw [if_pos hgrant]
      have hlen : (List.replicate newLength.toNat H.garbage).length = newLength.toNat :=
        List.length_replicate ..
      refine (memmove_ends (hsafe.imp_right ?_)).bind fun h' hs => Saved.copied hover hlen hs
      rintro ⟨hread, -⟩
      exact ⟨Nat.le_of_eq ((room_add_new true 0).trans hlen).symm,
        Nat.le_trans (hread q rfl) (room_add true q)⟩
    · rw [if_neg hgrant]
      refine (memmove_ends (hsafe.imp_right ?_)).bind fun h' hs =>
        Saved.refused hover ((SameShape.refuse h).trans hs)
      rintro ⟨-, hroom⟩
      rw [(hroom hover).resolve_right hgrant]
      exact ⟨Nat.zero_le _, Nat.zero_le _⟩
  · rw [if_neg hover]
    exact .untouched (Bool.eq_false_iff.mpr hover)

end Source

/-! ## Moving, storing, releasing -/

section Store
variable {h : Memory} {allowed : Fault → Prop} {d : Data} {range : Range}
  {newBytes srcBuf : Option Ptr} {newLength : Int}

theorem moveTail_ends (hsafe : Lenient allowed ∨ d.ValidRange range ∧ 0 ≤ newLength ∧
      d.length ≤ available h d.bytes ∧ d.length - range.length + newLength ≤ available h d.bytes) :
    Ends allowed (d.moveTail h range newLength) (SameShape h) := by
  rw [Data.moveTail]
  split
  next =>
    refine memmove_ends (hsafe.imp_right ?_)
    rintro ⟨⟨hloc, hlen, hend⟩, hnew, hold, hcount⟩
    exact ⟨available_advance (by omega), available_advance (by omega)⟩
  next => exact .refl h

theorem storeSource_ends (hsafe : Lenient allowed ∨ 0 ≤ range.location ∧
      range.location + newLength ≤ available h d.bytes ∧
      (srcBuf.isSome = true → newLength.toNat ≤ available h srcBuf)) :
    Ends allowed (d.storeSource h range srcBuf newLength) (SameShape h) := by
  rw [Data.storeSource]
  split
  next hsome =>
    refine memmove_ends (hsafe.imp_right ?_)
    rintro ⟨hloc, hroom, hsrc⟩
    exact ⟨available_advance (by omega), hsrc hsome.2⟩
  next => exact .refl h

/-- What the moves after `makeRoom` need. -/
structure Storable (h : Memory) (d : Data) (range : Range) (srcBuf : Option Ptr)
    (newLength : Int) : Prop where
  valid : d.ValidRange range
  nonneg : 0 ≤ newLength
  old : d.length ≤ available h d.bytes
  new : d.length - range.length + newLength ≤ available h d.bytes
  source : srcBuf.isSome = true → newLength.toNat ≤ available h srcBuf

/-- The part of `replaceBytes` after `makeRoom`. -/
theorem finish_ends (hsafe : Lenient allowed ∨ Storable h d range srcBuf newLength) {n : Int}
    {Q : Memory → Prop} (hrelease : ∀ h', SameShape h h' →
      Ends allowed (Data.releaseSource h' srcBuf newBytes) Q) :
    Ends allowed (do
      let h ← d.moveTail h range newLength
      let h ← d.storeSource h range srcBuf newLength
      let h ← Data.releaseSource h srcBuf newBytes
      .ok (h, { d with length := n })) fun r => Q r.1 ∧ r.2 = { d with length := n } := by
  refine (moveTail_ends (hsafe.imp_right ?_)).bind fun h₁ hs₁ =>
    (storeSource_ends (hsafe.imp_right ?_)).bind fun h₂ hs₂ =>
      (hrelease h₂ (hs₁.trans hs₂)).bind fun h₃ hq => ⟨hq, rfl⟩
  · exact fun hs => ⟨hs.valid, hs.nonneg, hs.old, hs.new⟩
  · rintro ⟨⟨hloc, hlen, hend⟩, hnew, -, hcount, hsrc⟩
    rw [available_congr hs₁, available_congr hs₁]
    exact ⟨hloc, by omega, hsrc⟩

theorem release_same : Data.releaseSource h newBytes newBytes = .ok h := by
  rw [Data.releaseSource, if_neg (not_not_intro rfl)]

theorem release_none : Data.releaseSource h none newBytes = .ok h := by
  rw [Data.releaseSource]
  split
  next => rfl
  next => rfl

theorem release_copy {b : Nat} {q : Ptr} (hq : b ≠ q.block) (hbase : h.isBase ⟨b, 0⟩ = true) :
    ∃ h', Data.releaseSource h (some ⟨b, 0⟩) (some q) = .ok h' ∧ h.free ⟨b, 0⟩ = some h' := by
  obtain ⟨h', hfree, -⟩ := free_spec hbase
  have hne : some (⟨b, 0⟩ : Ptr) ≠ some q := by
    rintro heq
    cases heq
    exact hq rfl
  refine ⟨h', ?_, hfree⟩
  rw [Data.releaseSource, if_pos hne]
  simp only [Rx.free, hfree]

end Store

/-! ## `replaceBytes` -/

/-- What an edit to `newCount` bytes does: contents only; a new block for the old
one; or this between making and releasing a copy of the source. -/
inductive Edited (P : Platform) (h : Memory) (d : Data) (newCount : Int) : Memory → Data → Prop
  where
  | inPlace (hle : newCount ≤ d.capacity) {h' : Memory} (hs : SameShape h h') :
      Edited P h d newCount h' { d with length := newCount }
  | grown (hlt : d.capacity < newCount) (hmax : newCount ≤ P.dataMaxSize) {hs hg h' : Memory}
      (hidle : SameShape h hs) (hgrow : Regrown hs (P.roundUpCapacity newCount.toNat) d.bytes hg)
      (hstore : SameShape hg h') :
      Edited P h d newCount h'
        ⟨d.dontDeallocate, newCount, P.roundUpCapacity newCount.toNat, some ⟨hs.next, 0⟩⟩
  | grownAround (hlt : d.capacity < newCount) (hmax : newCount ≤ P.dataMaxSize)
      {hs hg hw h' : Memory} {cells : List UInt8} (hcopy : SameShape (h.malloc cells) hs)
      (hgrow : Regrown hs (P.roundUpCapacity newCount.toNat) d.bytes hg)
      (hstore : SameShape hg hw) (hrelease : hw.free ⟨h.next, 0⟩ = some h') :
      Edited P h d newCount h'
        ⟨d.dontDeallocate, newCount, P.roundUpCapacity newCount.toNat, some ⟨hs.next, 0⟩⟩

/-- What growing to `newCount` bytes relies on: memory for a copy of a source in
the way, a capacity that is no less than asked for, a buffer that `realloc` takes,
and no other way for the source to lie in it. -/
structure Growable (H : Host) (h : Memory) (d : Data) (newBytes : Option Ptr)
    (newLength newCount : Int) : Prop where
  copies : d.overlaps newBytes newLength = true →
    newLength = 0 ∨ H.grant h.next newLength.toNat = true
  fits : newCount ≤ H.platform.dataMaxSize → newCount ≤ H.platform.roundUpCapacity newCount.toNat
  base : newCount ≤ H.platform.dataMaxSize → ∀ p ∈ d.bytes, h.isBase p = true
  source : newCount ≤ H.platform.dataMaxSize → ∀ p ∈ d.bytes, ∀ q ∈ newBytes,
    q.block = p.block → newLength = 0 ∨ d.overlaps newBytes newLength = true

/-- An edit that stays within bounds. -/
structure Within (H : Host) (h : Memory) (d : Data) (range : Range) (newBytes : Option Ptr)
    (newLength : Int) : Prop where
  valid : d.ValidRange range
  nonneg : 0 ≤ newLength
  index : d.length - range.length + newLength ≤ H.platform.indexMax
  readable : DataSystem.Readable h newBytes newLength
  inPlace : d.length - range.length + newLength ≤ d.capacity → d.Sound h
  wider : d.capacity < d.length - range.length + newLength → range.length ≤ newLength
  grows : d.capacity < d.length - range.length + newLength →
    Growable H h d newBytes newLength (d.length - range.length + newLength)

section Replace
variable {H : Host} {h : Memory} {allowed : Fault → Prop} {d : Data} {range : Range}
  {newBytes : Option Ptr} {newLength : Int}

theorem Saved.isBase {hs : Memory} {srcBuf : Option Ptr}
    (hsaved : Saved h d newBytes newLength hs srcBuf) {p : Ptr} (hp : h.isBase p = true) :
    hs.isBase p = true := by
  cases hsaved with
  | untouched => exact hp
  | refused _ hsame => exact (hsame.base p).trans hp
  | copied _ _ hsame => exact (hsame.base p).trans (isBase_add true hp)

/-- The source is still there after the buffer has grown. -/
theorem Saved.available {hs hg : Memory} {srcBuf : Option Ptr} {size : Nat}
    (hsaved : Saved h d newBytes newLength hs srcBuf) (hg' : Regrown hs size d.bytes hg)
    (hread : DataSystem.Readable h newBytes newLength) (hbase : ∀ p ∈ d.bytes, h.isBase p = true)
    (hsource : ∀ p ∈ d.bytes, ∀ q ∈ newBytes, q.block = p.block →
      newLength = 0 ∨ d.overlaps newBytes newLength = true)
    (hsome : srcBuf.isSome = true) : newLength.toNat ≤ Rx.available hg srcBuf := by
  cases hsaved with
  | untouched hover =>
      obtain ⟨q, rfl⟩ := Option.isSome_iff_exists.mp hsome
      by_cases hzero : newLength = 0
      · rw [hzero]
        exact Nat.zero_le _
      · refine Nat.le_trans (hread q rfl) (hg'.room fun p hp hblock => ?_)
        have hin := (hsource p hp q rfl hblock).resolve_left hzero
        rw [hover] at hin
        cases hin
  | refused => cases hsome
  | copied hover hlen hsame =>
      have hkept : hs.room ⟨h.next, 0⟩ ≤ hg.room ⟨h.next, 0⟩ :=
        hg'.room fun p hp => Regrown.ne_of_isBase (hbase p hp)
      rw [hsame.room, ← hlen] at *
      exact Nat.le_trans (Nat.le_of_eq (room_add_new true 0).symm) hkept

theorem validateRange_ends (hsafe : Lenient allowed ∨ d.ValidRange range) :
    Ends allowed (d.validateRange range) fun _ => d.ValidRange range := by
  by_cases hv : d.ValidRange range
  · obtain ⟨hloc, hlen, hend⟩ := hv
    have hin : 0 ≤ range.location ∧ range.location ≤ d.length := ⟨hloc, by omega⟩
    rw [Data.validateRange, if_neg (not_not_intro hin), if_neg (not_not_intro hlen),
      if_neg (not_not_intro hend)]
    exact ⟨hloc, hlen, hend⟩
  · have hl := hsafe.resolve_right hv
    rw [Data.validateRange]
    split
    next => exact hl _ nofun
    next hloc =>
      split
      next => exact hl _ nofun
      next hlen =>
        split
        next => exact hl _ nofun
        next hend => exact absurd ⟨(not_not.mp hloc).1, not_not.mp hlen, not_not.mp hend⟩ hv

/-- Making room where there is not enough of it. -/
theorem makeRoom_ends (hhalt : allowed .halt)
    (hlt : d.capacity < d.length - range.length + newLength)
    (hbase : d.length - range.length + newLength ≤ H.platform.dataMaxSize →
      ∀ p ∈ d.bytes, h.isBase p = true)
    (hsafe : Lenient allowed ∨ Within H h d range newBytes newLength) :
    Ends allowed (d.makeRoom H h range newBytes newLength (d.length - range.length + newLength))
      fun r => ∃ hs, Saved h d newBytes newLength hs r.2.2 ∧
        d.length - range.length + newLength ≤ H.platform.dataMaxSize ∧
        Regrown hs (H.platform.roundUpCapacity (d.length - range.length + newLength).toNat)
          d.bytes r.1 ∧
        r.2.1 = ⟨d.dontDeallocate, d.length,
          H.platform.roundUpCapacity (d.length - range.length + newLength).toNat,
          some ⟨hs.next, 0⟩⟩ := by
  have hcount : d.length - range.length + newLength = d.length + (newLength - range.length) := by
    omega
  rw [Data.makeRoom, if_pos hlt]
  rw [hcount] at hbase ⊢
  refine (saveSource_ends (hsafe.imp_right fun hw => ⟨hw.readable, (hw.grows hlt).copies⟩)).bind ?_
  rintro ⟨hs, srcBuf⟩ hsaved
  refine (dataGrow_ends hhalt fun hmax p hp => hsaved.isBase (hbase hmax p hp)).bind ?_
  rintro ⟨hg, e⟩ ⟨hmax, hgrow, he⟩
  exact ⟨hs, hsaved, hmax, hgrow, he⟩

/-- The part of `replaceBytes` after its checks, where the buffer is large enough. -/
theorem replaceInPlace_ends (hle : d.length - range.length + newLength ≤ d.capacity)
    (hsafe : Lenient allowed ∨ Within H h d range newBytes newLength) :
    Ends allowed (do
      let h ← d.moveTail h range newLength
      let h ← d.storeSource h range newBytes newLength
      let h ← Data.releaseSource h newBytes newBytes
      .ok (h, { d with length := d.length - range.length + newLength })) fun r =>
        Edited H.platform h d (d.length - range.length + newLength) r.1 r.2 := by
  refine (finish_ends (Q := SameShape h) (hsafe.imp_right ?_) ?_).mono ?_
  · intro hw
    obtain ⟨hpos, hlen, hroom⟩ := hw.inPlace hle
    exact ⟨hw.valid, hw.nonneg, by omega, by omega, available_of_readable hw.readable⟩
  · intro h' hs
    rw [release_same]
    exact hs
  · rintro ⟨h', d'⟩ ⟨hs, rfl⟩
    exact .inPlace hle hs

/-- The same part, after the buffer has grown. -/
theorem replaceGrown_ends (hlt : d.capacity < d.length - range.length + newLength)
    (hmax : d.length - range.length + newLength ≤ H.platform.dataMaxSize)
    (hbase : ∀ p ∈ d.bytes, h.isBase p = true) {hs hg : Memory} {srcBuf : Option Ptr}
    (hsaved : Saved h d newBytes newLength hs srcBuf)
    (hgrow : Regrown hs
      (H.platform.roundUpCapacity (d.length - range.length + newLength).toNat) d.bytes hg)
    {e : Data} (he : e = ⟨d.dontDeallocate, d.length,
      H.platform.roundUpCapacity (d.length - range.length + newLength).toNat, some ⟨hs.next, 0⟩⟩)
    (hsafe : Lenient allowed ∨ Within H h d range newBytes newLength) :
    Ends allowed (do
      let h ← e.moveTail hg range newLength
      let h ← e.storeSource h range srcBuf newLength
      let h ← Data.releaseSource h srcBuf newBytes
      .ok (h, { e with length := d.length - range.length + newLength })) fun r =>
        Edited H.platform h d (d.length - range.length + newLength) r.1 r.2 := by
  subst he
  have hstorable : Within H h d range newBytes newLength →
      Storable hg ⟨d.dontDeallocate, d.length,
        H.platform.roundUpCapacity (d.length - range.length + newLength).toNat,
        some ⟨hs.next, 0⟩⟩ range srcBuf newLength := by
    intro hw
    have hfits := (hw.grows hlt).fits hmax
    have hwide := hw.wider hlt
    have hnew : available hg (some ⟨hs.next, 0⟩) = _ := hgrow.room_new
    refine ⟨hw.valid, hw.nonneg, ?_, ?_, hsaved.available hgrow hw.readable hbase
      ((hw.grows hlt).source hmax)⟩
    · show d.length ≤ available hg (some ⟨hs.next, 0⟩)
      rw [hnew]
      omega
    · show d.length - range.length + newLength ≤ available hg (some ⟨hs.next, 0⟩)
      rw [hnew]
      exact hfits
  cases hsaved with
  | untouched hover =>
      refine (finish_ends (Q := SameShape hg) (hsafe.imp_right hstorable) ?_).mono ?_
      · intro h' hs
        rw [release_same]
        exact hs
      · rintro ⟨h', d'⟩ ⟨hs, rfl⟩
        exact .grown hlt hmax (.refl h) hgrow hs
  | refused hover hsame =>
      refine (finish_ends (Q := SameShape hg) (hsafe.imp_right hstorable) ?_).mono ?_
      · intro h' hs
        rw [release_none]
        exact hs
      · rintro ⟨h', d'⟩ ⟨hs, rfl⟩
        exact .grown hlt hmax hsame hgrow hs
  | copied hover hlen hsame =>
      obtain ⟨p, q, hp, rfl, hblock⟩ := overlaps_block hover
      have hnext : h.next ≠ p.block := Regrown.ne_of_isBase (hbase p hp)
      have hcopy : hg.isBase ⟨h.next, 0⟩ = true := by
        refine hgrow.isBase ?_ ((hsame.base _).trans isBase_malloc_new)
        intro p' hp'
        exact Regrown.ne_of_isBase (hbase p' hp')
      refine (finish_ends (Q := fun h' => ∃ hw, SameShape hg hw ∧ hw.free ⟨h.next, 0⟩ = some h')
        (hsafe.imp_right hstorable) ?_).mono ?_
      · intro hw hstore
        obtain ⟨h', hok, hfree⟩ :=
          release_copy (hblock ▸ hnext) ((hstore.base _).trans hcopy)
        rw [hok]
        exact ⟨hw, hstore, hfree⟩
      · rintro ⟨h', d'⟩ ⟨⟨hw, hstore, hfree⟩, rfl⟩
        exact .grownAround hlt hmax hsame hgrow hstore hfree

/-- An edit: what it does if it returns, and by which faults it may be stopped. -/
theorem replaceBytes_ends (hhalt : allowed .halt)
    (hbase : d.capacity < d.length - range.length + newLength →
      d.length - range.length + newLength ≤ H.platform.dataMaxSize →
      ∀ p ∈ d.bytes, h.isBase p = true)
    (hsafe : Lenient allowed ∨ Within H h d range newBytes newLength) :
    Ends allowed (d.replaceBytes H h range newBytes newLength) fun r =>
      Edited H.platform h d (d.length - range.length + newLength) r.1 r.2 := by
  rw [Data.replaceBytes]
  refine (validateRange_ends (hsafe.imp_right Within.valid)).bind fun _ hvalid => ?_
  split
  next hneg => exact hsafe.elim (fun hl => hl _ nofun) fun hw => absurd hw.nonneg hneg
  split
  next => exact hhalt
  dsimp only
  split
  next hindex => 
    exact hsafe.elim (fun hl => hl _ nofun) fun hw => absurd hw.index (Int.not_le.mpr hindex)
  split
  next => exact hhalt
  by_cases hlt : d.capacity < d.length - range.length + newLength
  · refine (makeRoom_ends hhalt hlt (hbase hlt) hsafe).bind ?_
    rintro ⟨hg, e, srcBuf⟩ ⟨hs, hsaved, hmax, hgrow, he⟩
    exact replaceGrown_ends hlt hmax (hbase hlt hmax) hsaved hgrow he hsafe
  · rw [Data.makeRoom, if_neg hlt, ok_bind]
    exact replaceInPlace_ends (Int.not_lt.mp hlt) hsafe

end Replace

/-! ## What an edit leaves -/

namespace Edited

variable {P : Platform} {h h' : Memory} {d d' : Data} {newCount : Int}

/-- Only where the buffer grows does anybody else lose room, and only in its block. -/
theorem room (he : Edited P h d newCount h' d') {q : Ptr}
    (hq : d.capacity < newCount → newCount ≤ P.dataMaxSize → ∀ p ∈ d.bytes, q.block ≠ p.block) :
    h.room q ≤ h'.room q := by
  cases he with
  | inPlace hle hs => exact Nat.le_of_eq (hs.room q).symm
  | grown hlt hmax hidle hgrow hstore =>
      rw [hstore.room, ← hidle.room]
      exact hgrow.room (hq hlt hmax)
  | grownAround hlt hmax hcopy hgrow hstore hrelease =>
      by_cases hnext : q.block = h.next
      · rw [room_fresh (Nat.le_of_eq hnext.symm)]
        exact Nat.zero_le _
      · rw [(free_freed hrelease).room q hnext, hstore.room]
        refine Nat.le_trans ?_ (hgrow.room (hq hlt hmax))
        rw [hcopy.room]
        exact room_add true q

/-- The edited object is sound if the grown capacity is no less than asked for. -/
theorem sound (he : Edited P h d newCount h' d') (hpos : 0 ≤ newCount)
    (hold : newCount ≤ d.capacity → d.Sound h)
    (hfits : d.capacity < newCount → newCount ≤ P.dataMaxSize →
      newCount ≤ P.roundUpCapacity newCount.toNat) : d'.Sound h' := by
  cases he with
  | inPlace hle hs =>
      refine ⟨hpos, hle, ?_⟩
      show d.capacity ≤ available h' d.bytes
      rw [available_congr hs]
      exact (hold hle).room
  | grown hlt hmax hidle hgrow hstore =>
      refine ⟨hpos, hfits hlt hmax, Int.ofNat_le.mpr (Nat.le_of_eq ?_)⟩
      exact ((hstore.room _).trans hgrow.room_new).symm
  | @grownAround hlt hmax hs hg hw _ cells hcopy hgrow hstore hrelease =>
      have hne : hs.next ≠ h.next := Nat.ne_of_gt hcopy.next
      refine ⟨hpos, hfits hlt hmax, Int.ofNat_le.mpr (Nat.le_of_eq ?_)⟩
      show _ = h'.room ⟨hs.next, 0⟩
      rw [(free_freed hrelease).room _ hne, hstore.room, hgrow.room_new]

theorem length (he : Edited P h d newCount h' d') : d'.length = newCount := by
  cases he with
  | inPlace => rfl
  | grown => rfl
  | grownAround => rfl

theorem dontDeallocate (he : Edited P h d newCount h' d') :
    d'.dontDeallocate = d.dontDeallocate := by
  cases he with
  | inPlace => rfl
  | grown => rfl
  | grownAround => rfl

end Edited

end Rx
