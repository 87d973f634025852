/-
# `RxFoundation.DataCopy` — what the copy constructor makes of unset members

`Data(const Data &)` has no initialiser list and appends to what the members
happen to hold.  It yields a copy exactly when the length was zero, and either
the capacity was too small and `realloc` takes the pointer without taking the
source's block, or all was zero and there is nothing to copy (`copies_iff`).

That a copy stays a copy is the frame of `replaceBytes`: an edit changes the block
of the edited object and new ones, and nothing else (`replaceBytes_confined`).
-/
import CrashRealm.RxFoundation.DataSplice

namespace Rx

open Heap DataSystem

/-! ## The frame of an edit -/

/-- Blocks handed out before are as they were, but for the one at `own`. -/
structure Confined (h : Memory) (own : Option Ptr) (h' : Memory) : Prop where
  next : h.next ≤ h'.next
  blocks : ∀ b, b < h.next → (∀ p ∈ own, b ≠ p.block) → h'.blocks b = h.blocks b

/-- A pointer into a block that was handed out between `h` and `h'`. -/
def IsNew (h h' : Memory) (p : Option Ptr) : Prop :=
  ∀ q ∈ p, h.next ≤ q.block ∧ q.block < h'.next

section Frame
variable {H : Host} {h h₁ h₂ : Memory} {own own' : Option Ptr} {d : Data}

theorem Confined.refl (h : Memory) (own : Option Ptr) : Confined h own h :=
  ⟨Nat.le_refl _, fun _ _ _ => rfl⟩

/-- A second step may touch the same block, and any that is new. -/
theorem Confined.step (hc : Confined h own h₁) (hs : Confined h₁ own' h₂)
    (hown : own' = own ∨ ∀ p ∈ own', h.next ≤ p.block) : Confined h own h₂ := by
  refine ⟨Nat.le_trans hc.next hs.next, fun b hb hno => ?_⟩
  rw [hs.blocks b (Nat.lt_of_lt_of_le hb hc.next), hc.blocks b hb hno]
  intro p hp
  rcases hown with rfl | hnew
  · exact hno p hp
  · exact Nat.ne_of_lt (Nat.lt_of_lt_of_le hb (hnew p hp))

theorem memmove_confined (dst src : Option Ptr) (n : Nat) :
    Ends anyFault (memmove h dst src n) (Confined h dst) := by
  unfold memmove
  split
  · exact .refl h dst
  · split
    next dst src =>
      split
      next => trivial
      next =>
        split
        next => trivial
        next h' hwrite =>
          obtain ⟨hnext, hblocks⟩ := blocks_write hwrite
          exact ⟨Nat.le_of_eq hnext.symm, fun b _ hno => hblocks b (hno dst rfl)⟩
    next => trivial

theorem block_advance {p : Option Ptr} {n : Int} {q : Ptr} (hq : q ∈ advance p n) :
    ∃ p' ∈ p, q.block = p'.block := by
  cases p with
  | none => cases hq
  | some p =>
      cases hq
      exact ⟨p, rfl, rfl⟩

theorem Confined.of_advance {p : Option Ptr} {n : Int} (hc : Confined h (advance p n) h₁) :
    Confined h p h₁ := by
  refine ⟨hc.next, fun b hb hno => hc.blocks b hb fun q hq => ?_⟩
  obtain ⟨p', hp', hblock⟩ := block_advance hq
  exact hblock ▸ hno p' hp'

theorem dataAllocate_confined (size : Nat) (clear : Bool) :
    Confined h none (H.dataAllocate h size clear).1 ∧
      IsNew h (H.dataAllocate h size clear).1 (H.dataAllocate h size clear).2 := by
  rw [Host.dataAllocate]
  split
  · refine ⟨⟨Nat.le_succ _, fun b hb _ => blocks_malloc (Nat.ne_of_lt hb)⟩, fun q hq => ?_⟩
    cases hq
    exact ⟨Nat.le_refl _, Nat.lt_succ_self _⟩
  · exact ⟨⟨Nat.le_succ _, fun _ _ _ => rfl⟩, fun q hq => absurd hq (Option.not_mem_none q)⟩

theorem saveSource_confined (newBytes : Option Ptr) (newLength : Int) :
    Ends anyFault (d.saveSource H h newBytes newLength) fun r =>
      Confined h none r.1 ∧ (r.2 = newBytes ∨ ∀ p ∈ r.2, h.next ≤ p.block) := by
  rw [Data.saveSource]
  split
  · obtain ⟨hc, hnew⟩ := dataAllocate_confined (H := H) (h := h) newLength.toNat false
    refine (memmove_confined _ newBytes newLength.toNat).bind fun h₁ hmove => ?_
    exact ⟨hc.step hmove (Or.inr fun p hp => (hnew p hp).1), Or.inr fun p hp => (hnew p hp).1⟩
  · exact ⟨.refl h none, Or.inl rfl⟩

theorem free_confined (p : Option Ptr) : Ends anyFault (Rx.free h p) (Confined h p) := by
  cases p with
  | none => exact .refl h none
  | some p =>
      cases hfree : h.free p with
      | none =>
          simp only [Rx.free, hfree]
          trivial
      | some h' =>
          simp only [Rx.free, hfree]
          refine ⟨Nat.le_of_eq (free_freed hfree).next.symm, fun b _ hno => ?_⟩
          exact blocks_free hfree (hno p rfl)

theorem realloc_confined (bytes : Option Ptr) (size : Nat) :
    Ends anyFault (H.realloc h bytes size) fun r => Confined h bytes r.1 ∧ IsNew h r.1 r.2 := by
  cases bytes with
  | none => exact dataAllocate_confined size false
  | some p =>
      rw [Host.realloc]
      split
      · split
        · have hmalloc : Confined h (some p) (h.malloc (H.movedCells h p size)) :=
            ⟨Nat.le_succ _, fun b hb _ => blocks_malloc (Nat.ne_of_lt hb)⟩
          refine (free_confined (some p)).bind fun h₁ hfree => ⟨hmalloc.step hfree (Or.inl rfl), ?_⟩
          intro q hq
          cases hq
          exact ⟨Nat.le_refl _, Nat.lt_of_lt_of_le (Nat.lt_succ_self _) hfree.next⟩
        · refine ⟨⟨Nat.le_succ _, fun _ _ _ => rfl⟩, fun q hq => ?_⟩
          exact absurd hq (Option.not_mem_none q)
      · trivial

theorem dataGrow_confined (n : Int) :
    Ends anyFault (d.dataGrow H h n) fun r =>
      Confined h d.bytes r.1 ∧ IsNew h r.1 r.2.bytes ∧ r.2.length = d.length := by
  rw [Data.dataGrow]
  split
  · trivial
  · refine (realloc_confined d.bytes _).bind ?_
    rintro ⟨h₁, bytes⟩ ⟨hc, hnew⟩
    cases bytes with
    | none => trivial
    | some p => exact ⟨hc, hnew, rfl⟩

/-- An edit changes the block of the edited object and new ones, and nothing else. -/
theorem replaceBytes_confined (range : Range) (newBytes : Option Ptr) (newLength : Int) :
    Ends anyFault (d.replaceBytes H h range newBytes newLength) fun r =>
      Confined h d.bytes r.1 ∧ (r.2.bytes = d.bytes ∨ IsNew h r.1 r.2.bytes) ∧
        r.2.length = d.length - range.length + newLength := by
  have hroom : Ends anyFault (d.makeRoom H h range newBytes newLength
      (d.length - range.length + newLength)) fun r =>
        Confined h d.bytes r.1 ∧ (r.2.1.bytes = d.bytes ∨ IsNew h r.1 r.2.1.bytes) ∧
          (r.2.2 = newBytes ∨ ∀ p ∈ r.2.2, h.next ≤ p.block) := by
    rw [Data.makeRoom]
    split
    · refine (saveSource_confined newBytes newLength).bind ?_
      rintro ⟨h₁, srcBuf⟩ ⟨hsave, hsrc⟩
      refine (dataGrow_confined _).bind ?_
      rintro ⟨h₂, e⟩ ⟨hgrow, hnew, -⟩
      have hsave' : Confined h d.bytes h₁ :=
        ⟨hsave.next, fun b hb _ => hsave.blocks b hb fun p hp => by cases hp⟩
      refine ⟨hsave'.step hgrow (Or.inl rfl), Or.inr fun p hp => ?_, hsrc⟩
      exact ⟨Nat.le_trans hsave.next (hnew p hp).1, (hnew p hp).2⟩
    · exact ⟨.refl h d.bytes, Or.inl rfl, Or.inl rfl⟩
  rw [Data.replaceBytes]
  refine (Ends.any _).bind fun _ _ => ?_
  split
  · trivial
  split
  · trivial
  dsimp only
  split
  · trivial
  split
  · trivial
  refine hroom.bind ?_
  rintro ⟨h₁, e, srcBuf⟩ ⟨hc, hbytes, hsrc⟩
  have hown : e.bytes = d.bytes ∨ ∀ p ∈ e.bytes, h.next ≤ p.block :=
    hbytes.imp_right fun hnew p hp => (hnew p hp).1
  have htail : Ends anyFault (e.moveTail h₁ range newLength) (Confined h₁ e.bytes) := by
    rw [Data.moveTail]
    split
    · exact (memmove_confined _ _ _).mono fun _ => Confined.of_advance
    · exact .refl h₁ e.bytes
  refine htail.bind fun h₂ htail => ?_
  have hstore : Ends anyFault (e.storeSource h₂ range srcBuf newLength) (Confined h₂ e.bytes) := by
    rw [Data.storeSource]
    split
    · exact (memmove_confined _ _ _).mono fun _ => Confined.of_advance
    · exact .refl h₂ e.bytes
  refine hstore.bind fun h₃ hstore => ?_
  have hmoved := (hc.step htail hown).step hstore hown
  have hrelease : Ends anyFault (Data.releaseSource h₃ srcBuf newBytes) fun h₄ =>
      Confined h d.bytes h₄ ∧ h₃.next ≤ h₄.next := by
    rw [Data.releaseSource]
    split
    next hne =>
      refine (free_confined srcBuf).mono fun h₄ hfree => ⟨?_, hfree.next⟩
      exact hmoved.step hfree (Or.inr (hsrc.resolve_left hne))
    next => exact ⟨hmoved, Nat.le_refl _⟩
  refine hrelease.bind ?_
  rintro h₄ ⟨hlast, hnext⟩
  refine ⟨hlast, hbytes.imp_right fun hnew p hp => ?_, rfl⟩
  exact ⟨(hnew p hp).1, Nat.lt_of_lt_of_le (hnew p hp).2
    (Nat.le_trans htail.next (Nat.le_trans hstore.next hnext))⟩

end Frame

/-! ## Two objects side by side -/

/-- Edits of either of two objects, one after the other. -/
inductive EditedLater (H : Host) (h : Memory) (a b : Data) : Memory → Data → Data → Prop where
  | none : EditedLater H h a b h a b
  | left {h₁ h₂ : Memory} {a₁ a₂ b₁ : Data} {range : Range} {newBytes : Option Ptr}
      {newLength : Int} (hrun : EditedLater H h a b h₁ a₁ b₁)
      (hedit : a₁.replaceBytes H h₁ range newBytes newLength = .ok (h₂, a₂)) :
      EditedLater H h a b h₂ a₂ b₁
  | right {h₁ h₂ : Memory} {a₁ b₁ b₂ : Data} {range : Range} {newBytes : Option Ptr}
      {newLength : Int} (hrun : EditedLater H h a b h₁ a₁ b₁)
      (hedit : b₁.replaceBytes H h₁ range newBytes newLength = .ok (h₂, b₂)) :
      EditedLater H h a b h₂ a₁ b₂

/-- An edit of the one leaves the bytes of the other, now and later. -/
def Independent (H : Host) (h : Memory) (a b : Data) : Prop :=
  ∀ h₁ a₁ b₁, EditedLater H h a b h₁ a₁ b₁ → ∀ range newBytes newLength h₂ d₂,
    (a₁.replaceBytes H h₁ range newBytes newLength = .ok (h₂, d₂) →
      load h₂ b₁.bytes b₁.length.toNat = load h₁ b₁.bytes b₁.length.toNat) ∧
    (b₁.replaceBytes H h₁ range newBytes newLength = .ok (h₂, d₂) →
      load h₂ a₁.bytes a₁.length.toNat = load h₁ a₁.bytes a₁.length.toNat)

/-- The two have buffers in different blocks. -/
structure NoSharing (h : Memory) (a b : Data) : Prop where
  left : ∀ p ∈ a.bytes, p.block < h.next
  right : ∀ q ∈ b.bytes, q.block < h.next
  ne : ∀ p ∈ a.bytes, ∀ q ∈ b.bytes, p.block ≠ q.block

section NoSharing
variable {H : Host} {h h' : Memory} {a a' b : Data} {range : Range} {newBytes : Option Ptr}
  {newLength : Int}

theorem NoSharing.symm (hab : NoSharing h a b) : NoSharing h b a :=
  ⟨hab.right, hab.left, fun q hq p hp heq => hab.ne p hp q hq heq.symm⟩

theorem replaceBytes_frame (hedit : a.replaceBytes H h range newBytes newLength = .ok (h', a')) :
    Confined h a.bytes h' ∧ (a'.bytes = a.bytes ∨ IsNew h h' a'.bytes) ∧
      a'.length = a.length - range.length + newLength :=
  (replaceBytes_confined range newBytes newLength).of_ok (P := fun r : Memory × Data =>
    Confined h a.bytes r.1 ∧ (r.2.bytes = a.bytes ∨ IsNew h r.1 r.2.bytes) ∧
      r.2.length = a.length - range.length + newLength) hedit

/-- An edit of the one keeps them apart. -/
theorem NoSharing.edit (hab : NoSharing h a b)
    (hedit : a.replaceBytes H h range newBytes newLength = .ok (h', a')) : NoSharing h' a' b := by
  obtain ⟨hc, hbytes, -⟩ := replaceBytes_frame hedit
  have hright : ∀ q ∈ b.bytes, q.block < h'.next := fun q hq =>
    Nat.lt_of_lt_of_le (hab.right q hq) hc.next
  rcases hbytes with hsame | hnew
  · exact ⟨fun p hp => Nat.lt_of_lt_of_le (hab.left p (hsame ▸ hp)) hc.next, hright,
      fun p hp => hab.ne p (hsame ▸ hp)⟩
  · refine ⟨fun p hp => (hnew p hp).2, hright, fun p hp q hq => ?_⟩
    exact Nat.ne_of_gt (Nat.lt_of_lt_of_le (hab.right q hq) (hnew p hp).1)

/-- And leaves the bytes of the other. -/
theorem NoSharing.load (hab : NoSharing h a b)
    (hedit : a.replaceBytes H h range newBytes newLength = .ok (h', a')) (n : Nat) :
    load h' b.bytes n = load h b.bytes n := by
  obtain ⟨hc, -, -⟩ := replaceBytes_frame hedit
  cases hb : b.bytes with
  | none => rfl
  | some q =>
      refine load_of_blocks_eq (hc.blocks _ (hab.right q hb) fun p hp => ?_) n
      exact (hab.ne p hp q hb).symm

/-- Whatever edits follow, the two stay apart. -/
theorem NoSharing.independent (hab : NoSharing h a b) : Independent H h a b := by
  intro h₁ a₁ b₁ hrun
  have hlater : NoSharing h₁ a₁ b₁ := by
    induction hrun with
    | none => exact hab
    | left _ hedit ih => exact ih.edit hedit
    | right _ hedit ih => exact (ih.symm.edit hedit).symm
  exact fun range newBytes newLength h₂ d₂ =>
    ⟨fun hedit => hlater.load hedit _, fun hedit => hlater.symm.load hedit _⟩

end NoSharing

/-! ## What growing takes -/

section Inversion
variable {H : Host} {h h' : Memory} {d : Data} {range : Range} {newBytes : Option Ptr}
  {newLength : Int}

/-- Everything `__dataGrow` has done when it returns. -/
theorem dataGrow_inv {n : Int} (hnonneg : 0 ≤ d.length + n) :
    Ends anyFault (d.dataGrow H h n) fun r =>
      d.length + n ≤ H.platform.dataMaxSize ∧ (∀ p ∈ d.bytes, h.isBase p = true) ∧
      H.grant h.next (H.platform.roundUpCapacity (d.length + n).toNat) = true ∧
      r.2.capacity = H.platform.roundUpCapacity (d.length + n).toNat ∧
      ∀ p ∈ d.bytes, r.1.isBase p = false := by
  obtain ⟨htoo, hbad, hrefused⟩ := dataGrow_denied (H := H) (h := h) hnonneg
  by_cases hmax : d.length + n ≤ H.platform.dataMaxSize
  swap
  · rw [htoo (Int.not_le.mp hmax)]
    trivial
  by_cases hbase : ∀ p ∈ d.bytes, h.isBase p = true
  swap
  · rw [hbad hmax hbase]
    trivial
  by_cases hgrant : H.grant h.next (H.platform.roundUpCapacity (d.length + n).toNat) = true
  swap
  · rw [hrefused hmax hbase hgrant]
    trivial
  obtain ⟨hg, hrun, hgrown⟩ := dataGrow_grown hmax hnonneg hbase hgrant
  rw [hrun]
  refine ⟨hmax, hbase, hgrant, rfl, fun p hp => ?_⟩
  by_contra hlive
  have hregrown := hgrown.regrown
  rw [hp] at hregrown
  cases hregrown with
  | moved _ _ hfree => exact (isBase_freed hfree (eq_true_of_ne_false hlive)).1 rfl

/-- Releasing the copy of the source brings no block back. -/
theorem releaseSource_gone {srcBuf : Option Ptr} {p : Ptr} (hgone : h.isBase p = false) :
    Ends anyFault (Data.releaseSource h srcBuf newBytes) fun h' => h'.isBase p = false := by
  rw [Data.releaseSource]
  split
  · cases srcBuf with
    | none => exact hgone
    | some q =>
        simp only [Rx.free]
        cases hfree : h.free q with
        | none => trivial
        | some h' =>
            by_contra hlive
            have hbefore := (isBase_freed hfree (eq_true_of_ne_false hlive)).2
            rw [hgone] at hbefore
            cases hbefore
  · exact hgone

/-- What an edit that returned has done to the heap. -/
theorem edited_of_run {r : Memory × Data}
    (hbase : d.capacity < d.length - range.length + newLength → ∀ p ∈ d.bytes, h.isBase p = true)
    (hrun : d.replaceBytes H h range newBytes newLength = .ok r) :
    Edited H.platform h d (d.length - range.length + newLength) r.1 r.2 := by
  have hends : Ends anyFault (d.replaceBytes H h range newBytes newLength) _ :=
    replaceBytes_ends trivial (fun hlt _ => hbase hlt) (Or.inl fun _ _ => trivial)
  rw [hrun] at hends
  exact hends

/-- Everything an edit that grows has done when it returns. -/
theorem replaceBytes_inv (hlt : d.capacity < d.length - range.length + newLength) :
    Ends anyFault (d.replaceBytes H h range newBytes newLength) fun r =>
      ∃ hs srcBuf, d.saveSource H h newBytes newLength = .ok (hs, srcBuf) ∧
        d.length - range.length + newLength ≤ H.platform.dataMaxSize ∧
        (∀ p ∈ d.bytes, hs.isBase p = true) ∧
        H.grant hs.next
          (H.platform.roundUpCapacity (d.length - range.length + newLength).toNat) = true ∧
        r.2.capacity =
          H.platform.roundUpCapacity (d.length - range.length + newLength).toNat ∧
        ∀ p ∈ d.bytes, r.1.isBase p = false := by
  rw [Data.replaceBytes]
  refine (Ends.any _).bind fun _ _ => ?_
  split
  · trivial
  split
  · trivial
  dsimp only
  split
  · trivial
  split
  · trivial
  next hnonneg =>
    have hcount : d.length - range.length + newLength = d.length + (newLength - range.length) := by
      omega
    rw [Data.makeRoom, if_pos hlt]
    cases hsave : d.saveSource H h newBytes newLength with
    | error e => trivial
    | ok r =>
        obtain ⟨hs, srcBuf⟩ := r
        rw [ok_bind]
        rw [hcount] at hnonneg ⊢
        refine ((dataGrow_inv (by omega)).bind ?_).bind (P := fun r : Memory × Data × Option Ptr =>
          d.length + (newLength - range.length) ≤ H.platform.dataMaxSize ∧
          (∀ p ∈ d.bytes, hs.isBase p = true) ∧
          H.grant hs.next
            (H.platform.roundUpCapacity (d.length + (newLength - range.length)).toNat) = true ∧
          r.2.1.capacity =
            H.platform.roundUpCapacity (d.length + (newLength - range.length)).toNat ∧
          ∀ p ∈ d.bytes, r.1.isBase p = false) ?_
        · rintro ⟨hg, e⟩ hinv
          exact hinv
        · rintro ⟨hg, e, srcBuf'⟩ ⟨hmax, hbase, hgrant, hcap, hgone⟩
          refine (finish_ends (Q := fun h' => ∀ p ∈ d.bytes, h'.isBase p = false)
            (Or.inl fun _ _ => trivial) fun h₂ hshape => ?_).mono ?_
          · cases hp : d.bytes with
            | none => exact (Ends.any _).mono fun _ _ p hp' => absurd hp' (Option.not_mem_none p)
            | some p =>
                refine (releaseSource_gone ((hshape.base p).trans (hgone p hp))).mono ?_
                intro h₃ hgone₃ p' hp'
                cases hp'
                exact hgone₃
          · rintro ⟨h₃, d'⟩ ⟨hgone', rfl⟩
            exact ⟨hs, srcBuf, rfl, hmax, hbase, hgrant, hcap, hgone'⟩

end Inversion

/-! ## The copy constructor -/

/-- `r` is a heap with a copy of `d` on it: the same bytes, in a buffer that was
allocated on the way, with the block of `d` as it was. -/
structure IsCopy (H : Host) (h : Memory) (d : Data) (content : List UInt8) (r : Memory × Data) :
    Prop where
  length : r.2.length = d.length
  content : load r.1 r.2.bytes r.2.length.toNat = .ok content
  equal : r.2.equals r.1 d = .ok true
  sound : r.2.Sound r.1
  own : ∀ p ∈ r.2.bytes, h.next ≤ p.block ∧ r.1.isBase p = true
  kept : ∀ q ∈ d.bytes, r.1.blocks q.block = h.blocks q.block
  independent : Independent H r.1 r.2 d

def Data.Copies (H : Host) (h : Memory) (raw : RawData) (d : Data) (content : List UInt8) : Prop :=
  ∃ r, copyConstruct H h raw d = .ok r ∧ IsCopy H h d content r

/-- What the unset members have to hold: no length; and all else zero with nothing
to copy, or a capacity that is too small, with a pointer `realloc` can give up. -/
def RawData.CopyReady (H : Host) (h : Memory) (raw : RawData) (d : Data) : Prop :=
  raw.length = 0 ∧
  ((raw.capacity = 0 ∧ raw.bytes = none ∧ d.length = 0) ∨
   (raw.capacity < d.length ∧ d.length ≤ H.platform.dataMaxSize ∧
    (∀ p ∈ raw.bytes, h.isBase p = true ∧ ∀ q ∈ d.bytes, q.block ≠ p.block) ∧
    H.grant h.next (H.platform.roundUpCapacity d.length.toNat) = true ∧
    d.length ≤ H.platform.roundUpCapacity d.length.toNat))

section Copy
variable {H : Host} {h : Memory} {raw : RawData} {d : Data} {content : List UInt8}
  {r : Memory × Data}

theorem Regrown.isBase_new {hg : Memory} {size : Nat} {bytes : Option Ptr}
    (hgrow : Regrown h size bytes hg) : hg.isBase ⟨h.next, 0⟩ = true := by
  cases hgrow with
  | fresh => exact isBase_malloc_new
  | moved _ hbase hfree =>
      rw [(free_freed hfree).base _ (Regrown.ne_of_isBase hbase)]
      exact isBase_malloc_new

/-- The buffer of an object that has grown. -/
theorem Edited.fresh {P : Platform} {e : Data} {newCount : Int}
    (he : Edited P h e newCount r.1 r.2) (hlt : e.capacity < newCount) :
    ∀ p ∈ r.2.bytes, h.next ≤ p.block ∧ r.1.isBase p = true := by
  obtain ⟨h', d'⟩ := r
  cases he with
  | inPlace hle => exact absurd hle (Int.not_le.mpr hlt)
  | grown _ _ hidle hgrow hstore =>
      intro p hp
      cases hp
      exact ⟨hidle.next, (hstore.base _).trans hgrow.isBase_new⟩
  | @grownAround _ _ hs _ _ _ _ hcopy hgrow hstore hrelease =>
      intro p hp
      cases hp
      have hlater : h.next < hs.next := hcopy.next
      refine ⟨Nat.le_of_lt hlater, ?_⟩
      rw [(free_freed hrelease).base _ (Nat.ne_of_gt hlater), hstore.base]
      exact hgrow.isBase_new

/-- Into zero members of an empty object nothing is copied. -/
theorem copies_empty (hzero : raw.length = 0 ∧ raw.capacity = 0 ∧ raw.bytes = none)
    (hempty : d.length = 0) (hlive : ∀ q ∈ d.bytes, q.block < h.next)
    (hcontent : load h d.bytes d.length.toNat = .ok content) : d.Copies H h raw content := by
  obtain ⟨length, capacity, bytes⟩ := raw
  obtain ⟨rfl, rfl, rfl⟩ := hzero
  rw [hempty] at hcontent
  have hnil : content = [] := (Except.ok.inj hcontent).symm
  subst hnil
  refine ⟨(h, ⟨false, 0, 0, none⟩), ?_, hempty.symm, rfl, ?_,
    ⟨Int.le_refl 0, Int.le_refl 0, Int.le_refl 0⟩,
    nofun, fun _ _ => rfl, NoSharing.independent ⟨nofun, hlive, nofun⟩⟩
  · rw [Data.copyConstruct, Data.appendData, Data.appendBytes, hempty,
      replaceBytes_eq ⟨by decide, by decide, by decide⟩ (by decide) (by simp)]
    simp [Data.makeRoom, Data.moveTail, Data.storeSource, release_same]
  · rw [Data.equals, hempty]
    rfl

/-- Into members that make it grow, from a pointer that may be given up. -/
theorem copies_grown (hlength : IsLength H d.length) (hlive : ∀ q ∈ d.bytes, q.block < h.next)
    (hcontent : load h d.bytes d.length.toNat = .ok content) (hzero : raw.length = 0)
    (hlt : raw.capacity < d.length) (hmax : d.length ≤ H.platform.dataMaxSize)
    (hbytes : ∀ p ∈ raw.bytes, h.isBase p = true ∧ ∀ q ∈ d.bytes, q.block ≠ p.block)
    (hgrant : H.grant h.next (H.platform.roundUpCapacity d.length.toNat) = true)
    (hfits : d.length ≤ H.platform.roundUpCapacity d.length.toNat) :
    d.Copies H h raw content := by
  obtain ⟨length, capacity, bytes⟩ := raw
  subst hzero
  obtain ⟨hpos, hindex⟩ := hlength
  have hcount : (0 : Int) - 0 + d.length = d.length := by omega
  have hbase : ∀ p ∈ bytes, h.isBase p = true := fun p hp => (hbytes p hp).1
  have hover : Data.overlaps ⟨false, 0, capacity, bytes⟩ d.bytes d.length = false := by
    by_contra hover
    obtain ⟨p, q, hp, hq, hb⟩ := overlaps_block (eq_true_of_ne_false hover)
    exact (hbytes p hp).2 q hq hb.symm
  have hvalid : Data.ValidRange ⟨false, 0, capacity, bytes⟩ ⟨0, 0⟩ :=
    ⟨Int.le_refl 0, Int.le_refl 0, Int.le_refl 0⟩
  have hnone : load h bytes 0 = .ok [] := rfl
  obtain ⟨r, hrun, hlen, hload⟩ := replaceBytes_grown (H := H) hvalid hpos hnone hcontent
    (by rw [hcount]; exact hindex) (by rw [hcount]; exact hlt) (by rw [hcount]; exact hmax)
    (fun hc => absurd hc (by rw [hover]; nofun)) hbase (by rw [hover, hcount]; exact hgrant)
    (by rw [hcount]; exact hfits) fun _ p hp q hq => (hbytes p hp).2 q hq
  have hedit : Edited H.platform h ⟨false, 0, capacity, bytes⟩ ((0 : Int) - 0 + d.length) r.1 r.2 :=
    edited_of_run (fun _ => hbase) hrun
  rw [hcount] at hedit hlen
  obtain ⟨hc, hnew, -⟩ := replaceBytes_frame hrun
  have hown := hedit.fresh hlt
  have hkept : ∀ q ∈ d.bytes, r.1.blocks q.block = h.blocks q.block := fun q hq =>
    hc.blocks _ (hlive q hq) fun p hp => (hbytes p hp).2 q hq
  have hsame : load r.1 d.bytes d.length.toNat = .ok content := by
    rw [← hcontent]
    cases hq : d.bytes with
    | none => rfl
    | some q => exact load_of_blocks_eq (hkept q hq) _
  have hread : load r.1 r.2.bytes r.2.length.toNat = .ok content := by
    rw [hload]
    simp [splice]
  refine ⟨r, hrun, hlen, hread, ?_, ?_, hown, hkept, NoSharing.independent ⟨?_, ?_, ?_⟩⟩
  · rw [hlen] at hread
    rw [Data.equals, if_neg (not_not_intro hlen), hlen, hread, ok_bind, hsame, ok_bind]
    simp
  · exact hedit.sound hpos (fun hle => absurd hlt (Int.not_lt.mpr hle)) fun _ _ => hfits
  · exact fun p hp => isBase_lt (hown p hp).2
  · exact fun q hq => Nat.lt_of_lt_of_le (hlive q hq) hc.next
  · exact fun p hp q hq => Nat.ne_of_gt (Nat.lt_of_lt_of_le (hlive q hq) (hown p hp).1)

/-- A copy was made from members like these. -/
theorem copyReady_of_isCopy (hd : d.Sound h) (hlive : ∀ q ∈ d.bytes, q.block < h.next)
    (hcontent : load h d.bytes d.length.toNat = .ok content)
    (hrun : Data.copyConstruct H h raw d = .ok r) (hcopy : IsCopy H h d content r) :
    raw.CopyReady H h d := by
  obtain ⟨length, capacity, bytes⟩ := raw
  have hframe := replaceBytes_frame (h := h) (a := ⟨false, length, capacity, bytes⟩) hrun
  have hzero : length = 0 := by
    have hlen : r.2.length = length - 0 + d.length := hframe.2.2
    rw [hcopy.length] at hlen
    omega
  subst hzero
  have hcount : (0 : Int) - 0 + d.length = d.length := by omega
  refine ⟨rfl, ?_⟩
  by_cases hlt : capacity < d.length
  · right
    have hinv : Ends anyFault
        (Data.replaceBytes H h ⟨false, 0, capacity, bytes⟩ ⟨0, 0⟩ d.bytes d.length) _ :=
      replaceBytes_inv (by rw [hcount]; exact hlt)
    obtain ⟨hs, srcBuf, hsave, hmax, hbase, hgrant, hcap, hgone⟩ := hinv.of_ok hrun
    rw [hcount] at hmax hgrant hcap
    -- a block that is gone is not that of the source, which is kept
    have happart : ∀ p ∈ bytes, h.isBase p = true → ∀ q ∈ d.bytes, q.block ≠ p.block := by
      intro p hp hlivep q hq heq
      have hsame := isBase_of_blocks_eq (p := p) (heq ▸ hcopy.kept q hq)
      rw [hgone p hp, hlivep] at hsame
      cases hsame
    have hover : Data.overlaps ⟨false, 0, capacity, bytes⟩ d.bytes d.length = false := by
      by_contra hover
      obtain ⟨p, q, hp, hq, hb⟩ := overlaps_block (eq_true_of_ne_false hover)
      have hidle : Confined h none hs := ((saveSource_confined d.bytes d.length).of_ok
        (P := fun r : Memory × Option Ptr => Confined h none r.1 ∧ _) hsave).1
      have hlivep : h.isBase p = true := by
        rw [← hbase p hp]
        exact (isBase_of_blocks_eq (hidle.blocks _ (hb ▸ hlive q hq) nofun)).symm
      exact happart p hp hlivep q hq hb.symm
    have hs' : hs = h := by
      rw [Data.saveSource, hover] at hsave
      cases hsave
      rfl
    subst hs'
    refine ⟨hlt, hmax, fun p hp => ⟨hbase p hp, happart p hp (hbase p hp)⟩, hgrant, ?_⟩
    have hle := hcopy.sound.le
    rw [hcopy.length, hcap] at hle
    exact hle
  · left
    have hle : (0 : Int) - 0 + d.length ≤ capacity := by omega
    have hedit : Edited H.platform h ⟨false, 0, capacity, bytes⟩ ((0 : Int) - 0 + d.length)
        r.1 r.2 :=
      edited_of_run (fun hlt' => absurd hle (Int.not_le.mpr hlt')) hrun
    obtain ⟨h', d'⟩ := r
    cases hedit with
    | grown hlt' => exact absurd hle (Int.not_le.mpr hlt')
    | grownAround hlt' => exact absurd hle (Int.not_le.mpr hlt')
    | inPlace _ hshape =>
        have hnone : bytes = none := by
          cases bytes with
          | none => rfl
          | some p =>
              obtain ⟨hnew, hbase⟩ := hcopy.own p rfl
              rw [hshape.base] at hbase
              exact absurd (isBase_lt hbase) (Nat.not_lt.mpr hnew)
        subst hnone
        have hroom : capacity ≤ 0 := hcopy.sound.room
        have hnonneg := hd.nonneg
        exact ⟨by show capacity = 0; omega, rfl, by omega⟩

end Copy

/-- The copy constructor makes a copy exactly from members that are ready for it. -/
theorem copies_iff (H : Host) (h : Memory) (raw : RawData) (d : Data) (content : List UInt8)
    (hd : d.Sound h) (hlive : ∀ q ∈ d.bytes, q.block < h.next) (hlength : IsLength H d.length)
    (hcontent : load h d.bytes d.length.toNat = .ok content) :
    d.Copies H h raw content ↔ raw.CopyReady H h d := by
  constructor
  · rintro ⟨r, hrun, hcopy⟩
    exact copyReady_of_isCopy hd hlive hcontent hrun hcopy
  · rintro ⟨hzero, ⟨hcapacity, hbytes, hempty⟩ | ⟨hlt, hmax, hbytes, hgrant, hfits⟩⟩
    · exact copies_empty ⟨hzero, hcapacity, hbytes⟩ hempty hlive hcontent
    · exact copies_grown hlength hlive hcontent hzero hlt hmax hbytes hgrant hfits

theorem copies_iff_zeroed :
    (threeOfFour.Sound fourBytes ∧ (∀ q ∈ threeOfFour.bytes, q.block < fourBytes.next) ∧
      IsLength generous threeOfFour.length ∧
      load fourBytes threeOfFour.bytes 3 = .ok [1, 2, 3]) ∧
    (threeOfFour.Copies generous fourBytes .zeroed [1, 2, 3] ↔
      RawData.zeroed.CopyReady generous fourBytes threeOfFour) :=
  ⟨⟨sound_threeOfFour, by decide, by decide, rfl⟩,
    copies_iff generous fourBytes .zeroed threeOfFour [1, 2, 3] sound_threeOfFour (by decide)
      (by decide) rfl⟩

/-- Where a capacity of four and a null pointer were left, three bytes are written
through null; where a length of one was, the copy is one byte too long. -/
theorem unset_members_kept :
    (threeOfFour.Sound fourBytes ∧ (∀ q ∈ threeOfFour.bytes, q.block < fourBytes.next) ∧
      IsLength generous threeOfFour.length ∧
      load fourBytes threeOfFour.bytes 3 = .ok [1, 2, 3]) ∧
    Data.copyConstruct generous fourBytes ⟨0, 4, none⟩ threeOfFour = .error .dangling ∧
    (∃ r, Data.copyConstruct generous fourBytes ⟨1, 0, none⟩ threeOfFour = .ok r ∧
      r.2.length = 4) ∧
    ¬ threeOfFour.Copies generous fourBytes ⟨0, 4, none⟩ [1, 2, 3] := by
  refine ⟨⟨sound_threeOfFour, by decide, by decide, rfl⟩, rfl, ⟨_, rfl, rfl⟩, ?_⟩
  rintro ⟨r, hrun, -⟩
  cases hrun

end Rx
