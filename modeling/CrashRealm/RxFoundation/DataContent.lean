/-
# `RxFoundation.DataContent` — what an edit does to the bytes

Seen from outside a `Data` is a list of bytes, and `replaceBytes` is a splice.

Here the moves are described cell by cell.  The tail goes to its new place
before the source is read, so what is stored is the source as the moved tail
leaves it (`sourceAfter`).
-/
import CrashRealm.RxFoundation.DataEffect
import CrashRealm.Lib.HeapContents

namespace Rx

open Heap

/-- The list with `len` elements from `loc` on replaced by `src`. -/
def splice (old : List UInt8) (loc len : Nat) (src : List UInt8) : List UInt8 :=
  old.take loc ++ src ++ old.drop (loc + len)

section Splice
variable {old src : List UInt8} {loc len : Nat}

theorem length_splice (hin : loc + len ≤ old.length) :
    (splice old loc len src).length = old.length - len + src.length := by
  rw [splice, List.length_append, List.length_append, List.length_take, List.length_drop]
  omega

theorem getElem?_splice (hin : loc + len ≤ old.length) (i : Nat) :
    (splice old loc len src)[i]? =
      if i < loc then old[i]?
      else if i < loc + src.length then src[i - loc]?
      else old[i - src.length + len]? := by
  have htake : (old.take loc).length = loc := by
    rw [List.length_take]
    omega
  rw [splice]
  split
  next hlt =>
    rw [List.getElem?_append_left (by rw [List.length_append]; omega),
      List.getElem?_append_left (by omega), List.getElem?_take_of_lt hlt]
  next hge =>
    split
    next hlt =>
      rw [List.getElem?_append_left (by rw [List.length_append]; omega),
        List.getElem?_append_right (by omega), htake]
    next hout =>
      rw [List.getElem?_append_right (by rw [List.length_append]; omega), List.length_append,
        htake, List.getElem?_drop]
      congr 1
      omega

end Splice

/-! ## Reading and moving -/

section Moves
variable {h : Memory} {p q : Ptr} {n : Nat}

theorem load_eq_ok_iff {cs : List UInt8} :
    load h (some p) n = .ok cs ↔
      n ≤ h.room p ∧ cs.length = n ∧ ∀ i, i < n → h.get? (p.shift i) = cs[i]? := by
  rw [← read_eq_some_iff, load]
  by_cases hzero : n = 0
  · subst hzero
    obtain ⟨cs', hread, hlen⟩ := read_spec (Nat.zero_le (h.room p))
    rw [if_pos rfl, hread, List.length_eq_zero_iff.mp hlen]
    exact ⟨fun heq => by cases heq; rfl, fun heq => by cases heq; rfl⟩
  · rw [if_neg hzero]
    cases h.read p n with
    | none => exact iff_of_false nofun nofun
    | some cs' => exact ⟨fun heq => by cases heq; rfl, fun heq => by cases heq; rfl⟩

/-- The `n` cells at `p` have got what those at `q` held, and no other has changed. -/
structure CellsMoved (h : Memory) (p q : Ptr) (n : Nat) (h' : Memory) : Prop where
  shape : SameShape h h'
  next : h'.next = h.next
  blocks : ∀ b, b ≠ p.block → h'.blocks b = h.blocks b
  inside : ∀ i, i < n → h'.get? (p.shift i) = h.get? (q.shift i)
  outside : ∀ a : Ptr, (a.block = p.block → a.offset < p.offset ∨ p.offset + n ≤ a.offset) →
    h'.get? a = h.get? a

theorem CellsMoved.none (h : Memory) (p q : Ptr) : CellsMoved h p q 0 h :=
  ⟨.refl h, rfl, fun _ _ => rfl, fun i hi => absurd hi (Nat.not_lt_zero i), fun _ _ => rfl⟩

/-- Inside what is there, a move copies, whatever overlaps. -/
theorem memmove_moved (hdst : n ≤ h.room p) (hsrc : n ≤ h.room q) :
    ∃ h', memmove h (some p) (some q) n = .ok h' ∧ CellsMoved h p q n h' := by
  rw [memmove]
  by_cases hzero : n = 0
  · subst hzero
    exact ⟨h, if_pos rfl, .none h p q⟩
  · rw [if_neg hzero]
    obtain ⟨cells, hread, hlen⟩ := read_spec hsrc
    obtain ⟨h', hwrite, hshape⟩ := write_spec (hlen ▸ hdst)
    simp only [hread, hwrite]
    obtain ⟨hnext, hblocks⟩ := blocks_write hwrite
    refine ⟨h', rfl, hshape, hnext, hblocks, fun i hi => ?_, fun a ha => ?_⟩
    · have hin : p.offset + i < p.offset + cells.length := by omega
      rw [get?_write hwrite, if_pos ⟨rfl, Nat.le_add_right .., hin⟩, get?_of_read hread hi,
        Ptr.shift_offset, Nat.add_sub_cancel_left]
    · rw [get?_write hwrite, if_neg]
      rintro ⟨hb, hle, hlt⟩
      rcases ha hb with hout | hout <;> omega

theorem advance_some {i : Int} {k : Nat} (hi : i = k) : advance (some p) i = some (p.shift k) := by
  rw [hi]
  rfl

theorem room_shift (h : Memory) (p : Ptr) (k : Nat) : h.room (p.shift k) = h.room p - k :=
  room_advance ..

end Moves

/-! ## Tail and source -/

/-- The cell of a source at `q` that is read for the `i`-th new byte: if the tail
has moved there, what the tail brought. -/
def sourceAfter (h : Memory) (p q : Ptr) (loc len n length i : Nat) : Option UInt8 :=
  if q.block = p.block ∧ p.offset + (loc + n) ≤ q.offset + i ∧
      q.offset + i < p.offset + (length - len + n)
  then h.get? (p.shift (q.offset + i - p.offset - n + len))
  else h.get? (q.shift i)

/-- What is at `p` and at `q`, and that it suffices for an edit. -/
structure Room (h : Memory) (p : Ptr) (loc len n length : Nat) : Prop where
  range : loc + len ≤ length
  old : length ≤ h.room p
  new : length - len + n ≤ h.room p

section Edit
variable {h : Memory} {e : Data} {p q : Ptr} {loc len n length : Nat}

/-- The tail goes behind the place of the new bytes. -/
theorem moveTail_moved (hbytes : e.bytes = some p) (hlength : e.length = length)
    (hroom : Room h p loc len n length) :
    ∃ h₁, e.moveTail h ⟨loc, len⟩ n = .ok h₁ ∧
      CellsMoved h (p.shift (loc + n)) (p.shift (loc + len)) (length - len - loc) h₁ := by
  obtain ⟨hrange, hold, hnew⟩ := hroom
  rw [Data.moveTail, hbytes, hlength]
  dsimp only
  split
  next =>
    rw [advance_some (k := loc + n) (by omega), advance_some (k := loc + len) (by omega),
      show ((length : Int) - loc - len).toNat = length - len - loc by omega]
    exact memmove_moved (by rw [room_shift]; omega) (by rw [room_shift]; omega)
  next hstay =>
    refine ⟨h, rfl, .refl h, rfl, fun _ _ => rfl, fun i hi => ?_, fun _ _ => rfl⟩
    -- nothing behind the range, or nothing to make way for
    have hsame : n = len := by
      by_contra hne
      exact hstay ⟨by omega, by omega⟩
    rw [hsame]

theorem storeSource_moved (hbytes : e.bytes = some p) (hroom : loc + n ≤ h.room p)
    {srcBuf : Option Ptr} (hsrc : 0 < n → srcBuf = some q ∧ n ≤ h.room q) :
    ∃ h₁, e.storeSource h ⟨loc, len⟩ srcBuf n = .ok h₁ ∧ CellsMoved h (p.shift loc) q n h₁ := by
  rw [Data.storeSource, hbytes]
  by_cases hzero : n = 0
  · subst hzero
    exact ⟨h, if_neg fun hc => absurd hc.1 (by decide), .none h _ q⟩
  · obtain ⟨rfl, hq⟩ := hsrc (Nat.pos_of_ne_zero hzero)
    rw [if_pos ⟨by omega, rfl⟩, advance_some (k := loc) rfl, Int.toNat_natCast]
    exact memmove_moved (by rw [room_shift]; omega) hq

/-- Both moves: the bytes before the range stay, the source as the moved tail
leaves it follows, and then the tail. -/
theorem edit_cells (hbytes : e.bytes = some p) (hlength : e.length = length)
    (hroom : Room h p loc len n length) {srcBuf : Option Ptr}
    (hsrc : 0 < n → srcBuf = some q ∧ n ≤ h.room q) :
    ∃ h₁ h₂, e.moveTail h ⟨loc, len⟩ n = .ok h₁ ∧ e.storeSource h₁ ⟨loc, len⟩ srcBuf n = .ok h₂ ∧
      SameShape h h₂ ∧
      (∀ i, i < loc → h₂.get? (p.shift i) = h.get? (p.shift i)) ∧
      (∀ i, i < n → h₂.get? (p.shift (loc + i)) = sourceAfter h p q loc len n length i) ∧
      (∀ i, loc + n ≤ i → i < length - len + n →
        h₂.get? (p.shift i) = h.get? (p.shift (i - n + len))) := by
  obtain ⟨h₁, htail, hs₁, -, -, hin₁, hout₁⟩ := moveTail_moved hbytes hlength hroom
  obtain ⟨hrange, hold, hnew⟩ := hroom
  have hsrc₁ : 0 < n → srcBuf = some q ∧ n ≤ h₁.room q := fun hpos =>
    ⟨(hsrc hpos).1, by rw [hs₁.room]; exact (hsrc hpos).2⟩
  obtain ⟨h₂, hstore, hs₂, -, -, hin₂, hout₂⟩ :
      ∃ h₂, e.storeSource h₁ ⟨loc, len⟩ srcBuf n = .ok h₂ ∧ CellsMoved h₁ (p.shift loc) q n h₂ :=
    storeSource_moved hbytes (by rw [hs₁.room]; omega) hsrc₁
  refine ⟨h₁, h₂, htail, hstore, hs₁.trans hs₂, fun i hi => ?_, fun i hi => ?_, fun i hlo hhi => ?_⟩
  · rw [hout₂ (p.shift i) fun _ => Or.inl (by simp only [Ptr.shift_offset]; omega),
      hout₁ (p.shift i) fun _ => Or.inl (by simp only [Ptr.shift_offset]; omega)]
  · rw [← Ptr.shift_shift, hin₂ i hi, sourceAfter]
    split
    next hc =>
      obtain ⟨hb, hlo, hhi⟩ := hc
      have hplace : q.shift i = (p.shift (loc + n)).shift (q.offset + i - p.offset - (loc + n)) := by
        rw [Ptr.shift_shift, ← Ptr.shift_sub (p := p) (q := q.shift i) hb
          (by simp only [Ptr.shift_offset]; omega)]
        congr 1
        simp only [Ptr.shift_offset]
        omega
      rw [hplace, hin₁ _ (by omega), Ptr.shift_shift]
      congr 2
      omega
    next hc =>
      refine hout₁ _ fun hb => ?_
      by_contra hno
      rw [not_or] at hno
      refine hc ⟨hb, ?_, ?_⟩
      · have := hno.1
        simp only [Ptr.shift_offset] at this
        omega
      · have := hno.2
        simp only [Ptr.shift_offset] at this
        omega
  · rw [hout₂ (p.shift i) fun _ => Or.inr (by simp only [Ptr.shift_offset]; omega)]
    have hplace : p.shift i = (p.shift (loc + n)).shift (i - (loc + n)) := by
      rw [Ptr.shift_shift, Nat.add_sub_cancel' hlo]
    rw [hplace, hin₁ _ (by omega), Ptr.shift_shift]
    congr 2
    omega

end Edit

/-! ## Growing -/

section Grow
variable {H : Host} {h : Memory} {d : Data}

/-- The first cells of a new block are those of the block it replaces. -/
theorem getElem?_movedCells {p : Ptr} {size i : Nat} (hroom : i < h.room p) (hsize : i < size) :
    (H.movedCells h p size)[i]? = h.get? (p.shift i) := by
  have hlt : i < min size (h.room p) := Nat.lt_min.mpr ⟨hsize, hroom⟩
  obtain ⟨cells, hread, hlen⟩ := read_spec (Nat.min_le_right size (h.room p))
  rw [Host.movedCells, hread, get?_of_read hread hlt]
  exact List.getElem?_append_left (show i < cells.length by rw [hlen]; exact hlt)

/-- The buffer grown to `size` cells: a new block with the old contents, the old
block gone, every other as it was. -/
structure Grown (h : Memory) (bytes : Option Ptr) (size : Nat) (hg : Memory) : Prop where
  regrown : Regrown h size bytes hg
  blocks : ∀ b, b ≠ h.next → (∀ p ∈ bytes, b ≠ p.block) → hg.blocks b = h.blocks b
  cells : ∀ p ∈ bytes, ∀ i, i < h.room p → i < size → hg.get? ⟨h.next, i⟩ = h.get? (p.shift i)
  gone : ∀ p ∈ bytes, ∀ q : Ptr, q.block = p.block → hg.room q = 0

theorem realloc_grown {bytes : Option Ptr} {size : Nat} (hbase : ∀ p ∈ bytes, h.isBase p = true)
    (hgrant : H.grant h.next size = true) :
    ∃ hg, H.realloc h bytes size = .ok (hg, some ⟨h.next, 0⟩) ∧ Grown h bytes size hg := by
  cases bytes with
  | none =>
      refine ⟨h.malloc (List.replicate size H.garbage), ?_, .fresh (List.length_replicate ..),
        fun b hb _ => blocks_malloc hb, nofun, nofun⟩
      rw [Host.realloc, Host.dataAllocate, if_pos hgrant]
      rfl
  | some p =>
      have hp := hbase p rfl
      have hne := Regrown.ne_of_isBase hp
      obtain ⟨hg, hfree, -⟩ :=
        free_spec (h := h.malloc (H.movedCells h p size)) (p := p) (isBase_add true hp)
      refine ⟨hg, ?_, .moved (length_movedCells p size) hp hfree, fun b hb hb' => ?_, ?_, ?_⟩
      · rw [Host.realloc, if_pos hp, if_pos hgrant, Rx.free, hfree]
        rfl
      · rw [blocks_free hfree (hb' p rfl), blocks_malloc hb]
      · rintro p' hp' i hroom hsize
        cases hp'
        rw [get?_of_blocks_eq (blocks_free hfree hne), get?_malloc_new,
          getElem?_movedCells hroom hsize]
      · rintro p' hp' q hq
        cases hp'
        exact room_freed hfree hq

theorem dataGrow_grown {n : Int} (hmax : d.length + n ≤ H.platform.dataMaxSize)
    (hnonneg : 0 ≤ d.length + n) (hbase : ∀ p ∈ d.bytes, h.isBase p = true)
    (hgrant : H.grant h.next (H.platform.roundUpCapacity (d.length + n).toNat) = true) :
    ∃ hg, d.dataGrow H h n = .ok (hg, ⟨d.dontDeallocate, d.length,
        H.platform.roundUpCapacity (d.length + n).toNat, some ⟨h.next, 0⟩⟩) ∧
      Grown h d.bytes (H.platform.roundUpCapacity (d.length + n).toNat) hg := by
  obtain ⟨hg, hrun, hgrown⟩ := realloc_grown hbase hgrant
  refine ⟨hg, ?_, hgrown⟩
  rw [Data.dataGrow]
  dsimp only
  rw [if_neg (by omega), hrun, ok_bind]

/-- The source, copied to a block of its own. -/
theorem saveSource_copied {newBytes : Option Ptr} {n : Nat} {src : List UInt8}
    (hover : d.overlaps newBytes n = true) (hgrant : H.grant h.next n = true)
    (hsrc : load h newBytes n = .ok src) :
    ∃ hs, d.saveSource H h newBytes n = .ok (hs, some ⟨h.next, 0⟩) ∧ hs.next = h.next + 1 ∧
      (∀ b, b ≠ h.next → hs.blocks b = h.blocks b) ∧ hs.isBase ⟨h.next, 0⟩ = true ∧
      load hs (some ⟨h.next, 0⟩) n = .ok src := by
  obtain ⟨-, q, -, rfl, -⟩ := overlaps_block hover
  obtain ⟨hroom, hlen, hcells⟩ := load_eq_ok_iff.mp hsrc
  have hnew : (h.malloc (List.replicate n H.garbage)).room ⟨h.next, 0⟩ = n :=
    (room_add_new true 0).trans (List.length_replicate ..)
  obtain ⟨hs, hrun, hmoved⟩ := memmove_moved (p := ⟨h.next, 0⟩) (q := q)
    (h := h.malloc (List.replicate n H.garbage)) (n := n) (Nat.le_of_eq hnew.symm)
    (Nat.le_trans hroom (room_add true q))
  refine ⟨hs, ?_, hmoved.next, fun b hb => ?_, ?_, ?_⟩
  · rw [Data.saveSource, if_pos hover, Host.dataAllocate, Int.toNat_natCast, if_pos hgrant]
    exact congrArg (· >>= _) hrun
  · rw [hmoved.blocks b hb, blocks_malloc hb]
  · rw [hmoved.shape.base]
    exact isBase_malloc_new
  · refine load_eq_ok_iff.mpr ⟨?_, hlen, fun i hi => ?_⟩
    · exact Nat.le_of_eq ((hmoved.shape.room _).trans hnew).symm
    · have hne : q.block ≠ h.next := by
        intro heq
        have hzero := room_fresh (h := h) (p := q) (Nat.le_of_eq heq.symm)
        omega
      rw [hmoved.inside i hi, get?_of_blocks_eq (p := q.shift i) (blocks_malloc hne),
        hcells i hi]

end Grow

end Rx
