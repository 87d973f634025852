/-
# `Lib.HeapContents` — what the cells of a heap hold

`Heap` says which pointers may be touched.  Here every operation is described by
what it does to single cells: a write changes the cells it covers, a new block
holds what it was filled with, and a release changes no other block.  A read is
the list of the cells from its pointer on (`read_eq_some_iff`).
-/
import CrashRealm.Lib.Heap

universe u

/-- `p + n`. -/
def Ptr.shift (p : Ptr) (n : Nat) : Ptr := ⟨p.block, p.offset + n⟩

@[simp] theorem Ptr.shift_block (p : Ptr) (n : Nat) : (p.shift n).block = p.block := rfl

@[simp] theorem Ptr.shift_offset (p : Ptr) (n : Nat) : (p.shift n).offset = p.offset + n := rfl

theorem Ptr.shift_shift (p : Ptr) (m n : Nat) : (p.shift m).shift n = p.shift (m + n) := by
  rw [shift, shift, shift, Nat.add_assoc]

theorem Ptr.shift_sub {p q : Ptr} (hb : q.block = p.block) (hle : p.offset ≤ q.offset) :
    p.shift (q.offset - p.offset) = q := by
  rw [shift, ← hb, Nat.add_sub_cancel' hle]

namespace Heap

variable {α : Type u} {h h' : Heap α} {cs : List α}

/-- The cell at `p`, if it may be read. -/
def get? (h : Heap α) (p : Ptr) : Option α :=
  match h.cells? p.block with
  | some cells => cells[p.offset]?
  | none => none

theorem get?_of_blocks_eq {p : Ptr} (hb : h'.blocks p.block = h.blocks p.block) :
    h'.get? p = h.get? p := by
  rw [get?, get?, cells?, cells?, hb]

theorem get?_eq {p : Ptr} {block : Block α} (hb : h.blocks p.block = some block) :
    h.get? p = if block.live then block.cells[p.offset]? else none := by
  simp only [get?, cells?, hb]
  cases block.live with
  | true => rfl
  | false => rfl

theorem get?_of_cells {p : Ptr} {cells : List α} (hcells : h.cells? p.block = some cells)
    (i : Nat) : h.get? (p.shift i) = cells[p.offset + i]? := by
  simp only [get?, Ptr.shift_block, Ptr.shift_offset, hcells]

theorem room_of_read {p : Ptr} {n : Nat} (hread : h.read p n = some cs) : n ≤ h.room p := by
  by_contra hroom
  rw [read, if_neg hroom] at hread
  cases hread

theorem get?_of_read {p : Ptr} {n : Nat} (hread : h.read p n = some cs) {i : Nat} (hi : i < n) :
    h.get? (p.shift i) = cs[i]? := by
  have hroom := room_of_read hread
  rw [read, if_pos hroom] at hread
  cases hcells : h.cells? p.block with
  | none =>
      rw [room, hcells] at hroom
      exact absurd (Nat.le_zero.mp hroom) (Nat.ne_of_gt (Nat.zero_lt_of_lt hi))
  | some cells =>
      rw [hcells] at hread
      cases hread
      rw [get?_of_cells hcells, List.getElem?_take_of_lt hi, List.getElem?_drop]

/-- A read is the list of the cells from its pointer on. -/
theorem read_eq_some_iff {p : Ptr} {n : Nat} :
    h.read p n = some cs ↔
      n ≤ h.room p ∧ cs.length = n ∧ ∀ i, i < n → h.get? (p.shift i) = cs[i]? := by
  constructor
  · intro hread
    obtain ⟨cs', hread', hlen⟩ := read_spec (room_of_read hread)
    cases hread.symm.trans hread'
    exact ⟨room_of_read hread, hlen, fun i => get?_of_read hread⟩
  · rintro ⟨hroom, hlen, hcells⟩
    obtain ⟨cs', hread, hlen'⟩ := read_spec hroom
    rw [hread]
    congr 1
    refine List.ext_getElem? fun i => ?_
    by_cases hi : i < n
    · rw [← hcells i hi, get?_of_read hread hi]
    · rw [List.getElem?_eq_none (by omega), List.getElem?_eq_none (by omega)]

/-! ## What the operations change -/

theorem getElem?_overwrite {cells : List α} {offset : Nat}
    (hfit : offset + cs.length ≤ cells.length) (i : Nat) :
    (overwrite cells offset cs)[i]? =
      if offset ≤ i ∧ i < offset + cs.length then cs[i - offset]? else cells[i]? := by
  have hlen : (cells.take offset).length = offset := by
    rw [List.length_take]
    omega
  rw [overwrite]
  split
  next hin =>
    rw [List.getElem?_append_left (by rw [List.length_append]; omega),
      List.getElem?_append_right (by omega), hlen]
  next hout =>
    by_cases hlt : i < offset
    · rw [List.getElem?_append_left (by rw [List.length_append]; omega),
        List.getElem?_append_left (by omega), List.getElem?_take_of_lt hlt]
    · rw [List.getElem?_append_right (by rw [List.length_append]; omega), List.length_append, hlen,
        List.getElem?_drop]
      congr 1
      omega

/-- A write changes the cells it covers. -/
theorem get?_write {p : Ptr} (hw : h.write p cs = some h') (q : Ptr) :
    h'.get? q = if q.block = p.block ∧ p.offset ≤ q.offset ∧ q.offset < p.offset + cs.length
      then cs[q.offset - p.offset]? else h.get? q := by
  have hroom : cs.length ≤ h.room p := by
    by_contra hroom
    rw [write, if_neg hroom] at hw
    cases hw
  -- nothing is covered where nothing is written
  have hnil : cs.length = 0 → ¬ (q.block = p.block ∧ p.offset ≤ q.offset ∧
      q.offset < p.offset + cs.length) := by
    rintro hzero ⟨-, hle, hlt⟩
    omega
  rw [write, if_pos hroom] at hw
  split at hw
  next block hb =>
    rw [room_eq hb p.offset] at hroom
    split at hw
    next hin =>
      cases hw
      rw [if_pos hin.1] at hroom
      by_cases hq : q.block = p.block
      · have hself : (h.setBlock p.block { block with
            cells := overwrite block.cells p.offset cs } (lt_next hb)).blocks q.block
            = some { block with cells := overwrite block.cells p.offset cs } :=
          (congrArg _ hq).trans (Function.update_self ..)
        rw [get?_eq hself, get?_eq ((congrArg _ hq).trans hb), if_pos hin.1, if_pos hin.1,
          getElem?_overwrite (by omega)]
        simp only [hq, true_and]
      · rw [if_neg fun hc => hq hc.1]
        exact get?_of_blocks_eq (Function.update_of_ne hq ..)
    next hout =>
      cases hw
      rw [if_neg (hnil ?_)]
      by_cases hlive : block.live = true
      · rw [if_pos hlive] at hroom
        have hpast : ¬ p.offset ≤ block.cells.length := fun hle => hout ⟨hlive, hle⟩
        omega
      · rw [if_neg hlive] at hroom
        omega
  next hb =>
    cases hw
    rw [room, cells?, hb] at hroom
    rw [if_neg (hnil (Nat.le_zero.mp hroom))]

/-- A write changes one block and no name. -/
theorem blocks_write {p : Ptr} (hw : h.write p cs = some h') :
    h'.next = h.next ∧ ∀ b, b ≠ p.block → h'.blocks b = h.blocks b := by
  rw [write] at hw
  split at hw
  next =>
    split at hw
    next =>
      split at hw
      next =>
        cases hw
        exact ⟨rfl, fun b hb => Function.update_of_ne hb ..⟩
      next =>
        cases hw
        exact ⟨rfl, fun _ _ => rfl⟩
    next =>
      cases hw
      exact ⟨rfl, fun _ _ => rfl⟩
  next => cases hw

theorem blocks_malloc {b : Nat} (hb : b ≠ h.next) : (h.malloc cs).blocks b = h.blocks b :=
  Function.update_of_ne hb ..

theorem get?_malloc_new (i : Nat) : (h.malloc cs).get? ⟨h.next, i⟩ = cs[i]? := by
  have hself : (h.malloc cs).blocks h.next = some ⟨cs, true, true⟩ := Function.update_self ..
  exact get?_eq (p := ⟨h.next, i⟩) hself

/-- The block that is released is no longer live. -/
theorem exists_blocks_free {p : Ptr} (hfree : h.free p = some h') : ∃ block : Block α,
    h'.blocks = Function.update h.blocks p.block (some { block with live := false }) := by
  rw [free] at hfree
  split at hfree
  next =>
    split at hfree
    next block hb =>
      cases hfree
      exact ⟨block, rfl⟩
    next => cases hfree
  next => cases hfree

theorem blocks_free {p : Ptr} (hfree : h.free p = some h') {b : Nat} (hb : b ≠ p.block) :
    h'.blocks b = h.blocks b := by
  obtain ⟨block, hblocks⟩ := exists_blocks_free hfree
  rw [hblocks, Function.update_of_ne hb]

/-- What is released may not be touched. -/
theorem room_freed {p q : Ptr} (hfree : h.free p = some h') (hq : q.block = p.block) :
    h'.room q = 0 := by
  obtain ⟨block, hblocks⟩ := exists_blocks_free hfree
  have hself : h'.blocks q.block = some { block with live := false } := by
    rw [hblocks, hq, Function.update_self]
  exact room_eq hself q.offset

/-- What can still be released is another block. -/
theorem isBase_freed {p q : Ptr} (hfree : h.free p = some h') (hq : h'.isBase q = true) :
    q.block ≠ p.block ∧ h.isBase q = true := by
  obtain ⟨-, -, hbase, -⟩ := free_freed hfree
  have hne : q.block ≠ p.block := by
    intro heq
    obtain ⟨block, hblocks⟩ := exists_blocks_free hfree
    have hself : h'.blocks q.block = some { block with live := false } := by
      rw [hblocks, heq, Function.update_self]
    have hdead := hq.symm.trans (isBase_eq hself q.offset)
    cases hdead
  exact ⟨hne, (hbase q hne).symm.trans hq⟩

end Heap
