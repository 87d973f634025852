/-
# `Lib.Heap` — blocks, pointers into them, and who has to release them

A heap hands out blocks of cells under names that are never used again.  A
pointer is a block and an offset; `room` is how many cells may be touched from it
on, which is none in a block that was released.  Reading and writing stay inside
the room, `free` takes the start of a live block that came from the allocator,
and whatever else is asked for has no answer.

**Shape.**  Writing changes contents only: `SameShape` collects what stays, and
everything below depends on nothing else.

**Accounts.**  Somebody is charged with some of the blocks, and at each moment a
function says who owns which (`Accounts`): owned blocks are live and not released,
no block has two owners, and a charged block without an owner was released
exactly once.  Allocating, adopting, releasing and replacing a block move the
owners along (`Accounts.take`, `.adopt`, `.drop`, `.replace`); when no owner is
left, every charged block was released exactly once (`Accounts.balanced`).
-/
import Mathlib.Data.List.Basic
import Mathlib.Data.List.Count
import Mathlib.Logic.Function.Basic

universe u v

structure Ptr where
  block : Nat
  offset : Nat
  deriving DecidableEq, Repr

/-- One block: its cells, whether it is live, and whether it came from the allocator. -/
structure Block (α : Type u) where
  cells : List α
  live : Bool
  malloced : Bool

/-- Blocks by name; the names handed out; what was released, newest first, and
which blocks `malloc` made. -/
structure Heap (α : Type u) where
  blocks : Nat → Option (Block α)
  next : Nat
  released : List Nat
  allocated : List Nat
  fresh : ∀ b, next ≤ b → blocks b = none

namespace Heap

variable {α : Type u}

def empty : Heap α := ⟨fun _ => none, 0, [], [], fun _ _ => rfl⟩

/-- The cells of a live block. -/
def cells? (h : Heap α) (b : Nat) : Option (List α) :=
  match h.blocks b with
  | some block => if block.live then some block.cells else none
  | none => none

/-- How many cells may be touched from `p` on. -/
def room (h : Heap α) (p : Ptr) : Nat :=
  match h.cells? p.block with
  | some cells => cells.length - p.offset
  | none => 0

/-- `p` is the start of a live block that came from the allocator. -/
def isBase (h : Heap α) (p : Ptr) : Bool :=
  match h.blocks p.block with
  | some block => block.live && block.malloced && p.offset == 0
  | none => false

def setBlock (h : Heap α) (b : Nat) (block : Block α) (hb : b < h.next) : Heap α where
  blocks := Function.update h.blocks b (some block)
  next := h.next
  released := h.released
  allocated := h.allocated
  fresh := by
    intro c hc
    rw [Function.update_of_ne (by omega)]
    exact h.fresh c hc

theorem lt_next {h : Heap α} {b : Nat} {block : Block α} (hb : h.blocks b = some block) :
    b < h.next := by
  by_contra hge
  rw [h.fresh b (Nat.not_lt.mp hge)] at hb
  cases hb

/-! ## Operations -/

def read (h : Heap α) (p : Ptr) (n : Nat) : Option (List α) :=
  if n ≤ h.room p then
    match h.cells? p.block with
    | some cells => some ((cells.drop p.offset).take n)
    | none => some []
  else none

/-- The cells of a block with `cs` put at `offset`. -/
def overwrite (cells : List α) (offset : Nat) (cs : List α) : List α :=
  cells.take offset ++ cs ++ cells.drop (offset + cs.length)

def write (h : Heap α) (p : Ptr) (cs : List α) : Option (Heap α) :=
  if cs.length ≤ h.room p then
    match hb : h.blocks p.block with
    | some block =>
        if block.live ∧ p.offset ≤ block.cells.length then
          some (h.setBlock p.block { block with cells := overwrite block.cells p.offset cs }
            (lt_next hb))
        else some h
    | none => some h
  else none

/-- A new block under the next name. -/
def add (h : Heap α) (cs : List α) (malloced : Bool) : Heap α where
  blocks := Function.update h.blocks h.next (some ⟨cs, true, malloced⟩)
  next := h.next + 1
  released := h.released
  allocated := h.allocated
  fresh := by
    intro c hc
    rw [Function.update_of_ne (by omega)]
    exact h.fresh c (by omega)

/-- A block from the allocator, filled with `cs`. -/
def malloc (h : Heap α) (cs : List α) : Heap α :=
  { h.add cs true with allocated := h.next :: h.allocated }

/-- A request that is refused uses up a name. -/
def refuse (h : Heap α) : Heap α where
  blocks := h.blocks
  next := h.next + 1
  released := h.released
  allocated := h.allocated
  fresh := fun b hb => h.fresh b (by omega)

def free (h : Heap α) (p : Ptr) : Option (Heap α) :=
  if h.isBase p then
    match hb : h.blocks p.block with
    | some block =>
        some { h.setBlock p.block { block with live := false } (lt_next hb) with
          released := p.block :: h.released }
    | none => none
  else none

/-! ## Shape -/

/-- The second heap is the first one but for contents and for names used up. -/
structure SameShape (h h' : Heap α) : Prop where
  room : ∀ p, h'.room p = h.room p
  base : ∀ p, h'.isBase p = h.isBase p
  next : h.next ≤ h'.next
  released : h'.released = h.released
  allocated : h'.allocated = h.allocated

theorem SameShape.refl (h : Heap α) : SameShape h h :=
  ⟨fun _ => rfl, fun _ => rfl, Nat.le_refl _, rfl, rfl⟩

theorem SameShape.refuse (h : Heap α) : SameShape h h.refuse :=
  ⟨fun _ => rfl, fun _ => rfl, Nat.le_succ _, rfl, rfl⟩

theorem SameShape.trans {h₁ h₂ h₃ : Heap α} (a : SameShape h₁ h₂) (b : SameShape h₂ h₃) :
    SameShape h₁ h₃ :=
  ⟨fun p => (b.room p).trans (a.room p), fun p => (b.base p).trans (a.base p),
    Nat.le_trans a.next b.next, b.released.trans a.released, b.allocated.trans a.allocated⟩

theorem length_overwrite {cells cs : List α} {offset : Nat}
    (h : offset + cs.length ≤ cells.length) :
    (overwrite cells offset cs).length = cells.length := by
  rw [overwrite, List.length_append, List.length_append, List.length_take, List.length_drop]
  omega

theorem room_eq {h : Heap α} {b : Nat} {block : Block α} (hb : h.blocks b = some block)
    (offset : Nat) : h.room ⟨b, offset⟩ = if block.live then block.cells.length - offset else 0 := by
  simp only [room, cells?, hb]
  cases block.live with
  | true => simp
  | false => simp

theorem room_advance (h : Heap α) (b offset n : Nat) :
    h.room ⟨b, offset + n⟩ = h.room ⟨b, offset⟩ - n := by
  simp only [room]
  cases h.cells? b with
  | none => exact (Nat.zero_sub n).symm
  | some cells => exact Nat.sub_add_eq ..

theorem isBase_eq {h : Heap α} {b : Nat} {block : Block α} (hb : h.blocks b = some block)
    (offset : Nat) : h.isBase ⟨b, offset⟩ = (block.live && block.malloced && offset == 0) := by
  rw [isBase, hb]

/-- What is not in the changed block is as it was. -/
theorem room_of_blocks_eq {h h' : Heap α} {p : Ptr} (hb : h'.blocks p.block = h.blocks p.block) :
    h'.room p = h.room p := by
  rw [room, room, cells?, cells?, hb]

theorem isBase_of_blocks_eq {h h' : Heap α} {p : Ptr}
    (hb : h'.blocks p.block = h.blocks p.block) : h'.isBase p = h.isBase p := by
  rw [isBase, isBase, hb]

/-- A write inside the room succeeds and keeps the shape. -/
theorem write_spec {h : Heap α} {p : Ptr} {cs : List α} (hroom : cs.length ≤ h.room p) :
    ∃ h', h.write p cs = some h' ∧ SameShape h h' := by
  rw [write, if_pos hroom]
  split
  next block hb =>
    split
    next hin =>
      have hself : (h.setBlock p.block { block with
          cells := overwrite block.cells p.offset cs } (lt_next hb)).blocks p.block
          = some { block with cells := overwrite block.cells p.offset cs } :=
        Function.update_self ..
      have hlen : p.offset + cs.length ≤ block.cells.length := by
        rw [room_eq hb p.offset, if_pos hin.1] at hroom
        omega
      refine ⟨_, rfl, ?_, ?_, Nat.le_refl _, rfl, rfl⟩
      · rintro ⟨b, offset⟩
        by_cases hq : b = p.block
        · subst hq
          rw [room_eq hself, room_eq hb, length_overwrite hlen]
        · exact room_of_blocks_eq (Function.update_of_ne hq ..)
      · rintro ⟨b, offset⟩
        by_cases hq : b = p.block
        · subst hq
          rw [isBase_eq hself, isBase_eq hb]
        · exact isBase_of_blocks_eq (Function.update_of_ne hq ..)
    next => exact ⟨h, rfl, .refl h⟩
  next => exact ⟨h, rfl, .refl h⟩

theorem write_shape {h h' : Heap α} {p : Ptr} {cs : List α} (hw : h.write p cs = some h') :
    SameShape h h' := by
  by_cases hroom : cs.length ≤ h.room p
  · obtain ⟨h'', hw', hs⟩ := write_spec hroom
    cases hw.symm.trans hw'
    exact hs
  · rw [write, if_neg hroom] at hw
    cases hw

theorem read_spec {h : Heap α} {p : Ptr} {n : Nat} (hroom : n ≤ h.room p) :
    ∃ cs, h.read p n = some cs ∧ cs.length = n := by
  rw [read, if_pos hroom]
  rw [room] at hroom
  split
  next cells hcells =>
    rw [hcells] at hroom
    refine ⟨_, rfl, ?_⟩
    rw [List.length_take, List.length_drop]
    exact Nat.min_eq_left hroom
  next hcells =>
    rw [hcells] at hroom
    exact ⟨[], rfl, (Nat.le_zero.mp hroom).symm⟩

/-! ## Allocation and release -/

section Blocks
variable {h : Heap α} {cs : List α}

/-- Nothing may be touched under a name that was not handed out. -/
theorem room_fresh {p : Ptr} (hp : h.next ≤ p.block) : h.room p = 0 := by
  rw [room, cells?, h.fresh p.block hp]

/-- Every old pointer keeps its room. -/
theorem room_add (malloced : Bool) (p : Ptr) : h.room p ≤ (h.add cs malloced).room p := by
  by_cases hp : p.block = h.next
  · rw [room_fresh (Nat.le_of_eq hp.symm)]
    exact Nat.zero_le _
  · exact Nat.le_of_eq (room_of_blocks_eq (Function.update_of_ne hp ..)).symm

theorem room_add_new (malloced : Bool) (offset : Nat) :
    (h.add cs malloced).room ⟨h.next, offset⟩ = cs.length - offset := by
  have hself : (h.add cs malloced).blocks h.next = some ⟨cs, true, malloced⟩ :=
    Function.update_self ..
  rw [room_eq hself]
  rfl

theorem isBase_add (malloced : Bool) {p : Ptr} (hp : h.isBase p = true) :
    (h.add cs malloced).isBase p = true := by
  have hne : p.block ≠ h.next := by
    intro heq
    rw [isBase, h.fresh p.block (Nat.le_of_eq heq.symm)] at hp
    cases hp
  rw [← hp]
  exact isBase_of_blocks_eq (Function.update_of_ne hne ..)

theorem isBase_malloc_new : (h.malloc cs).isBase ⟨h.next, 0⟩ = true := by
  have hself : (h.malloc cs).blocks h.next = some ⟨cs, true, true⟩ := Function.update_self ..
  rw [isBase_eq hself]
  rfl

theorem isBase_lt {p : Ptr} (hp : h.isBase p = true) : p.block < h.next := by
  by_contra hge
  rw [isBase, h.fresh p.block (Nat.not_lt.mp hge)] at hp
  cases hp

theorem isBase_offset {p : Ptr} (hp : h.isBase p = true) : p = ⟨p.block, 0⟩ := by
  rw [isBase] at hp
  split at hp
  next => rw [← beq_iff_eq.mp (Bool.and_eq_true_iff.mp hp).2]
  next => cases hp

/-- `h'` is `h` after the release of the block that starts at `p`. -/
structure Freed (h h' : Heap α) (p : Ptr) : Prop where
  start : h.isBase p = true
  room : ∀ q : Ptr, q.block ≠ p.block → h'.room q = h.room q
  base : ∀ q : Ptr, q.block ≠ p.block → h'.isBase q = h.isBase q
  next : h'.next = h.next
  released : h'.released = p.block :: h.released
  allocated : h'.allocated = h.allocated

theorem free_spec {p : Ptr} (hp : h.isBase p = true) :
    ∃ h', h.free p = some h' ∧ Freed h h' p := by
  rw [free, if_pos hp]
  split
  next block hb =>
    exact ⟨_, rfl, hp, fun q hq => room_of_blocks_eq (Function.update_of_ne hq ..),
      fun q hq => isBase_of_blocks_eq (Function.update_of_ne hq ..), rfl, rfl, rfl⟩
  next hb =>
    rw [isBase, hb] at hp
    cases hp

theorem free_freed {h' : Heap α} {p : Ptr} (hfree : h.free p = some h') : Freed h h' p := by
  have hp : h.isBase p = true := by
    by_contra hp
    rw [free, if_neg hp] at hfree
    cases hfree
  obtain ⟨h'', hfree', hfreed⟩ := free_spec hp
  cases hfree.symm.trans hfree'
  exact hfreed

end Blocks

/-! ## Accounts -/

/-- Who owns which of the charged blocks, and that the rest was released once. -/
structure Accounts {ι : Type v} (h : Heap α) (charged : List Nat) (owner : ι → Option Nat) :
    Prop where
  held : ∀ i b, owner i = some b → h.isBase ⟨b, 0⟩ = true ∧ b ∈ charged ∧ b ∉ h.released
  unique : ∀ i j b, owner i = some b → owner j = some b → i = j
  settled : ∀ b ∈ charged, (∃ i, owner i = some b) ∨ h.released.count b = 1
  known : ∀ b ∈ charged, b < h.next
  released : ∀ b ∈ h.released, b ∈ charged

namespace Accounts

variable {ι : Type v} {h h' : Heap α} {charged charged' : List Nat} {owner : ι → Option Nat}

theorem empty : Accounts (Heap.empty : Heap α) [] (fun _ : ι => none) where
  held := fun _ _ hb => nomatch hb
  unique := fun _ _ _ hb => nomatch hb
  settled := fun _ hb => nomatch hb
  known := fun _ hb => nomatch hb
  released := fun _ hb => nomatch hb

theorem congr (a : Accounts h charged owner) (hs : SameShape h h') : Accounts h' charged owner where
  held := by
    intro i b hb
    rw [hs.base, hs.released]
    exact a.held i b hb
  unique := a.unique
  settled := by rw [hs.released]; exact a.settled
  known := fun b hb => Nat.lt_of_lt_of_le (a.known b hb) hs.next
  released := by rw [hs.released]; exact a.released

/-- Nobody is left: every charged block was released exactly once. -/
theorem balanced (a : Accounts h charged owner) (hnone : ∀ i, owner i = none) :
    ∀ b ∈ charged, h.released.count b = 1 := by
  intro b hb
  refine (a.settled b hb).resolve_left ?_
  rintro ⟨i, hi⟩
  rw [hnone i] at hi
  cases hi

/-- A name used up, or a block nobody is charged with. -/
theorem extend (a : Accounts h charged owner) (hnext : h.next ≤ h'.next)
    (hreleased : h'.released = h.released)
    (hbase : ∀ p, h.isBase p = true → h'.isBase p = true) : Accounts h' charged owner where
  held := by
    intro i b hb
    obtain ⟨h₁, h₂, h₃⟩ := a.held i b hb
    exact ⟨hbase _ h₁, h₂, hreleased ▸ h₃⟩
  unique := a.unique
  settled := by rw [hreleased]; exact a.settled
  known := fun b hb => Nat.lt_of_lt_of_le (a.known b hb) hnext
  released := by rw [hreleased]; exact a.released

variable [DecidableEq ι]

/-- `i`, who owned nothing, becomes the owner of a block nobody was charged with. -/
theorem adopt (a : Accounts h charged owner) {i : ι} {b : Nat} (hi : owner i = none)
    (hbase : h.isBase ⟨b, 0⟩ = true) (hnew : b ∉ charged)
    (hcharged : ∀ c, c ∈ charged' ↔ c = b ∨ c ∈ charged) :
    Accounts h charged' (Function.update owner i (some b)) where
  held := by
    intro j c hc
    by_cases hj : j = i
    · rw [hj, Function.update_self] at hc
      cases hc
      exact ⟨hbase, (hcharged b).mpr (Or.inl rfl), fun hr => hnew (a.released b hr)⟩
    · rw [Function.update_of_ne hj] at hc
      obtain ⟨h₁, h₂, h₃⟩ := a.held j c hc
      exact ⟨h₁, (hcharged c).mpr (Or.inr h₂), h₃⟩
  unique := by
    intro j k c hj hk
    have hother : ∀ {l}, l ≠ i → owner l = some c → c ≠ b := by
      rintro l - hl rfl
      exact hnew (a.held l c hl).2.1
    by_cases hji : j = i
    · by_cases hki : k = i
      · rw [hji, hki]
      · rw [hji, Function.update_self] at hj
        rw [Function.update_of_ne hki] at hk
        exact absurd (Option.some.inj hj).symm (hother hki hk)
    · rw [Function.update_of_ne hji] at hj
      by_cases hki : k = i
      · rw [hki, Function.update_self] at hk
        exact absurd (Option.some.inj hk).symm (hother hji hj)
      · rw [Function.update_of_ne hki] at hk
        exact a.unique j k c hj hk
  settled := by
    intro c hc
    rcases (hcharged c).mp hc with rfl | hc
    · exact Or.inl ⟨i, Function.update_self ..⟩
    · refine (a.settled c hc).imp_left ?_
      rintro ⟨j, hj⟩
      have hji : j ≠ i := by
        rintro rfl
        rw [hi] at hj
        cases hj
      exact ⟨j, by rw [Function.update_of_ne hji, hj]⟩
  known := by
    intro c hc
    rcases (hcharged c).mp hc with rfl | hc
    · exact isBase_lt hbase
    · exact a.known c hc
  released := fun c hc => (hcharged c).mpr (Or.inr (a.released c hc))

/-- `i`, who owned nothing, allocates. -/
theorem take (a : Accounts h charged owner) {i : ι} (hi : owner i = none) (cs : List α) :
    Accounts (h.malloc cs) (h.next :: charged) (Function.update owner i (some h.next)) := by
  have hmore : Accounts (h.malloc cs) charged owner :=
    a.extend (Nat.le_succ _) rfl fun _ hp => isBase_add true hp
  exact hmore.adopt hi isBase_malloc_new (fun hin => Nat.lt_irrefl _ (a.known _ hin))
    fun c => List.mem_cons

/-- `i` releases what it owns. -/
theorem drop (a : Accounts h charged owner) {i : ι} {b : Nat} (hi : owner i = some b)
    (hfree : h.free ⟨b, 0⟩ = some h') : Accounts h' charged (Function.update owner i none) := by
  obtain ⟨-, hin, hnot⟩ := a.held i b hi
  obtain ⟨-, -, hkeep, hnext, hreleased, -⟩ := free_freed hfree
  have hother : ∀ {j c}, Function.update owner i none j = some c → owner j = some c ∧ c ≠ b := by
    intro j c hc
    have hji : j ≠ i := by
      rintro rfl
      rw [Function.update_self] at hc
      cases hc
    rw [Function.update_of_ne hji] at hc
    exact ⟨hc, fun hcb => hji (a.unique j i b (hcb ▸ hc) hi)⟩
  refine ⟨?_, ?_, ?_, ?_, ?_⟩
  · intro j c hc
    obtain ⟨hc, hcb⟩ := hother hc
    obtain ⟨h₁, h₂, h₃⟩ := a.held j c hc
    refine ⟨(hkeep ⟨c, 0⟩ hcb).trans h₁, h₂, ?_⟩
    rw [hreleased, List.mem_cons, not_or]
    exact ⟨hcb, h₃⟩
  · exact fun j k c hj hk => a.unique j k c (hother hj).1 (hother hk).1
  · intro c hc
    rw [hreleased]
    by_cases hcb : c = b
    · subst hcb
      right
      rw [List.count_cons_self, List.count_eq_zero.mpr hnot]
    · rw [List.count_cons_of_ne (Ne.symm hcb)]
      refine (a.settled c hc).imp_left ?_
      rintro ⟨j, hj⟩
      have hji : j ≠ i := by
        rintro rfl
        exact hcb (Option.some.inj (hj.symm.trans hi))
      exact ⟨j, by rw [Function.update_of_ne hji, hj]⟩
  · rw [hnext]
    exact a.known
  · intro c hc
    rw [hreleased] at hc
    rcases List.mem_cons.mp hc with rfl | hc
    · exact hin
    · exact a.released c hc

/-- `i` has its block moved to a new one. -/
theorem replace (a : Accounts h charged owner) {i : ι} {b : Nat} (hi : owner i = some b)
    {cs : List α} (hfree : (h.malloc cs).free ⟨b, 0⟩ = some h') :
    Accounts h' (h.next :: charged) (Function.update owner i (some h.next)) := by
  have hmore : Accounts (h.malloc cs) charged owner :=
    a.extend (Nat.le_succ _) rfl fun _ hp => isBase_add true hp
  have hfresh : h.next ∉ charged := fun hin => Nat.lt_irrefl _ (a.known _ hin)
  have hne : h.next ≠ b := fun heq => hfresh (heq ▸ (a.held i b hi).2.1)
  have hnew := (hmore.drop hi hfree).adopt (Function.update_self ..)
    (((free_freed hfree).base ⟨h.next, 0⟩ hne).trans isBase_malloc_new) hfresh
    fun c => List.mem_cons
  rwa [Function.update_idem] at hnew

end Accounts

end Heap
