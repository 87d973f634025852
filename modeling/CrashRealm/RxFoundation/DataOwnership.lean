/-
# `RxFoundation.DataOwnership` — who releases which buffer

A `Data` owns the block its byte pointer starts, unless it carries the flag not to
deallocate; the copy of a source an edit may make belongs to the edit.  The
accounts of the heap hold for this ownership (`Accounted`) as long as every call is
`OwnershipOk`: no move from an object with a buffer, which both would own; no copy
construction where the memory of the object held a pointer; no growing of a
borrowed buffer.  Then every buffer allocated or adopted is released exactly once
by the time no object is left, a borrowed one never, and no call releases what it
should not (`ownership_holds`).  What a call does out of bounds does not matter
here, so every fault but a bad `free` is allowed.
-/
import CrashRealm.RxFoundation.DataEffect

namespace Rx

open Heap

/-- The block the destructor would release. -/
def Data.owned (d : Data) : Option Nat :=
  if d.dontDeallocate then none else d.bytes.map Ptr.block

/-! ## Accounts across an edit -/

section Effects
variable {h h' : Memory} {d d' : Data} {adopted : List Nat} {owner : Option Nat → Option Nat}

theorem Regrown.next_le {size : Nat} {bytes : Option Ptr} (hg : Regrown h size bytes h') :
    h.next ≤ h'.next := by
  cases hg with
  | fresh => exact Nat.le_succ _
  | moved _ _ hfree =>
      rw [(free_freed hfree).next]
      exact Nat.le_succ _

theorem Regrown.allocated {size : Nat} {bytes : Option Ptr} (hg : Regrown h size bytes h') :
    h'.allocated = h.next :: h.allocated := by
  cases hg with
  | fresh => rfl
  | moved _ _ hfree => exact (free_freed hfree).allocated

theorem Regrown.accounts {size : Nat} {bytes : Option Ptr} (hg : Regrown h size bytes h')
    {charged : List Nat} {i : Option Nat} (a : Accounts h charged owner)
    (hi : owner i = bytes.map Ptr.block) :
    Accounts h' (h.next :: charged) (Function.update owner i (some h.next)) := by
  cases hg with
  | fresh => exact a.take hi _
  | moved _ hbase hfree =>
      rw [isBase_offset hbase] at hfree
      exact a.replace hi hfree

/-- An edit names only new blocks, and adds only such to what was allocated. -/
theorem Edited.names {P : Platform} {n : Int} (he : Edited P h d n h' d') :
    h.next ≤ h'.next ∧ ∀ b, b ∈ h'.allocated → b < h.next → b ∈ h.allocated := by
  cases he with
  | inPlace hle hs => exact ⟨hs.next, fun b hb _ => hs.allocated ▸ hb⟩
  | grown hlt hmax hidle hgrow hstore =>
      refine ⟨Nat.le_trans hidle.next (Nat.le_trans hgrow.next_le hstore.next), ?_⟩
      intro b hb hlt
      rw [hstore.allocated, hgrow.allocated, hidle.allocated] at hb
      refine (List.mem_cons.mp hb).resolve_left ?_
      have hnext := hidle.next
      omega
  | @grownAround hlt hmax hs hg hw _ cells hcopy hgrow hstore hrelease =>
      have hnew : h.next + 1 ≤ hs.next := hcopy.next
      have hreleased := free_freed hrelease
      refine ⟨?_, ?_⟩
      · rw [hreleased.next]
        exact Nat.le_trans (Nat.le_of_succ_le hnew) (Nat.le_trans hgrow.next_le hstore.next)
      · intro b hb hlt
        rw [hreleased.allocated, hstore.allocated, hgrow.allocated, hcopy.allocated] at hb
        refine (List.mem_cons.mp ((List.mem_cons.mp hb).resolve_left ?_)).resolve_left ?_
        · omega
        · omega

/-- The accounts after an edit by `i`, who may be the owner of the block that grows. -/
theorem Edited.accounts {P : Platform} {n : Int} (he : Edited P h d n h' d') {i : Nat}
    (a : Accounts h (h.allocated ++ adopted) owner) (hnone : owner none = none)
    (hi : owner (some i) = d.owned)
    (hgrows : d.capacity < n → n ≤ P.dataMaxSize → d.dontDeallocate = false) :
    Accounts h' (h'.allocated ++ adopted) (Function.update owner (some i) d'.owned) := by
  cases he with
  | inPlace hle hs =>
      have hsame : Function.update owner (some i) d.owned = owner := by
        rw [← hi, Function.update_eq_self]
      show Accounts h' (h'.allocated ++ adopted) (Function.update owner (some i) d.owned)
      rw [hsame, hs.allocated]
      exact a.congr hs
  | @grown hlt hmax hs hg _ hidle hgrow hstore =>
      have hown := hgrows hlt hmax
      have hold : owner (some i) = d.bytes.map Ptr.block := by
        rw [hi, Data.owned, hown]
        rfl
      rw [Data.owned, hown, hstore.allocated, hgrow.allocated, hidle.allocated]
      exact (hgrow.accounts (a.congr hidle) hold).congr hstore
  | @grownAround hlt hmax hs hg hw _ cells hcopy hgrow hstore hrelease =>
      have hown := hgrows hlt hmax
      have hne : (some i : Option Nat) ≠ none := Option.some_ne_none i
      have hold : Function.update owner none (some h.next) (some i) = d.bytes.map Ptr.block := by
        rw [Function.update_of_ne hne, hi, Data.owned, hown]
        rfl
      have htemp := (hgrow.accounts ((a.take hnone cells).congr hcopy) hold).congr hstore
      have hdone := htemp.drop (i := none)
        (by rw [Function.update_of_ne hne.symm, Function.update_self]) hrelease
      have hback : Function.update owner none none = owner := by
        have hself := Function.update_eq_self none owner
        rwa [hnone] at hself
      rw [Function.update_comm hne.symm, Function.update_idem, Function.update_comm hne,
        hback] at hdone
      rw [Data.owned, hown, (free_freed hrelease).allocated, hstore.allocated, hgrow.allocated,
        hcopy.allocated]
      exact hdone

end Effects

namespace DataSystem

/-! ## Who owns what -/

/-- Owners are the objects, by their place, and, at `none`, an edit. -/
def owner (s : DataSystem) (i : Option Nat) : Option Nat := do
  let d ← s.objects (← i)
  d.owned

/-- What was allocated or adopted. -/
def charged (s : DataSystem) : List Nat := s.heap.allocated ++ s.adopted

/-- The accounts hold, owners point to the start of their block, and what was
borrowed is nobody's to release. -/
structure Accounted (s : DataSystem) : Prop where
  accounts : Accounts s.heap s.charged s.owner
  start : ∀ i d p, s.objects i = some d → d.dontDeallocate = false → d.bytes = some p →
    p.offset = 0
  lent : ∀ b ∈ s.borrowed, b < s.heap.next ∧ b ∉ s.charged

section Owner
variable {s : DataSystem} {i : Nat} {d : Data}

theorem owner_eq (hi : s.objects i = some d) : s.owner (some i) = d.owned := by
  show (s.objects i).bind Data.owned = d.owned
  rw [hi]
  rfl

theorem owner_free (hi : s.objects i = none) : s.owner (some i) = none := by
  show (s.objects i).bind Data.owned = none
  rw [hi]
  rfl

theorem owner_put (result : Memory × Data) :
    (s.put i result).owner = Function.update s.owner (some i) result.2.owned := by
  funext j
  cases j with
  | none => exact (Function.update_of_ne (Option.some_ne_none i).symm ..).symm
  | some k =>
      by_cases hk : k = i
      · rw [hk, Function.update_self, owner_eq (objects_put_self s i result)]
      · rw [Function.update_of_ne (fun heq => hk (Option.some.inj heq))]
        show ((s.put i result).objects k).bind Data.owned = _
        rw [objects_put_of_ne s hk]
        rfl

theorem owner_remove (heap : Memory) :
    (s.remove i heap).owner = Function.update s.owner (some i) none := by
  funext j
  cases j with
  | none => exact (Function.update_of_ne (Option.some_ne_none i).symm ..).symm
  | some k =>
      by_cases hk : k = i
      · rw [hk, Function.update_self, owner_free (objects_remove_self s i heap)]
      · rw [Function.update_of_ne (fun heq => hk (Option.some.inj heq))]
        show ((s.remove i heap).objects k).bind Data.owned = _
        rw [objects_remove_of_ne s hk]
        rfl

/-- An owner's byte pointer is the start of a live block. -/
theorem Accounted.base (ha : Accounted s) (hi : s.objects i = some d)
    (hown : d.dontDeallocate = false) : ∀ p ∈ d.bytes, s.heap.isBase p = true := by
  intro p hp
  have hstart := ha.start i d p hi hown hp
  have howner : s.owner (some i) = some p.block := by
    rw [owner_eq hi, Data.owned, hown, Option.mem_def.mp hp]
    rfl
  obtain ⟨block, offset⟩ := p
  cases hstart
  exact (ha.accounts.held _ _ howner).1

end Owner

/-! ## Calls that keep the accounts -/

section Calls
variable (H : Host)

/-- An edit to `newCount` bytes grows no borrowed buffer. -/
def GrowsOwn (d : Data) (newCount : Int) : Prop :=
  d.capacity < newCount → newCount ≤ H.platform.dataMaxSize → d.dontDeallocate = false

/-- When a call keeps the accounts. -/
def OwnershipOk (s : DataSystem) : Action → Prop
  | .copyConstruct _ raw _ => raw.bytes = none
  | .moveConstruct _ j => ∀ value ∈ s.objects j, value.bytes = none
  | .appendBytes i _ length => ∀ d ∈ s.objects i, GrowsOwn H d (d.length + length)
  | .appendData i j => ∀ d ∈ s.objects i, ∀ e ∈ s.objects j, GrowsOwn H d (d.length + e.length)
  | .replaceBytes i range _ newLength => ∀ d ∈ s.objects i,
      GrowsOwn H d (d.length - range.length + newLength)
  | .deleteBytes i range => ∀ d ∈ s.objects i, GrowsOwn H d (d.length - range.length)
  | .provide .. | .construct .. | .constructDefault .. | .setLength .. | .destroy _ => True

instance (d : Data) (newCount : Int) : Decidable (GrowsOwn H d newCount) :=
  inferInstanceAs (Decidable (_ < _ → _ ≤ _ → _ = _))

instance (s : DataSystem) : DecidablePred (OwnershipOk H s)
  | .copyConstruct .. => inferInstanceAs (Decidable (_ = _))
  | .moveConstruct .. => inferInstanceAs (Decidable (∀ value ∈ _, Data.bytes value = none))
  | .appendBytes .. | .replaceBytes .. | .deleteBytes .. =>
      inferInstanceAs (Decidable (∀ d ∈ _, GrowsOwn H d _))
  | .appendData .. => inferInstanceAs (Decidable (∀ d ∈ _, ∀ e ∈ _, GrowsOwn H d _))
  | .provide .. | .construct .. | .constructDefault .. | .setLength .. | .destroy _ =>
      inferInstanceAs (Decidable True)

/-- Every fault but a bad `free`. -/
def NoBadFree (e : Fault) : Prop := e ≠ .badFree

theorem lenient_noBadFree : Lenient NoBadFree := fun _ he => he

end Calls

section Keep
variable {H : Host} {s : DataSystem} {i : Nat} {d : Data}

theorem accounted_init : Accounted init where
  accounts := by
    have hnone : init.owner = fun _ => none := by
      funext i
      cases i with
      | none => rfl
      | some i => rfl
    rw [hnone]
    exact .empty
  start := nofun
  lent := nofun

/-- What is left to show for a step that places an object. -/
theorem Accounted.put (ha : Accounted s) {s' : DataSystem} (hobjects : s'.objects = s.objects)
    {h' : Memory} {d' : Data}
    (hacc : Accounts h' (h'.allocated ++ s'.adopted)
      (Function.update s.owner (some i) d'.owned))
    (hstart : d'.dontDeallocate = false → ∀ p ∈ d'.bytes, p.offset = 0)
    (hlent : ∀ b ∈ s'.borrowed, b < h'.next ∧ b ∉ h'.allocated ++ s'.adopted) :
    Accounted (s'.put i (h', d')) where
  accounts := by
    have howner : s'.owner = s.owner := by
      unfold owner
      rw [hobjects]
    rw [owner_put, howner]
    exact hacc
  start := by
    intro k e p he hown hp
    by_cases hk : k = i
    · rw [hk, objects_put_self] at he
      cases he
      exact hstart hown p hp
    · rw [objects_put_of_ne s' hk, hobjects] at he
      exact ha.start k e p he hown hp
  lent := hlent

/-- What is borrowed stays nobody's to release where only new names are charged. -/
theorem Accounted.lent_of_names (ha : Accounted s) {h' : Memory} (hnext : s.heap.next ≤ h'.next)
    (hnames : ∀ b, b ∈ h'.allocated → b < s.heap.next → b ∈ s.heap.allocated) :
    ∀ b ∈ s.borrowed, b < h'.next ∧ b ∉ h'.allocated ++ s.adopted := by
  intro b hb
  obtain ⟨hlt, hnot⟩ := ha.lent b hb
  refine ⟨Nat.lt_of_lt_of_le hlt hnext, fun hin => hnot ?_⟩
  exact (List.mem_append.mp hin).elim
    (fun hin => List.mem_append_left _ (hnames b hin hlt)) (List.mem_append_right _)

/-- An edit by `i`, of the object that is there or of one under construction. -/
theorem Accounted.edit (ha : Accounted s) {range : Range} {newBytes : Option Ptr}
    {newLength : Int} (hi : s.owner (some i) = d.owned)
    (hstart : d.dontDeallocate = false → ∀ p ∈ d.bytes, p.offset = 0 ∧ s.heap.isBase p = true)
    (hgrows : GrowsOwn H d (d.length - range.length + newLength)) :
    Ends NoBadFree (do
      let result ← d.replaceBytes H s.heap range newBytes newLength
      .ok (s.put i result)) Accounted := by
  have hhalt : NoBadFree .halt := nofun
  refine (replaceBytes_ends hhalt
    (fun hlt hmax p hp => (hstart (hgrows hlt hmax) p hp).2) (Or.inl lenient_noBadFree)).bind ?_
  rintro ⟨h', d'⟩ hedited
  obtain ⟨hnext, hnames⟩ := hedited.names
  refine ha.put rfl (hedited.accounts ha.accounts rfl hi hgrows) ?_ ?_
  · cases hedited with
    | inPlace => exact fun hown p hp => (hstart hown p hp).1
    | grown => exact fun _ p hp => Option.some.inj hp ▸ rfl
    | grownAround => exact fun _ p hp => Option.some.inj hp ▸ rfl
  · exact ha.lent_of_names hnext hnames

theorem Accounted.edit_live (ha : Accounted s) {range : Range} {newBytes : Option Ptr}
    {newLength : Int} (hi : s.objects i = some d)
    (hgrows : GrowsOwn H d (d.length - range.length + newLength)) :
    Ends NoBadFree (do
      let result ← d.replaceBytes H s.heap range newBytes newLength
      .ok (s.put i result)) Accounted :=
  ha.edit (owner_eq hi) (fun hown p hp => ⟨ha.start i d p hi hown hp, ha.base hi hown p hp⟩) hgrows

/-- Placing an object that owns nothing, in a heap that differs in no account. -/
theorem Accounted.put_unowned (ha : Accounted s) (hi : s.objects i = none) {h' : Memory}
    (hs : SameShape s.heap h') {d' : Data} (howned : d'.owned = none)
    (hstart : d'.dontDeallocate = false → ∀ p ∈ d'.bytes, p.offset = 0) :
    Accounted (s.put i (h', d')) := by
  have hsame : Function.update s.owner (some i) none = s.owner := by
    rw [← owner_free hi, Function.update_eq_self]
  refine ha.put rfl ?_ hstart (ha.lent_of_names hs.next fun b hb _ => hs.allocated ▸ hb)
  rw [howned, hsame, hs.allocated]
  exact ha.accounts.congr hs

/-- Placing an object that owns what `dataAllocate` gave it. -/
theorem Accounted.allocate (ha : Accounted s) (hi : s.objects i = none) (size : Nat)
    (clear : Bool) {h' : Memory} (hs : SameShape (H.dataAllocate s.heap size clear).1 h')
    (length capacity : Int) : Accounted
      (s.put i (h', ⟨false, length, capacity, (H.dataAllocate s.heap size clear).2⟩)) := by
  rw [Host.dataAllocate] at hs ⊢
  by_cases hgrant : H.grant s.heap.next size = true
  · rw [if_pos hgrant] at hs ⊢
    refine ha.put rfl ?_ (fun _ p hp => Option.some.inj hp ▸ rfl)
      (ha.lent_of_names (Nat.le_trans (Nat.le_succ _) hs.next) ?_)
    · rw [hs.allocated]
      exact (ha.accounts.take (owner_free hi) _).congr hs
    · intro b hb hlt
      rw [hs.allocated] at hb
      exact (List.mem_cons.mp hb).resolve_left (Nat.ne_of_lt hlt)
  · rw [if_neg hgrant] at hs ⊢
    exact ha.put_unowned hi ((SameShape.refuse _).trans hs) rfl
      fun _ p hp => absurd hp (Option.not_mem_none p)

theorem Accounted.adopt (ha : Accounted s) (hi : s.objects i = none) {p : Ptr} (length : Int)
    (hbase : s.heap.isBase p = true) (hnew : p.block ∉ s.charged) (hlent : p.block ∉ s.borrowed) :
    Accounted ({ s with adopted := p.block :: s.adopted }.put i
      (s.heap, ⟨false, length, length, some p⟩)) := by
  have hstart := isBase_offset hbase
  refine ha.put (by rfl) ?_ (fun _ q hq => ?_) ?_
  · rw [hstart] at hbase
    refine ha.accounts.adopt (owner_free hi) hbase hnew fun c => ?_
    rw [charged, List.mem_append, List.mem_append, List.mem_cons, or_left_comm]
  · cases hq
    rw [hstart]
  · intro b hb
    obtain ⟨hlt, hnot⟩ := ha.lent b hb
    refine ⟨hlt, fun hin => ?_⟩
    rcases List.mem_append.mp hin with hin | hin
    · exact hnot (List.mem_append_left _ hin)
    · rcases List.mem_cons.mp hin with rfl | hin
      · exact hlent hb
      · exact hnot (List.mem_append_right _ hin)

theorem Accounted.borrow (ha : Accounted s) (hi : s.objects i = none) {p : Ptr} (length : Int)
    (hlt : p.block < s.heap.next) (hnew : p.block ∉ s.charged) :
    Accounted ({ s with borrowed := p.block :: s.borrowed }.put i
      (s.heap, ⟨true, length, length, some p⟩)) := by
  have hsame : Function.update s.owner (some i) none = s.owner := by
    rw [← owner_free hi, Function.update_eq_self]
  refine ha.put (by rfl) ?_ nofun fun b hb => ?_
  · exact hsame.symm ▸ ha.accounts
  rcases List.mem_cons.mp hb with rfl | hb
  · exact ⟨hlt, hnew⟩
  · exact ha.lent b hb

theorem lt_next_of_live {h : Memory} {b : Nat} (hlive : (h.cells? b).isSome = true) :
    b < h.next := by
  by_contra hge
  rw [Heap.cells?, h.fresh b (Nat.not_lt.mp hge)] at hlive
  cases hlive

theorem Accounted.construct (ha : Accounted s) {bytes : Option Ptr} {length : Int}
    {copy freeWhenDone : Bool} (hi : s.objects i = none)
    (hclients : ∀ p ∈ bytes, copy = false → s.IsClients p ∧
      (freeWhenDone = true → s.heap.isBase p = true ∧ p.block ∉ s.borrowed)) :
    Ends NoBadFree (step H s (.construct i bytes length copy freeWhenDone)) Accounted := by
  cases bytes with
  | none => exact ha.allocate hi length.toNat true (.refl _) 0 length
  | some p =>
      cases copy with
      | true =>
          refine Ends.bind (P := fun r => ∃ h',
              SameShape (H.dataAllocate s.heap length.toNat true).1 h' ∧
              r = (h', ⟨false, length, length, (H.dataAllocate s.heap length.toNat true).2⟩))
            ((memmove_ends (Or.inl lenient_noBadFree)).bind fun h' hs => ⟨h', hs, rfl⟩) ?_
          rintro _ ⟨h', hs, rfl⟩
          exact ha.allocate hi length.toNat true hs length length
      | false =>
          obtain ⟨⟨hlive, hnotall, hnotad⟩, hfree⟩ := hclients p rfl rfl
          have hnew : p.block ∉ s.charged := by
            rw [charged, List.mem_append, not_or]
            exact ⟨hnotall, hnotad⟩
          cases freeWhenDone with
          | true => exact ha.adopt hi length (hfree rfl).1 hnew (hfree rfl).2
          | false => exact ha.borrow hi length (lt_next_of_live hlive) hnew

theorem Accounted.destroy (ha : Accounted s) (hi : s.objects i = some d) :
    ∃ h', d.destroy s.heap = .ok h' ∧ Accounted (s.remove i h') := by
  have hremove : ∀ h', Accounts h' (h'.allocated ++ s.adopted)
      (Function.update s.owner (some i) none) → s.heap.next = h'.next →
      s.heap.allocated = h'.allocated → Accounted (s.remove i h') := by
    intro h' hacc hnext hallocated
    refine ⟨?_, ?_, ?_⟩
    · rw [owner_remove]
      exact hacc
    · intro k e p he hown hp
      by_cases hk : k = i
      · rw [hk, objects_remove_self] at he
        cases he
      · rw [objects_remove_of_ne s hk] at he
        exact ha.start k e p he hown hp
    · exact ha.lent_of_names (Nat.le_of_eq hnext) fun b hb _ => hallocated ▸ hb
  have hunowned (howned : d.owned = none) : Accounted (s.remove i s.heap) := by
    refine hremove s.heap ?_ rfl rfl
    rw [← howned, ← owner_eq hi, Function.update_eq_self]
    exact ha.accounts
  cases hflag : d.dontDeallocate with
  | true =>
      refine ⟨s.heap, by rw [Data.destroy, hflag]; rfl, hunowned ?_⟩
      rw [Data.owned, hflag]
      rfl
  | false =>
      cases hbytes : d.bytes with
      | none =>
          refine ⟨s.heap, by rw [Data.destroy, hflag, hbytes]; rfl, hunowned ?_⟩
          rw [Data.owned, hflag, hbytes]
          rfl
      | some p =>
          have hbase := ha.base hi hflag p hbytes
          obtain ⟨h', hfree, hfreed⟩ := free_spec hbase
          refine ⟨h', ?_, hremove h' ?_ hfreed.next.symm hfreed.allocated.symm⟩
          · rw [Data.destroy, hflag, hbytes]
            simp only [Bool.false_eq_true, if_false, Rx.free, hfree]
          · have howner : s.owner (some i) = some p.block := by
              rw [owner_eq hi, Data.owned, hflag, hbytes]
              rfl
            rw [isBase_offset hbase] at hfree
            rw [hfreed.allocated]
            exact ha.accounts.drop howner hfree

/-- The other steps that place an object or change one without touching the heap. -/
theorem Accounted.put_same (ha : Accounted s) {d' : Data}
    (howner : s.owner (some i) = d'.owned)
    (hstart : d'.dontDeallocate = false → ∀ p ∈ d'.bytes, p.offset = 0) :
    Accounted (s.put i (s.heap, d')) := by
  have hsame : Function.update s.owner (some i) d'.owned = s.owner := by
    rw [← howner, Function.update_eq_self]
  refine ha.put rfl ?_ hstart ha.lent
  rw [hsame]
  exact ha.accounts

/-! ## Steps and runs -/

theorem step_accounted (ha : Accounted s) {a : Action} (hen : enabled H s a)
    (hok : OwnershipOk H s a) : Ends NoBadFree (step H s a) Accounted := by
  cases a with
  | provide cells malloced =>
      refine ⟨?_, ha.start, ?_⟩
      · exact ha.accounts.extend (Nat.le_succ _) rfl fun _ hp => isBase_add malloced hp
      · exact fun b hb => ⟨Nat.lt_succ_of_lt (ha.lent b hb).1, (ha.lent b hb).2⟩
  | construct i bytes length copy freeWhenDone => exact ha.construct hen.1 hen.2.2.2
  | constructDefault i => exact ha.allocate hen _ true (.refl _) 0 _
  | copyConstruct i raw j =>
      obtain ⟨value, hj⟩ := Option.isSome_iff_exists.mp hen.2
      obtain ⟨length, capacity, bytes⟩ := raw
      cases (hok : bytes = none)
      rw [step, objectAt, hj]
      refine ha.edit (d := ⟨false, length, capacity, none⟩) (owner_free hen.1) ?_ fun _ _ => rfl
      intro _ p hp
      cases hp
  | moveConstruct i j =>
      obtain ⟨value, hj⟩ := Option.isSome_iff_exists.mp hen.2
      have hnone := hok value hj
      rw [step, objectAt, hj]
      refine ha.put_same ?_ fun _ p hp => ?_
      · rw [owner_free hen.1]
        show none = value.bytes.map Ptr.block
        rw [hnone]
        rfl
      · rw [Data.moveConstruct, hnone] at hp
        cases hp
  | setLength i length =>
      obtain ⟨d, hi⟩ := Option.isSome_iff_exists.mp hen.1
      rw [step, edit_eq hi, ok_bind]
      exact ha.put_same (owner_eq (d := d) hi) fun hown p hp => ha.start i d p hi hown hp
  | appendBytes i bytes length =>
      obtain ⟨d, hi⟩ := Option.isSome_iff_exists.mp hen.1
      have hgrows := hok d hi
      rw [← Int.sub_zero d.length] at hgrows
      rw [step, edit_eq hi]
      exact ha.edit_live hi hgrows
  | appendData i j =>
      obtain ⟨d, hi⟩ := Option.isSome_iff_exists.mp hen.1
      obtain ⟨e, hj⟩ := Option.isSome_iff_exists.mp hen.2
      have hgrows := hok d hi e hj
      rw [← Int.sub_zero d.length] at hgrows
      rw [step, objectAt, hj, ok_bind, edit_eq hi]
      exact ha.edit_live hi hgrows
  | replaceBytes i range bytes newLength =>
      obtain ⟨⟨d, hi, -⟩, -⟩ := hen
      rw [step, edit_eq hi]
      exact ha.edit_live hi (hok d hi)
  | deleteBytes i range =>
      obtain ⟨d, hi, -⟩ := hen
      have hgrows := hok d hi
      rw [← Int.add_zero (d.length - range.length)] at hgrows
      rw [step, edit_eq hi]
      exact ha.edit_live hi hgrows
  | destroy i =>
      obtain ⟨d, hi⟩ := Option.isSome_iff_exists.mp hen
      obtain ⟨h', hdestroy, hremoved⟩ := ha.destroy hi
      rw [step, objectAt, hi, ok_bind, hdestroy]
      exact hremoved

theorem accounted_of_run {as : List Action} (hrun : (machine H).Run (OwnershipOk H) as s) :
    Accounted s :=
  hrun.invariant accounted_init fun _ _ _ ha hen hok hstep =>
    (step_accounted ha hen hok).of_ok hstep

/-- No block is released more than once. -/
theorem Accounted.count_le (ha : Accounted s) (b : Nat) : s.heap.released.count b ≤ 1 := by
  by_cases hb : b ∈ s.heap.released
  · rcases ha.accounts.settled b (ha.accounts.released b hb) with ⟨k, hk⟩ | hcount
    · exact absurd hb (ha.accounts.held k b hk).2.2
    · exact Nat.le_of_eq hcount
  · rw [List.count_eq_zero.mpr hb]
    exact Nat.zero_le 1

/-- In every run of calls that keep the accounts, no block is released twice, no
borrowed one at all; once no object is left, everything allocated or adopted was
released exactly once; and no further such call frees or reallocates what is not
the start of a live block of the allocator. -/
theorem ownership_holds {as : List Action} (hrun : (machine H).Run (OwnershipOk H) as s) :
    (∀ b ∈ s.borrowed, b ∉ s.heap.released) ∧
    (∀ b, s.heap.released.count b ≤ 1) ∧
    ((∀ i, s.objects i = none) →
      ∀ b, b ∈ s.heap.allocated ∨ b ∈ s.adopted → s.heap.released.count b = 1) ∧
    ∀ a, enabled H s a → OwnershipOk H s a → step H s a ≠ .error .badFree := by
  have ha := accounted_of_run hrun
  refine ⟨fun b hb hreleased => ?_, ha.count_le, fun hempty b hb => ?_, fun a hen hok hstep => ?_⟩
  · exact (ha.lent b hb).2 (ha.accounts.released b hreleased)
  · refine ha.accounts.balanced (fun k => ?_) b (List.mem_append.mpr hb)
    cases k with
    | none => rfl
    | some k => exact owner_free (hempty k)
  · have hends := step_accounted ha hen hok
    rw [hstep] at hends
    exact hends rfl

end Keep

/-- A buffer is adopted and appended to itself, another one borrowed and copied; then
all three objects are destroyed. -/
def lendAndAdopt : List Action :=
  [.provide [1, 2] true, .provide [3] false, .construct 0 (some ⟨0, 0⟩) 2 false true,
    .construct 1 (some ⟨1, 0⟩) 1 false false, .appendData 0 0, .copyConstruct 2 .zeroed 1,
    .destroy 0, .destroy 1, .destroy 2]

theorem ownership_holds_lendAndAdopt : ∃ s : DataSystem, s.adopted = [0] ∧ s.borrowed = [1] ∧
    s.heap.allocated = [4, 3, 2] ∧ 1 ∉ s.heap.released ∧
    ∀ b ∈ [0, 2, 3, 4], s.heap.released.count b = 1 := by
  have hrun : ∃ s, (machine generous).Run (OwnershipOk generous) lendAndAdopt s ∧
      s.adopted = [0] ∧ s.borrowed = [1] ∧ s.heap.allocated = [4, 3, 2] ∧
      ∀ i, s.objects i = none := by
    refine ⟨_, Machine.run_of_exec rfl, rfl, rfl, rfl, fun i => ?_⟩
    match i with
    | 0 => rfl
    | 1 => rfl
    | 2 => rfl
    | _ + 3 => rfl
  obtain ⟨s, hrun, hadopted, hborrowed, hallocated, hempty⟩ := hrun
  obtain ⟨hlent, -, hbalanced, -⟩ := ownership_holds hrun
  refine ⟨s, hadopted, hborrowed, hallocated, hlent 1 (hborrowed ▸ List.mem_singleton_self 1), ?_⟩
  intro b hb
  refine hbalanced hempty b ?_
  rw [hadopted, hallocated]
  revert b
  decide

/-! ## Runs that break the accounts -/

/-- The second of two owners after a move releases a block that is gone; a borrowed
buffer is released by growing it. -/
theorem ownership_broken :
    (∃ s, (machine generous).Run Machine.anyAction
        [.constructDefault 0, .moveConstruct 1 0, .destroy 0] s ∧
      enabled generous s (.destroy 1) ∧ step generous s (.destroy 1) = .error .badFree) ∧
    ∃ (s : DataSystem) (b : Nat), (machine generous).Run Machine.anyAction
        [.provide [7] true, .construct 0 (some ⟨0, 0⟩) 1 false false, .appendData 0 0] s ∧
      b ∈ s.borrowed ∧ b ∈ s.heap.released := by
  refine ⟨⟨_, Machine.run_of_exec rfl, ?_, rfl⟩, _, 0, Machine.run_of_exec rfl, ?_, ?_⟩
  · decide
  · decide
  · decide

end DataSystem

end Rx
