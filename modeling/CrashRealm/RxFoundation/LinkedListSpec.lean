/-
# `RxFoundation.LinkedListSpec` — the slots hold the lists that are meant

`Shows` says that from each head the memory is linked as its list, each node with
the slot before it, and that a node in no list is as new.  `Link` writes the slot it
is given and the two pointers next to it, and `Unlink` the slot it finds: with where
that slot is in its list, both are writes the lists of a memory survive.
-/
import CrashRealm.Lib.Custody
import CrashRealm.Lib.LinkedChain
import CrashRealm.RxFoundation.LinkedList

namespace Rx

namespace LinkedList

open LinkedChain Custody

variable {H N : Type} [DecidableEq H] [DecidableEq N]

/-! ## What is written -/

namespace Memory

variable {m : Memory H N} {n a : N} {before x : Slot H N}

section Write
variable (m) (value : Option (Slot H N)) (node : Option N)

omit [DecidableEq H] in
@[simp] theorem slot_writePrevLink (p : Option N) : (m.writePrevLink p value).slot = m.slot := by
  cases p <;> rfl

@[simp] theorem prevLink_writeSlot (p : Option (Slot H N)) :
    (m.writeSlot p node).prevLink = m.prevLink := by
  cases p <;> rfl

omit [DecidableEq H] in
theorem prevLink_writePrevLink {p : Option N} (ha : a ∈ p) :
    (m.writePrevLink p value).prevLink a = value := by
  cases ha
  exact Function.update_self ..

omit [DecidableEq H] in
theorem prevLink_writePrevLink_of_notMem {p : Option N} (ha : a ∉ p) :
    (m.writePrevLink p value).prevLink a = m.prevLink a := by
  cases p with
  | none => rfl
  | some b => exact Function.update_of_ne (fun heq => ha (congrArg some heq.symm)) ..

theorem slot_writeSlot {p : Option (Slot H N)} (hx : x ∈ p) :
    (m.writeSlot p node).slot x = node := by
  cases hx
  exact Function.update_self ..

theorem slot_writeSlot_of_notMem {p : Option (Slot H N)} (hx : x ∉ p) :
    (m.writeSlot p node).slot x = m.slot x := by
  cases p with
  | none => rfl
  | some y => exact Function.update_of_ne (fun heq => hx (congrArg some heq.symm)) ..

end Write

section Link

theorem slot_link_before : (m.link n before).slot before = some n := Function.update_self ..

theorem slot_link_next (hne : .next n ≠ before) :
    (m.link n before).slot (.next n) = m.slot before := by
  refine (Function.update_of_ne hne ..).trans ((Function.update_self ..).trans ?_)
  rw [slot_writePrevLink]

theorem slot_link_of_ne (hne : x ≠ before) (hnext : x ≠ .next n) :
    (m.link n before).slot x = m.slot x := by
  refine (Function.update_of_ne hne ..).trans ((Function.update_of_ne hnext ..).trans ?_)
  rw [slot_writePrevLink]

theorem prevLink_link_self : (m.link n before).prevLink n = some before := Function.update_self ..

theorem prevLink_link_follower (hne : a ≠ n) (ha : a ∈ m.slot before) :
    (m.link n before).prevLink a = some (.next n) :=
  (Function.update_of_ne hne ..).trans (prevLink_writePrevLink m _ ha)

theorem prevLink_link_of_ne (hne : a ≠ n) (ha : a ∉ m.slot before) :
    (m.link n before).prevLink a = m.prevLink a :=
  (Function.update_of_ne hne ..).trans (prevLink_writePrevLink_of_notMem m _ ha)

end Link

section Unlink

omit [DecidableEq H] in
/-- `_prevLink` is what it was, also if the node follows itself. -/
theorem prevLink_writePrevLink_self (p : Option N) :
    (m.writePrevLink p (m.prevLink n)).prevLink n = m.prevLink n := by
  by_cases hn : n ∈ p
  · exact prevLink_writePrevLink m _ hn
  · exact prevLink_writePrevLink_of_notMem m _ hn

theorem slot_unlink_self : (m.unlink n).slot (.next n) = none := Function.update_self ..

theorem slot_unlink_prev (hne : x ≠ .next n) (hx : x ∈ m.prevLink n) :
    (m.unlink n).slot x = m.slot (.next n) := by
  refine (Function.update_of_ne hne ..).trans ?_
  rw [prevLink_writePrevLink_self, slot_writePrevLink]
  exact slot_writeSlot _ _ hx

theorem slot_unlink_of_ne (hne : x ≠ .next n) (hx : x ∉ m.prevLink n) :
    (m.unlink n).slot x = m.slot x := by
  refine (Function.update_of_ne hne ..).trans ?_
  rw [prevLink_writePrevLink_self, slot_writePrevLink, slot_writeSlot_of_notMem _ _ hx,
    slot_writePrevLink]

theorem prevLink_unlink_self : (m.unlink n).prevLink n = none := Function.update_self ..

theorem prevLink_unlink_follower (hne : a ≠ n) (ha : a ∈ m.slot (.next n)) :
    (m.unlink n).prevLink a = m.prevLink n := by
  refine (Function.update_of_ne hne ..).trans ?_
  show (writeSlot _ _ _).prevLink a = _
  rw [prevLink_writeSlot]
  exact prevLink_writePrevLink m _ ha

theorem prevLink_unlink_of_ne (hne : a ≠ n) (ha : a ∉ m.slot (.next n)) :
    (m.unlink n).prevLink a = m.prevLink a := by
  refine (Function.update_of_ne hne ..).trans ?_
  show (writeSlot _ _ _).prevLink a = _
  rw [prevLink_writeSlot]
  exact prevLink_writePrevLink_of_notMem m _ ha

end Unlink

end Memory

/-! ## The invariant -/

/-- The memory as slots and back pointers. -/
def Memory.links (m : Memory H N) : Links (Slot H N) N (Option (Slot H N)) :=
  ⟨m.slot, m.prevLink⟩

/-- The slots of a list, and the one after some of its nodes. -/
abbrev slotsOf (p : H) (as : List N) : List (Slot H N) := slots .next (.head p) as

abbrev slotAfter (p : H) (as : List N) : Slot H N := exit .next (.head p) as

/-- The memory holds these lists, and what is in none is as new. -/
structure Shows (m : Memory H N) (lists : H → List N) : Prop where
  linked : ∀ h, Linked .next some m.links (.head h) (lists h)
  apart : Apart lists
  free : ∀ n, (∀ h, n ∉ lists h) → m.slot (.next n) = none ∧ m.prevLink n = none

variable {m : Memory H N} {lists : H → List N} {n : N}

omit [DecidableEq H] [DecidableEq N] in
theorem mem_slotsOf {x : Slot H N} {p : H} {as : List N} :
    x ∈ slotsOf p as ↔ x = .head p ∨ ∃ a ∈ as, x = .next a := by
  rw [slotsOf, slots, List.mem_cons, List.mem_map]
  refine or_congr_right (exists_congr fun a => and_congr_right fun _ => eq_comm)

omit [DecidableEq H] [DecidableEq N] in
theorem nodup_slotsOf {as : List N} (h : as.Nodup) (p : H) : (slotsOf p as).Nodup := by
  refine List.nodup_cons.mpr ⟨fun hmem => ?_, h.map fun a b heq => Slot.next.inj heq⟩
  obtain ⟨a, -, heq⟩ := List.mem_map.mp hmem
  cases heq

namespace Shows

omit [DecidableEq H] [DecidableEq N]

variable {p q : H} {as bs : List N} {x : Slot H N}

theorem prevLink_eq (h : Shows m lists) (hp : lists p = as ++ n :: bs) :
    m.prevLink n = some (slotAfter p as) := by
  have hlinked := h.linked p
  rw [hp] at hlinked
  exact hlinked.back_eq

theorem isLinked_iff (h : Shows m lists) : m.isLinked n = true ↔ ∃ p, n ∈ lists p := by
  constructor
  · intro hlinked
    by_contra hnone
    rw [Memory.isLinked, (h.free n (not_exists.mp hnone)).2] at hlinked
    cases hlinked
  · rintro ⟨p, hp⟩
    obtain ⟨as, bs, hsplit⟩ := List.append_of_mem hp
    rw [Memory.isLinked, h.prevLink_eq hsplit]
    rfl

theorem mem_unique (h : Shows m lists) (hp : n ∈ lists p) (hq : n ∈ lists q) : p = q :=
  h.apart.party p q n hp hq

/-- The slots of two lists are not the same. -/
theorem slot_unique (h : Shows m lists) (hp : x ∈ slotsOf p (lists p))
    (hq : x ∈ slotsOf q (lists q)) : p = q := by
  rcases mem_slotsOf.mp hp with rfl | ⟨a, ha, rfl⟩
  · rcases mem_slotsOf.mp hq with heq | ⟨b, -, heq⟩
    · exact Slot.head.inj heq
    · cases heq
  · rcases mem_slotsOf.mp hq with heq | ⟨b, hb, heq⟩
    · cases heq
    · cases heq
      exact h.mem_unique ha hb

end Shows

/-! ## `Link` -/

section Link
variable {p : H} {as bs : List N} {before : Slot H N}

omit [DecidableEq H] [DecidableEq N] in
/-- The slot of a node that is in no list is not one of a list. -/
theorem ne_next {q : H} {x : Slot H N} {as : List N} (hn : n ∉ as) (hx : x ∈ slotsOf q as) :
    x ≠ .next n := by
  rintro rfl
  rcases mem_slotsOf.mp hx with heq | ⟨a, ha, heq⟩
  · cases heq
  · cases heq
    exact hn ha

omit [DecidableEq H] [DecidableEq N] in
theorem ne_of_notMem {a : N} {as : List N} (hn : n ∉ as) (ha : a ∈ as) : a ≠ n :=
  fun heq => hn (heq ▸ ha)

omit [DecidableEq H] [DecidableEq N] in
/-- What the slot after `as` holds is in the list. -/
theorem Shows.mem_of_slot (h : Shows m lists) (hp : lists p = as ++ bs) {b : N}
    (hb : b ∈ m.slot (slotAfter p as)) : b ∈ bs.head? ∧ b ∈ lists p := by
  have hlinked := h.linked p
  rw [hp] at hlinked
  have hslot : m.slot (slotAfter p as) = bs.head? := hlinked.slot_exit
  rw [hslot] at hb
  rw [hp]
  exact ⟨hb, List.mem_append_right _ (List.mem_of_mem_head? hb)⟩

omit [DecidableEq H] [DecidableEq N] in
theorem Shows.slot_head (h : Shows m lists) (hp : lists p = as ++ bs) {b : N}
    (hb : b ∈ bs.head?) : b ∈ m.slot (slotAfter p as) := by
  have hlinked := h.linked p
  rw [hp] at hlinked
  have hslot : m.slot (slotAfter p as) = bs.head? := hlinked.slot_exit
  rwa [hslot]

theorem Shows.link_inserts (h : Shows m lists) (hn : ∀ q, n ∉ lists q)
    (hp : lists p = as ++ bs) (hbefore : slotAfter p as = before) :
    Inserts .next some m.links (m.link n before).links (.head p) as bs n := by
  subst hbefore
  have hin : slotAfter p as ∈ slotsOf p (lists p) := by
    rw [hp]
    exact exit_mem_slots ..
  refine ⟨Memory.slot_link_before, Memory.slot_link_next (ne_next (hn p) hin).symm,
    Memory.prevLink_link_self, fun b hb => ?_, fun x hx hne => ?_, fun a ha hhead => ?_⟩
  · have hslot := h.slot_head hp hb
    exact Memory.prevLink_link_follower (ne_of_notMem (hn p) (h.mem_of_slot hp hslot).2) hslot
  · rw [← hp] at hx
    exact Memory.slot_link_of_ne hne (ne_next (hn p) hx)
  · rw [← hp] at ha
    exact Memory.prevLink_link_of_ne (ne_of_notMem (hn p) ha) fun hb =>
      hhead (h.mem_of_slot hp hb).1

theorem Shows.link (h : Shows m lists) (hn : ∀ q, n ∉ lists q) (hp : lists p = as ++ bs)
    (hbefore : slotAfter p as = before) :
    Shows (m.link n before) (Function.update lists p (as ++ n :: bs)) := by
  have hinserts := h.link_inserts hn hp hbefore
  subst hbefore
  have hin : slotAfter p as ∈ slotsOf p (lists p) := by
    rw [hp]
    exact exit_mem_slots ..
  have hperm : (as ++ n :: bs).Perm (n :: lists p) := by
    rw [hp]
    exact List.perm_middle
  refine ⟨fun q => ?_, h.apart.take hn hperm, fun a ha => ?_⟩
  · by_cases hq : q = p
    · subst hq
      have hlinked := h.linked q
      rw [hp] at hlinked
      rw [Function.update_self]
      exact hlinked.insert (nodup_slotsOf (hp ▸ h.apart.nodup q) q) hinserts
    · rw [Function.update_of_ne hq]
      refine (h.linked q).congr (fun x hx => ?_) fun a ha => ?_
      · refine Memory.slot_link_of_ne ?_ (ne_next (hn q) hx)
        rintro rfl
        exact hq (h.slot_unique hx hin)
      · refine Memory.prevLink_link_of_ne (ne_of_notMem (hn q) ha) fun hb => ?_
        exact hq (h.mem_unique ha (h.mem_of_slot hp hb).2)
  · have hnew : a ∉ as ++ n :: bs := by
      have hap := ha p
      rwa [Function.update_self] at hap
    have hne : a ≠ n := fun heq => hnew (hperm.mem_iff.mpr (heq ▸ List.mem_cons_self))
    have hold : ∀ q, a ∉ lists q := by
      intro q hq
      by_cases heq : q = p
      · exact hnew (hperm.mem_iff.mpr (List.mem_cons_of_mem _ (heq ▸ hq)))
      · have haq := ha q
        rw [Function.update_of_ne heq] at haq
        exact haq hq
    obtain ⟨hslot, hprev⟩ := h.free a hold
    constructor
    · refine (Memory.slot_link_of_ne ?_ fun heq => hne (Slot.next.inj heq)).trans hslot
      exact (ne_next (hold p) hin).symm
    · exact (Memory.prevLink_link_of_ne hne fun hb => hold p (h.mem_of_slot hp hb).2).trans hprev

end Link

/-! ## `Unlink` -/

section Unlink
variable {p : H} {as bs : List N}

/-- A node that is in no list is left alone. -/
theorem Shows.unlink_of_notMem (h : Shows m lists) (hn : ∀ q, n ∉ lists q) :
    m.unlink n = m := by
  obtain ⟨hslot, hprev⟩ := h.free n hn
  have hsame : (m.setSlot (.next n) none).setPrevLink n none = m := by
    rw [Memory.setPrevLink, Memory.setSlot]
    congr 1
    · rw [← hslot, Function.update_eq_self]
    · rw [← hprev, Function.update_eq_self]
  rw [Memory.unlink, hslot, Memory.writePrevLink]
  simp only [hprev, Memory.writeSlot]
  exact hsame

theorem Shows.unlink_erases (h : Shows m lists) (hp : lists p = as ++ n :: bs) :
    Erases .next some m.links (m.unlink n).links (.head p) as bs n := by
  have hlinked := h.linked p
  have hnodup := h.apart.nodup p
  rw [hp] at hlinked hnodup
  have hprev : m.prevLink n = some (slotAfter p as) := hlinked.back_eq
  have hslot : m.slot (.next n) = bs.head? := hlinked.slot_next
  have hrest : n ∉ as ++ bs := (List.nodup_middle.mp hnodup).notMem
  have hentry : slotAfter p as ≠ .next n := ne_next hrest (exit_mem_slots ..)
  refine ⟨Memory.slot_unlink_prev hentry hprev, fun b hb => ?_, fun x hx hne => ?_,
    fun a ha hhead => ?_⟩
  · have hin : b ∈ as ++ bs := List.mem_append_right _ (List.mem_of_mem_head? hb)
    rw [← hslot] at hb
    exact (Memory.prevLink_unlink_follower (ne_of_notMem hrest hin) hb).trans hprev
  · refine Memory.slot_unlink_of_ne (ne_next hrest hx) fun hmem => hne ?_
    exact (Option.some.inj (hprev.symm.trans hmem)).symm
  · rw [← hslot] at hhead
    exact Memory.prevLink_unlink_of_ne (ne_of_notMem hrest ha) hhead

theorem Shows.unlink (h : Shows m lists) (hp : lists p = as ++ n :: bs) :
    Shows (m.unlink n) (Function.update lists p (as ++ bs)) := by
  have herases := h.unlink_erases hp
  have hin : n ∈ lists p := by
    rw [hp]
    exact List.mem_append_right _ List.mem_cons_self
  have hprev := h.prevLink_eq hp
  have hentry : slotAfter p as ∈ slotsOf p (lists p) := by
    rw [hp]
    exact exit_mem_slots ..
  have hslot : ∀ b ∈ m.slot (.next n), b ∈ lists p := by
    intro b hb
    have hlinked := h.linked p
    rw [hp] at hlinked
    have hnext : m.slot (.next n) = bs.head? := hlinked.slot_next
    rw [hnext] at hb
    rw [hp]
    exact List.mem_append_right _ (List.mem_cons_of_mem _ (List.mem_of_mem_head? hb))
  have hsub : (as ++ bs).Subperm (lists p) := by
    rw [hp]
    exact (List.sublist_cons_self n bs).append_left as |>.subperm
  refine ⟨fun q => ?_, h.apart.keep hsub, fun a ha => ?_⟩
  · by_cases hq : q = p
    · subst hq
      have hlinked := h.linked q
      rw [hp] at hlinked
      rw [Function.update_self]
      exact hlinked.erase (nodup_slotsOf (hp ▸ h.apart.nodup q) q) herases
    · rw [Function.update_of_ne hq]
      have hother : n ∉ lists q := fun hn => hq (h.mem_unique hn hin)
      refine (h.linked q).congr (fun x hx => ?_) fun a ha => ?_
      · refine Memory.slot_unlink_of_ne (ne_next hother hx) fun hmem => hq ?_
        rw [hprev] at hmem
        cases hmem
        exact h.slot_unique hx hentry
      · exact Memory.prevLink_unlink_of_ne (ne_of_notMem hother ha) fun hb =>
          hq (h.mem_unique ha (hslot a hb))
  · by_cases hne : a = n
    · subst hne
      exact ⟨Memory.slot_unlink_self, Memory.prevLink_unlink_self⟩
    · have hold : ∀ q, a ∉ lists q := by
        intro q hq
        have haq := ha q
        by_cases heq : q = p
        · subst heq
          rw [Function.update_self, List.mem_append, not_or] at haq
          rw [hp, List.mem_append, List.mem_cons] at hq
          rcases hq with hq | rfl | hq
          · exact haq.1 hq
          · exact hne rfl
          · exact haq.2 hq
        · rw [Function.update_of_ne heq] at haq
          exact haq hq
      obtain ⟨hfree, hnone⟩ := h.free a hold
      constructor
      · refine (Memory.slot_unlink_of_ne (fun heq => hne (Slot.next.inj heq)) ?_).trans hfree
        intro hmem
        rw [hprev] at hmem
        exact ne_next (hold p) hentry (Option.some.inj hmem)
      · exact (Memory.prevLink_unlink_of_ne hne fun hb => hold p (hslot a hb)).trans hnone

end Unlink

/-! ## Where the node comes or was -/

omit [DecidableEq H] in
theorem insertAfter_of_notMem {a : N} {as : List N} (h : a ∉ as) : insertAfter a n as = as := by
  induction as with
  | nil => rfl
  | cons b as ih =>
      have hne : b ≠ a := fun heq => h (heq ▸ List.mem_cons_self)
      rw [insertAfter, if_neg hne, ih fun hmem => h (List.mem_cons_of_mem _ hmem)]

omit [DecidableEq H] in
theorem insertAfter_append {a : N} {as bs : List N} (h : a ∉ as) :
    insertAfter a n (as ++ a :: bs) = as ++ a :: n :: bs := by
  induction as with
  | nil => exact if_pos rfl
  | cons b as ih =>
      have hne : b ≠ a := fun heq => h (heq ▸ List.mem_cons_self)
      rw [List.cons_append, insertAfter, if_neg hne,
        ih fun hmem => h (List.mem_cons_of_mem _ hmem)]
      rfl

/-- One list has one node more, after the slot it was linked to. -/
theorem linkInto_eq {s : System H N} (h : Shows s.memory s.lists) (n : N) {before : Slot H N}
    (husable : s.Usable before) : ∃ p as bs, s.lists p = as ++ bs ∧ slotAfter p as = before ∧
      linkInto s.lists n before = Function.update s.lists p (as ++ n :: bs) := by
  cases before with
  | head p =>
      refine ⟨p, [], s.lists p, rfl, rfl, funext fun q => ?_⟩
      rw [linkInto, Function.update_apply]
      by_cases hq : q = p
      · subst hq
        rw [if_pos rfl, if_pos rfl]
        rfl
      · rw [if_neg hq, if_neg hq]
  | next a =>
      obtain ⟨p, hp⟩ := h.isLinked_iff.mp husable
      obtain ⟨as, bs, hsplit⟩ := List.append_of_mem hp
      refine ⟨p, as ++ [a], bs, by rw [hsplit, List.append_cons], exit_concat ..,
        funext fun q => ?_⟩
      rw [linkInto, Function.update_apply]
      by_cases hq : q = p
      · subst hq
        have hnodup := h.apart.nodup q
        rw [hsplit] at hnodup
        have hfirst : a ∉ as := fun hmem =>
          (List.nodup_middle.mp hnodup).notMem (List.mem_append_left _ hmem)
        rw [if_pos rfl, hsplit, insertAfter_append hfirst, List.append_cons]
      · rw [if_neg hq]
        exact insertAfter_of_notMem fun hmem => hq (h.mem_unique hmem hp)

/-- One list has this node less. -/
theorem unlinkFrom_eq (h : Shows m lists) {p : H} (hn : n ∈ lists p) :
    ∃ as bs, lists p = as ++ n :: bs ∧
      unlinkFrom lists n = Function.update lists p (as ++ bs) := by
  obtain ⟨as, bs, hsplit⟩ := List.append_of_mem hn
  refine ⟨as, bs, hsplit, funext fun q => ?_⟩
  rw [unlinkFrom, Function.update_apply]
  by_cases hq : q = p
  · subst hq
    have hnodup := h.apart.nodup q
    rw [hsplit] at hnodup
    have hfirst : n ∉ as := fun hmem =>
      (List.nodup_middle.mp hnodup).notMem (List.mem_append_left _ hmem)
    rw [if_pos rfl, hsplit, List.erase_append_right _ hfirst, List.erase_cons_head]
  · rw [if_neg hq]
    exact List.erase_of_not_mem fun hmem => hq (h.mem_unique hmem hn)

omit [DecidableEq H] in
theorem unlinkFrom_of_notMem (h : ∀ p, n ∉ lists p) : unlinkFrom lists n = lists :=
  funext fun p => List.erase_of_not_mem (h p)

/-! ## Every run -/

omit [DecidableEq H] [DecidableEq N] in
theorem Shows.notMem_of_isLinked (h : Shows m lists) (hn : m.isLinked n = false) (p : H) :
    n ∉ lists p := by
  intro hp
  rw [h.isLinked_iff.mpr ⟨p, hp⟩] at hn
  cases hn

theorem Shows.step {s : System H N} (h : Shows s.memory s.lists) {a : Action H N}
    (hen : s.enabled a) : Shows (s.step a).memory (s.step a).lists := by
  cases a with
  | link n before =>
      obtain ⟨hn, husable⟩ := hen
      obtain ⟨p, as, bs, hp, hbefore, hlists⟩ := linkInto_eq h n husable
      rw [System.step, hlists]
      exact h.link (h.notMem_of_isLinked hn) hp hbefore
  | unlink n =>
      rw [System.step]
      by_cases hn : ∃ p, n ∈ s.lists p
      · obtain ⟨p, hp⟩ := hn
        obtain ⟨as, bs, hsplit, hlists⟩ := unlinkFrom_eq h hp
        rw [hlists]
        exact h.unlink hsplit
      · have hnone := not_exists.mp hn
        rw [h.unlink_of_notMem hnone, unlinkFrom_of_notMem hnone]
        exact h

theorem shows_start : Shows (machine H N).start.memory (machine H N).start.lists where
  linked := fun _ => rfl
  apart := .nil
  free := fun _ _ => ⟨rfl, rfl⟩

theorem shows_of_reachable {s : System H N} (h : (machine H N).Reachable s) :
    Shows s.memory s.lists := by
  refine h.invariant (I := fun s => Shows s.memory s.lists) shows_start ?_
  intro s a s' hs hen hstep
  cases hstep
  exact hs.step hen

/-- After every sequence of calls each linked node is in the slot its `_prevLink` points to,
and from each head one meets the nodes that are meant; a call of `Link` puts the node into
one list and one of `Unlink` takes it out of the one it is in, if it is in one, and no other
list changes. -/
theorem lists_as_meant {s : System H N} (h : (machine H N).Reachable s) :
    (∀ n x, s.memory.prevLink n = some x → s.memory.slot x = some n) ∧
    (∀ p, Follows (fun n => s.memory.slot (.next n)) (s.memory.slot (.head p)) (s.lists p)) ∧
    Apart s.lists ∧ (∀ n, s.memory.isLinked n = true ↔ ∃ p, n ∈ s.lists p) ∧
    (∀ n before, s.enabled (.link n before) → ∃ p as bs, s.lists p = as ++ bs ∧
      slotAfter p as = before ∧
        linkInto s.lists n before = Function.update s.lists p (as ++ n :: bs)) ∧
    (∀ n p, n ∈ s.lists p → ∃ as bs, s.lists p = as ++ n :: bs ∧
      unlinkFrom s.lists n = Function.update s.lists p (as ++ bs)) ∧
    ∀ n, s.memory.isLinked n = false → s.step (.unlink n) = s := by
  have hs := shows_of_reachable h
  refine ⟨fun n x hx => ?_, fun p => (hs.linked p).follows, hs.apart, fun n => hs.isLinked_iff,
    fun n before hen => linkInto_eq hs n hen.2, fun n p hp => unlinkFrom_eq hs hp, fun n hn => ?_⟩
  · have hlinked : s.memory.isLinked n = true := by
      rw [Memory.isLinked, hx]
      rfl
    obtain ⟨p, hp⟩ := hs.isLinked_iff.mp hlinked
    obtain ⟨as, bs, hsplit⟩ := List.append_of_mem hp
    cases hx.symm.trans (hs.prevLink_eq hsplit)
    exact hs.slot_head hsplit rfl
  · have hnone := hs.notMem_of_isLinked hn
    rw [System.step, hs.unlink_of_notMem hnone, unlinkFrom_of_notMem hnone]

/-- Two lists; a node in the middle is unlinked, and once more. -/
theorem lists_as_meant_two : ∃ s, (machine Bool Nat).Reachable s ∧ s.lists true = [3, 2] ∧
    Follows (fun n => s.memory.slot (.next n)) (s.memory.slot (.head true)) [3, 2] := by
  have hrun : (machine Bool Nat).Reachable _ := ⟨[.link 1 (.head true), .link 2 (.next 1),
    .link 3 (.head true), .link 4 (.head false), .unlink 1, .unlink 1], Machine.run_of_exec rfl⟩
  exact ⟨_, hrun, rfl, (lists_as_meant hrun).2.1 true⟩

end LinkedList

end Rx
