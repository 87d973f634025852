/-
# `RxFoundation.DoubleLinkedListSpec` — both ends, and the size, agree

The slot before the first node is `_headNode`, and the one after a node its `_next`;
back pointers name nodes, and none before the first.  `Shows` says that the memory is
linked so, that `_tailNode` is the last node, and that `_size` counts.

Three functions put a node in and one takes it out, each with a case for where in the
list that is; `Puts` and `Takes` say what all cases come to.
-/
import CrashRealm.Lib.LinkedChain
import CrashRealm.RxFoundation.DoubleLinkedList
import Mathlib.Algebra.Group.Nat.Defs

namespace Rx

namespace DoubleLinkedList

open LinkedChain

variable {E N : Type} [DecidableEq N] {s s' : DoubleLinkedList E N} {as bs : List N} {n : N}

/-- The nodes, as slots and back pointers. -/
def links (s : DoubleLinkedList E N) : Links (Option N) N (Option N) where
  slot x := match x with
    | none => s.headNode
    | some n => (s.nodes n).bind Node.next
  back n := (s.nodes n).bind Node.prev

/-- The last node. -/
abbrev last (as : List N) : Option N := exit some none as

structure Shows (s : DoubleLinkedList E N) (as : List N) : Prop where
  linked : Linked some id s.links none as
  tail : s.tailNode = last as
  size : s.size = as.length
  nodup : as.Nodup
  exist : ∀ a ∈ as, (s.nodes a).isSome
  free : ∀ a, a ∉ as → s.links.slot (some a) = none ∧ s.links.back a = none

/-- Only links changed. -/
structure Keeps (s s' : DoubleLinkedList E N) : Prop where
  size : s'.size = s.size
  values : ∀ a, (s'.nodes a).map Node.value = (s.nodes a).map Node.value

namespace Keeps

omit [DecidableEq N]

theorem trans {s'' : DoubleLinkedList E N} (h : Keeps s s') (h' : Keeps s' s'') : Keeps s s'' :=
  ⟨h'.size.trans h.size, fun a => (h'.values a).trans (h.values a)⟩

theorem isSome (h : Keeps s s') (a : N) : (s'.nodes a).isSome = (s.nodes a).isSome := by
  have hvalues := congrArg Option.isSome (h.values a)
  rwa [Option.isSome_map, Option.isSome_map] at hvalues

end Keeps

/-! ## One pointer -/

theorem links_setNode (n : N) (node : Option (Node E N)) :
    (s.setNode n node).links = ⟨Function.update s.links.slot (some n) (node.bind Node.next),
      Function.update s.links.back n (node.bind Node.prev)⟩ := by
  rw [links, Links.mk.injEq]
  constructor
  · funext x
    cases x with
    | none => rfl
    | some a =>
        by_cases ha : a = n
        · subst ha
          rw [Function.update_self]
          exact congrArg (Option.bind · Node.next) (Function.update_self ..)
        · rw [Function.update_of_ne fun h => ha (Option.some.inj h)]
          exact congrArg (Option.bind · Node.next) (Function.update_of_ne ha ..)
  · funext a
    by_cases ha : a = n
    · subst ha
      rw [Function.update_self]
      exact congrArg (Option.bind · Node.prev) (Function.update_self ..)
    · rw [Function.update_of_ne ha]
      exact congrArg (Option.bind · Node.prev) (Function.update_of_ne ha ..)

theorem keeps_setNode {node node' : Node E N} (hnode : s.nodes n = some node)
    (hvalue : node'.value = node.value) : Keeps s (s.setNode n (some node')) := by
  refine ⟨rfl, fun a => ?_⟩
  show (Function.update s.nodes n (some node') a).map Node.value = _
  by_cases ha : a = n
  · subst ha
    rw [Function.update_self, hnode]
    exact congrArg some hvalue
  · rw [Function.update_of_ne ha]

omit [DecidableEq N] in
theorem links_of_node {node : Node E N} (hnode : s.nodes n = some node) :
    s.links.slot (some n) = node.next ∧ s.links.back n = node.prev := by
  constructor
  · exact congrArg (Option.bind · Node.next) hnode
  · exact congrArg (Option.bind · Node.prev) hnode

omit [DecidableEq N] in
/-- `*n` -/
theorem load_spec (hn : (s.nodes n).isSome) : ∃ node, s.load (some n) = .ok node ∧
    node.next = s.links.slot (some n) ∧ node.prev = s.links.back n := by
  obtain ⟨node, hnode⟩ := Option.isSome_iff_exists.mp hn
  obtain ⟨hnext, hprev⟩ := links_of_node hnode
  refine ⟨node, ?_, hnext.symm, hprev.symm⟩
  simp only [load, Option.bind_some, hnode]

/-- `n->_next = value` -/
theorem setNext_spec (hn : (s.nodes n).isSome) (value : Option N) :
    ∃ s', s.setNext (some n) value = .ok s' ∧ Keeps s s' ∧
      s'.headNode = s.headNode ∧ s'.tailNode = s.tailNode ∧
      s'.links = ⟨Function.update s.links.slot (some n) value, s.links.back⟩ := by
  obtain ⟨node, hnode⟩ := Option.isSome_iff_exists.mp hn
  refine ⟨s.setNode n (some { node with next := value }), ?_, keeps_setNode hnode rfl, rfl, rfl,
    ?_⟩
  · simp only [setNext, Option.bind_some, hnode]
  · rw [links_setNode, Option.bind_some, Option.bind_some, ← (links_of_node hnode).2,
      Function.update_eq_self]

/-- `n->_prev = value` -/
theorem setPrev_spec (hn : (s.nodes n).isSome) (value : Option N) :
    ∃ s', s.setPrev (some n) value = .ok s' ∧ Keeps s s' ∧
      s'.headNode = s.headNode ∧ s'.tailNode = s.tailNode ∧
      s'.links = ⟨s.links.slot, Function.update s.links.back n value⟩ := by
  obtain ⟨node, hnode⟩ := Option.isSome_iff_exists.mp hn
  refine ⟨s.setNode n (some { node with prev := value }), ?_, keeps_setNode hnode rfl, rfl, rfl,
    ?_⟩
  · simp only [setPrev, Option.bind_some, hnode]
  · rw [links_setNode, Option.bind_some, Option.bind_some, ← (links_of_node hnode).1,
      Function.update_eq_self]

/-! ## Putting in -/

/-- `n` is put into slot `x`. -/
structure Puts (s s' : DoubleLinkedList E N) (x : Option N) (n : N) : Prop where
  slot : s'.links.slot =
    Function.update (Function.update s.links.slot (some n) (s.links.slot x)) x (some n)
  back : ∀ a, s'.links.back a =
    if a = n then x else if s.links.slot x = some a then some n else s.links.back a
  tail : s'.tailNode = if s.links.slot x = none then some n else s.tailNode
  keeps : Keeps s s'

omit [DecidableEq N] in
theorem last_ne_of_notMem (hn : n ∉ as) : last as ≠ some n := by
  rcases List.eq_nil_or_concat as with rfl | ⟨as, a, rfl⟩
  · exact (Option.some_ne_none n).symm
  · rw [last, List.concat_eq_append, exit_concat]
    rw [List.concat_eq_append] at hn
    intro heq
    cases heq
    exact hn (List.mem_append_right _ (List.mem_singleton_self _))

omit [DecidableEq N] in
theorem last_eq_none_iff : last as = none ↔ as = [] := by
  rcases List.eq_nil_or_concat as with rfl | ⟨as, a, rfl⟩
  · exact iff_of_true rfl rfl
  · rw [List.concat_eq_append, last, exit_concat]
    exact iff_of_false (Option.some_ne_none a) (List.concat_ne_nil a as)

omit [DecidableEq N] in
theorem nodup_slots (h : as.Nodup) : (slots some none as).Nodup := by
  refine List.nodup_cons.mpr ⟨fun hmem => ?_, h.map fun a b heq => Option.some.inj heq⟩
  obtain ⟨a, -, heq⟩ := List.mem_map.mp hmem
  cases heq

omit [DecidableEq N] in
theorem some_mem_slots {a : N} : some a ∈ slots some none as ↔ a ∈ as := by
  rw [slots, List.mem_cons, List.mem_map]
  constructor
  · rintro (heq | ⟨b, hb, heq⟩)
    · cases heq
    · cases heq
      exact hb
  · exact fun ha => Or.inr ⟨a, ha, rfl⟩

omit [DecidableEq N] in
theorem last_append_cons (as bs : List N) (a : N) : last (as ++ a :: bs) = exit some (some a) bs := by
  rw [last]
  generalize none = start
  induction as generalizing start with
  | nil => rfl
  | cons b as ih => exact ih (some b)

section Puts
variable (h : Shows s (as ++ bs)) (hn : n ∉ as ++ bs) (hputs : Puts s s' (last as) n)
include h hn hputs

theorem Puts.inserts : Inserts some id s.links s'.links none as bs n := by
  have hslot : s.links.slot (last as) = bs.head? := h.linked.slot_exit
  have hne : last as ≠ some n := last_ne_of_notMem fun hmem => hn (List.mem_append_left _ hmem)
  refine ⟨?_, ?_, ?_, fun b hb => ?_, fun x hx hother => ?_, fun a ha hhead => ?_⟩
  · rw [hputs.slot, Function.update_self]
  · rw [hputs.slot, Function.update_of_ne hne.symm, Function.update_self]
  · rw [hputs.back, if_pos rfl]
    rfl
  · have hbn : b ≠ n := by
      rintro rfl
      exact hn (List.mem_append_right _ (List.mem_of_mem_head? hb))
    rw [hputs.back, if_neg hbn, hslot, if_pos (Option.mem_def.mp hb)]
    rfl
  · have hxn : x ≠ some n := by
      rintro rfl
      exact hn (some_mem_slots.mp hx)
    rw [hputs.slot, Function.update_of_ne hother, Function.update_of_ne hxn]
  · have han : a ≠ n := fun heq => hn (heq ▸ ha)
    have hother : ¬ bs.head? = some a := hhead
    rw [hputs.back, if_neg han, hslot, if_neg hother]

theorem Puts.last_eq : s'.tailNode = last (as ++ n :: bs) := by
  have hslot : s.links.slot (last as) = bs.head? := h.linked.slot_exit
  rw [hputs.tail, hslot, last_append_cons]
  cases bs with
  | nil => exact if_pos rfl
  | cons b bs =>
      rw [List.head?_cons, if_neg (Option.some_ne_none b), h.tail, last_append_cons]
      rfl

/-- With the size counted, the list is shown with the node in it. -/
theorem Puts.shows (hexist : (s.nodes n).isSome) {s'' : DoubleLinkedList E N}
    (hs'' : s'' = { s' with size := s.size + 1 }) : Shows s'' (as ++ n :: bs) := by
  subst hs''
  have hperm : (as ++ n :: bs).Perm (n :: (as ++ bs)) := List.perm_middle
  have hlength := hperm.length_eq
  rw [List.length_cons] at hlength
  have hslot : s.links.slot (last as) = bs.head? := h.linked.slot_exit
  have hlinked : Linked some id s'.links none (as ++ n :: bs) :=
    h.linked.insert (nodup_slots h.nodup) (Puts.inserts h hn hputs)
  have hlast : s'.tailNode = last (as ++ n :: bs) := Puts.last_eq h hn hputs
  refine ⟨hlinked, hlast, ?_, ?_, fun a ha => ?_, fun a ha => ?_⟩
  · show s.size + 1 = _
    rw [h.size, hlength]
    rfl
  · exact hperm.nodup_iff.mpr (List.nodup_cons.mpr ⟨hn, h.nodup⟩)
  · refine (hputs.keeps.isSome a).trans ?_
    rcases List.mem_cons.mp (hperm.mem_iff.mp ha) with rfl | hold
    · exact hexist
    · exact h.exist a hold
  · rw [hperm.mem_iff, List.mem_cons, not_or] at ha
    obtain ⟨hfree, hnone⟩ := h.free a ha.2
    have hlast : last as ≠ some a :=
      last_ne_of_notMem fun hmem => ha.2 (List.mem_append_left _ hmem)
    have hhead : ¬ bs.head? = some a := fun heq =>
      ha.2 (List.mem_append_right _ (List.mem_of_mem_head? heq))
    constructor
    · show s'.links.slot (some a) = none
      rw [hputs.slot, Function.update_of_ne hlast.symm,
        Function.update_of_ne fun heq => ha.1 (Option.some.inj heq), hfree]
    · show s'.links.back a = none
      rw [hputs.back, if_neg ha.1, hslot, if_neg hhead, hnone]

end Puts

/-! ## Taking out -/

/-- `n` is taken out from between its neighbours. -/
structure Takes (s s' : DoubleLinkedList E N) (n : N) : Prop where
  slot : s'.links.slot = Function.update
    (Function.update s.links.slot (s.links.back n) (s.links.slot (some n))) (some n) none
  back : ∀ a, s'.links.back a = if a = n then none
    else if s.links.slot (some n) = some a then s.links.back n else s.links.back a
  tail : s'.tailNode = if s.links.slot (some n) = none then s.links.back n else s.tailNode
  exist : ∀ a, a ≠ n → (s'.nodes a).isSome = (s.nodes a).isSome

section Takes
variable (h : Shows s (as ++ n :: bs)) (htakes : Takes s s' n)
include h htakes

theorem Takes.erases : Erases some id s.links s'.links none as bs n := by
  have hback : s.links.back n = last as := h.linked.back_eq
  have hslot : s.links.slot (some n) = bs.head? := h.linked.slot_next
  have hrest : n ∉ as ++ bs := (List.nodup_middle.mp h.nodup).notMem
  have hne : last as ≠ some n := last_ne_of_notMem fun hmem => hrest (List.mem_append_left _ hmem)
  refine ⟨?_, fun b hb => ?_, fun x hx hother => ?_, fun a ha hhead => ?_⟩
  · rw [htakes.slot, Function.update_of_ne hne, hback, Function.update_self]
  · have hbn : b ≠ n := by
      rintro rfl
      exact hrest (List.mem_append_right _ (List.mem_of_mem_head? hb))
    rw [htakes.back, if_neg hbn, hslot, if_pos (Option.mem_def.mp hb), hback]
    rfl
  · have hxn : x ≠ some n := by
      rintro rfl
      exact hrest (some_mem_slots.mp hx)
    rw [htakes.slot, Function.update_of_ne hxn, hback, Function.update_of_ne hother]
  · have han : a ≠ n := fun heq => hrest (heq ▸ ha)
    have hother : ¬ bs.head? = some a := hhead
    rw [htakes.back, if_neg han, hslot, if_neg hother]

theorem Takes.last_eq : s'.tailNode = last (as ++ bs) := by
  have hback : s.links.back n = last as := h.linked.back_eq
  have hslot : s.links.slot (some n) = bs.head? := h.linked.slot_next
  rw [htakes.tail, hslot, hback]
  cases bs with
  | nil => rw [List.head?_nil, if_pos rfl, List.append_nil]
  | cons b bs =>
      rw [List.head?_cons, if_neg (Option.some_ne_none b), h.tail, last_append_cons,
        last_append_cons]
      rfl

theorem Takes.shows {s'' : DoubleLinkedList E N} (hs'' : s'' = { s' with size := s.size - 1 }) :
    Shows s'' (as ++ bs) := by
  subst hs''
  have hperm : (as ++ n :: bs).Perm (n :: (as ++ bs)) := List.perm_middle
  have hlength := hperm.length_eq
  rw [List.length_cons] at hlength
  have hnodup := List.nodup_cons.mp (hperm.nodup_iff.mp h.nodup)
  have hback : s.links.back n = last as := h.linked.back_eq
  have hslot : s.links.slot (some n) = bs.head? := h.linked.slot_next
  have hlinked : Linked some id s'.links none (as ++ bs) :=
    h.linked.erase (nodup_slots h.nodup) (Takes.erases h htakes)
  have hlast : s'.tailNode = last (as ++ bs) := Takes.last_eq h htakes
  refine ⟨hlinked, hlast, ?_, hnodup.2, fun a ha => ?_, fun a ha => ?_⟩
  · show s.size - 1 = _
    rw [h.size, hlength]
    omega
  · have hne : a ≠ n := fun heq => hnodup.1 (heq ▸ ha)
    refine (htakes.exist a hne).trans (h.exist a ?_)
    exact hperm.mem_iff.mpr (List.mem_cons_of_mem _ ha)
  · show s'.links.slot (some a) = none ∧ s'.links.back a = none
    rw [htakes.slot, htakes.back]
    by_cases hne : a = n
    · rw [hne, Function.update_self, if_pos rfl]
      exact ⟨rfl, rfl⟩
    · have hold : a ∉ as ++ n :: bs := fun hmem =>
        ha ((List.mem_cons.mp (hperm.mem_iff.mp hmem)).resolve_left hne)
      obtain ⟨hfree, hnone⟩ := h.free a hold
      have hlast : last as ≠ some a :=
        last_ne_of_notMem fun hmem => ha (List.mem_append_left _ hmem)
      have hhead : ¬ bs.head? = some a := fun heq =>
        ha (List.mem_append_right _ (List.mem_of_mem_head? heq))
      rw [Function.update_of_ne fun heq => hne (Option.some.inj heq), hback,
        Function.update_of_ne hlast.symm, hfree, if_neg hne, hslot, if_neg hhead, hnone]
      exact ⟨rfl, rfl⟩

end Takes

/-! ## Adding a node -/

/-- The list's own fields change, and no node does. -/
theorem links_of_nodes (hnodes : s'.nodes = s.nodes) :
    s'.links = ⟨Function.update s.links.slot none s'.headNode, s.links.back⟩ := by
  have hslot : s'.links.slot = Function.update s.links.slot none s'.headNode := by
    funext x
    cases x with
    | none =>
        rw [Function.update_self]
        rfl
    | some a =>
        rw [Function.update_of_ne (Option.some_ne_none a)]
        exact congrArg (Option.bind · Node.next) (congrFun hnodes a)
  have hback : s'.links.back = s.links.back := by
    funext a
    exact congrArg (Option.bind · Node.prev) (congrFun hnodes a)
  rw [← hslot, ← hback]

omit [DecidableEq N] in
theorem keeps_of_nodes (hnodes : s'.nodes = s.nodes) (hsize : s'.size = s.size) : Keeps s s' :=
  ⟨hsize, fun a => congrArg (Option.map Node.value) (congrFun hnodes a)⟩

section Add
variable (h : Shows s as) (hn : n ∉ as)
include h hn

/-- The only node there is. -/
theorem puts_first (hempty : as = []) (hnodes : s'.nodes = s.nodes) (hsize : s'.size = s.size)
    (hhead : s'.headNode = some n) (htail : s'.tailNode = some n) : Puts s s' none n := by
  subst hempty
  obtain ⟨hslot, hback⟩ := h.free n hn
  have hnone : s.links.slot none = none := h.linked
  have hlinks := links_of_nodes hnodes
  refine ⟨?_, fun a => ?_, ?_, keeps_of_nodes hnodes hsize⟩
  · rw [hlinks, hhead, hnone, ← hslot, Function.update_eq_self]
  · rw [hlinks, hnone, if_neg (Option.some_ne_none a).symm]
    split
    next heq => rw [heq, hback]
    next => rfl
  · rw [hnone, if_pos rfl, htail]

theorem linkFront_puts (hexist : (s.nodes n).isSome) :
    ∃ s', s.linkFront (some n) = .ok s' ∧ Puts s s' none n := by
  obtain ⟨hslot, hback⟩ := h.free n hn
  cases as with
  | nil =>
      have hhead : s.headNode = none := h.linked
      exact ⟨_, if_neg fun hne => hne hhead, puts_first h hn rfl rfl rfl rfl rfl⟩
  | cons a as =>
      have hhead : s.headNode = some a := h.linked.1
      have hna : n ≠ a := fun heq => hn (heq ▸ List.mem_cons_self)
      obtain ⟨s₁, hnext, hkeeps₁, hhead₁, htail₁, hlinks₁⟩ := setNext_spec hexist (some a)
      have ha : (s₁.nodes a).isSome := (hkeeps₁.isSome a).trans (h.exist a List.mem_cons_self)
      obtain ⟨s₂, hprev, hkeeps₂, -, htail₂, hlinks₂⟩ := setPrev_spec ha (some n)
      have hlinks₃ := @links_of_nodes _ _ _ s₂ { s₂ with headNode := some n } rfl
      refine ⟨{ s₂ with headNode := some n }, ?_, ?_, fun b => ?_, ?_,
        hkeeps₁.trans (hkeeps₂.trans (keeps_of_nodes rfl rfl))⟩
      · rw [linkFront, if_pos fun hnone => Option.some_ne_none a (hhead.symm.trans hnone), hhead,
          hnext, ok_bind, hhead₁, hhead, hprev]
        rfl
      · rw [hlinks₃, hlinks₂, hlinks₁, h.linked.1]
      · rw [hlinks₃, hlinks₂, hlinks₁, h.linked.1]
        show Function.update s.links.back a (some n) b = _
        rw [Function.update_apply]
        by_cases hbn : b = n
        · rw [if_pos hbn, hbn, if_neg hna, hback]
        · by_cases hba : b = a
          · rw [if_pos hba, if_neg hbn, hba, if_pos rfl]
          · rw [if_neg hba, if_neg hbn, if_neg fun heq => hba (Option.some.inj heq).symm]
      · rw [h.linked.1, if_neg (Option.some_ne_none a)]
        exact htail₂.trans htail₁

theorem linkBack_puts (hexist : (s.nodes n).isSome) :
    ∃ s', s.linkBack (some n) = .ok s' ∧ Puts s s' (last as) n := by
  obtain ⟨hslot, hback⟩ := h.free n hn
  have htail := h.tail
  have hend : s.links.slot (last as) = none := by
    have hlinked := h.linked
    rw [← List.append_nil as] at hlinked
    exact hlinked.slot_exit
  rcases List.eq_nil_or_concat as with rfl | ⟨as, k, rfl⟩
  · exact ⟨_, if_neg fun hne => hne htail, puts_first h hn rfl rfl rfl rfl rfl⟩
  · rw [List.concat_eq_append] at h hn htail hend ⊢
    have hlast : last (as ++ [k]) = some k := exit_concat ..
    have hin : k ∈ as ++ [k] := List.mem_append_right _ (List.mem_singleton_self k)
    rw [hlast] at htail hend ⊢
    obtain ⟨s₁, hnext, hkeeps₁, -, htail₁, hlinks₁⟩ := setNext_spec (h.exist k hin) (some n)
    have hn₁ : (s₁.nodes n).isSome := (hkeeps₁.isSome n).trans hexist
    obtain ⟨s₂, hprev, hkeeps₂, hhead₂, htail₂, hlinks₂⟩ := setPrev_spec hn₁ (some k)
    have hlinks₃ : ({ s₂ with tailNode := some n } : DoubleLinkedList E N).links = s₂.links := rfl
    refine ⟨{ s₂ with tailNode := some n }, ?_, ?_, fun b => ?_, ?_,
      hkeeps₁.trans (hkeeps₂.trans (keeps_of_nodes rfl rfl))⟩
    · rw [linkBack, if_pos fun hnone => Option.some_ne_none k (htail.symm.trans hnone), htail,
        hnext, ok_bind, htail₁, htail, hprev]
      rfl
    · rw [hlinks₃, hlinks₂, hlinks₁, hend, ← hslot, Function.update_eq_self]
    · rw [hlinks₃, hlinks₂, hlinks₁, hend, if_neg (Option.some_ne_none b).symm]
      exact Function.update_apply ..
    · rw [hend, if_pos rfl]

end Add

/-- Before a node that is not the first. -/
theorem linkBefore_puts {m : N} (h : Shows s (as ++ m :: bs)) (hn : n ∉ as ++ m :: bs)
    (hfirst : as ≠ []) (hexist : (s.nodes n).isSome) :
    ∃ s', s.linkBefore (some n) (some m) = .ok s' ∧ Puts s s' (last as) n := by
  rcases List.eq_nil_or_concat as with rfl | ⟨as, k, rfl⟩
  · exact absurd rfl hfirst
  · rw [List.concat_eq_append] at h hn ⊢
    have hlast : last (as ++ [k]) = some k := exit_concat ..
    have hk : k ∈ as ++ [k] ++ m :: bs :=
      List.mem_append_left _ (List.mem_append_right _ (List.mem_singleton_self k))
    have hm : m ∈ as ++ [k] ++ m :: bs := List.mem_append_right _ List.mem_cons_self
    have hmn : m ≠ n := fun heq => hn (heq ▸ hm)
    have hslot : s.links.slot (some k) = some m := by
      rw [← hlast]
      exact h.linked.slot_exit
    have hback : s.links.back m = some k := h.linked.back_eq.trans hlast
    obtain ⟨before, hload, -, hbefore⟩ := load_spec (h.exist m hm)
    obtain ⟨s₁, hprev₁, hkeeps₁, -, htail₁, hlinks₁⟩ := setPrev_spec hexist (some k)
    have hn₁ : (s₁.nodes n).isSome := (hkeeps₁.isSome n).trans hexist
    obtain ⟨s₂, hnext₂, hkeeps₂, -, htail₂, hlinks₂⟩ := setNext_spec hn₁ (some m)
    have hkeeps := hkeeps₁.trans hkeeps₂
    have hm₂ : (s₂.nodes m).isSome := (hkeeps.isSome m).trans (h.exist m hm)
    obtain ⟨before₂, hload₂, -, hbefore₂⟩ := load_spec hm₂
    have hback₂ : s₂.links.back m = some k := by
      rw [hlinks₂, hlinks₁]
      exact (Function.update_of_ne hmn ..).trans hback
    have hk₂ : (s₂.nodes k).isSome := (hkeeps.isSome k).trans (h.exist k hk)
    obtain ⟨s₃, hnext₃, hkeeps₃, -, htail₃, hlinks₃⟩ := setNext_spec hk₂ (some n)
    have hm₃ : (s₃.nodes m).isSome := (hkeeps₃.isSome m).trans hm₂
    obtain ⟨s₄, hprev₄, hkeeps₄, -, htail₄, hlinks₄⟩ := setPrev_spec hm₃ (some n)
    rw [hlast]
    refine ⟨s₄, ?_, ?_, fun b => ?_, ?_, hkeeps.trans (hkeeps₃.trans hkeeps₄)⟩
    · rw [linkBefore, hload, ok_bind, hbefore, hback, hprev₁, ok_bind, hnext₂, ok_bind, hload₂,
        ok_bind, hbefore₂, hback₂, hnext₃, ok_bind, hprev₄]
    · rw [hlinks₄, hlinks₃, hlinks₂, hlinks₁, hslot]
    · rw [hlinks₄, hlinks₃, hlinks₂, hlinks₁, hslot]
      show Function.update (Function.update s.links.back n (some k)) m (some n) b = _
      rw [Function.update_apply, Function.update_apply]
      by_cases hbm : b = m
      · rw [if_pos hbm, hbm, if_neg hmn, if_pos rfl]
      · rw [if_neg hbm]
        by_cases hbn : b = n
        · rw [if_pos hbn, if_pos hbn]
        · rw [if_neg hbn, if_neg hbn, if_neg fun heq => hbm (Option.some.inj heq).symm]
    · rw [hslot, if_neg (Option.some_ne_none m), htail₄, htail₃, htail₂, htail₁]

/-! ## Removing a node -/

/-- What `bypass` does to the links; those of the node stay. -/
structure Bypasses (s s' : DoubleLinkedList E N) (n : N) : Prop where
  slot : s'.links.slot = Function.update s.links.slot (s.links.back n) (s.links.slot (some n))
  back : ∀ a, s'.links.back a =
    if s.links.slot (some n) = some a then s.links.back n else s.links.back a
  tail : s'.tailNode = if s.links.slot (some n) = none then s.links.back n else s.tailNode
  keeps : Keeps s s'

omit [DecidableEq N] in
/-- The head is the first node. -/
theorem Shows.headNode_eq (h : Shows s as) : s.headNode = as.head? := by
  cases as with
  | nil => exact h.linked
  | cons a as => exact h.linked.1

section Inside
omit [DecidableEq N]
variable (h : Shows s (as ++ n :: bs))
include h

theorem Shows.notMem_rest : n ∉ as ∧ n ∉ bs := by
  have hrest : n ∉ as ++ bs := (List.nodup_middle.mp h.nodup).notMem
  rwa [List.mem_append, not_or] at hrest

theorem Shows.isSome_inside : (s.nodes n).isSome :=
  h.exist n (List.mem_append_right _ List.mem_cons_self)

theorem Shows.headNode_ne (hfirst : as ≠ []) : s.headNode ≠ some n := by
  cases as with
  | nil => exact absurd rfl hfirst
  | cons a as =>
      rw [h.headNode_eq, List.cons_append, List.head?_cons]
      intro heq
      cases heq
      exact h.notMem_rest.1 List.mem_cons_self

theorem Shows.tailNode_ne (hlast : bs ≠ []) : s.tailNode ≠ some n := by
  cases bs with
  | nil => exact absurd rfl hlast
  | cons b bs =>
      rw [h.tail, last_append_cons]
      exact last_ne_of_notMem h.notMem_rest.2

end Inside

theorem bypass_head {b : N} (h : Shows s (n :: b :: bs)) :
    ∃ s', s.bypass (some n) = .ok s' ∧ Bypasses s s' n := by
  have hhead : s.headNode = some n := h.linked.1
  have hslot : s.links.slot (some n) = some b := h.linked.2.2.1
  have hback : s.links.back n = none := h.linked.2.1
  obtain ⟨node, hload, hnext, -⟩ := load_spec (h.exist n List.mem_cons_self)
  have hb : (s.nodes b).isSome := h.exist b (List.mem_cons_of_mem _ List.mem_cons_self)
  have hlinks := @links_of_nodes _ _ _ s { s with headNode := some b } rfl
  obtain ⟨s', hprev, hkeeps, -, htail, hlinks'⟩ :=
    @setPrev_spec _ _ _ { s with headNode := some b } _ hb none
  rw [hlinks] at hlinks'
  have hkeeps₀ : Keeps s { s with headNode := some b } := keeps_of_nodes rfl rfl
  refine ⟨s', ?_, ?_, fun a => ?_, ?_, hkeeps₀.trans hkeeps⟩
  · rw [bypass, if_pos hhead.symm, hhead, hload, ok_bind, hnext, hslot, hprev]
  · rw [hlinks', hback, hslot]
  · rw [hlinks', hslot, hback]
    show Function.update s.links.back b none a = _
    rw [Function.update_apply]
    by_cases hab : a = b
    · rw [if_pos hab, hab, if_pos rfl]
    · rw [if_neg hab, if_neg fun heq => hab (Option.some.inj heq).symm]
  · rw [hslot, if_neg (Option.some_ne_none b)]
    exact htail

theorem bypass_tail {k : N} (h : Shows s (as ++ [k] ++ [n])) :
    ∃ s', s.bypass (some n) = .ok s' ∧ Bypasses s s' n := by
  have hlast : last (as ++ [k]) = some k := exit_concat ..
  have hhead : s.headNode ≠ some n := h.headNode_ne (List.concat_ne_nil k as)
  have htail : s.tailNode = some n := h.tail.trans (exit_concat ..)
  have hslot : s.links.slot (some n) = none := h.linked.slot_next
  have hback : s.links.back n = some k := h.linked.back_eq.trans hlast
  obtain ⟨node, hload, -, hprev⟩ := load_spec h.isSome_inside
  have hk : (s.nodes k).isSome :=
    h.exist k (List.mem_append_left _ (List.mem_append_right _ (List.mem_singleton_self k)))
  obtain ⟨s', hnext, hkeeps, -, htail', hlinks'⟩ :=
    @setNext_spec _ _ _ { s with tailNode := some k } _ hk none
  have hlinks : ({ s with tailNode := some k } : DoubleLinkedList E N).links = s.links := rfl
  rw [hlinks] at hlinks'
  have hkeeps₀ : Keeps s { s with tailNode := some k } := keeps_of_nodes rfl rfl
  refine ⟨s', ?_, ?_, fun a => ?_, ?_, hkeeps₀.trans hkeeps⟩
  · rw [bypass, if_neg hhead.symm, if_pos htail.symm, htail, hload, ok_bind, hprev, hback, hnext]
  · rw [hlinks', hback, hslot]
  · rw [hlinks', hslot, if_neg (Option.some_ne_none a).symm]
  · rw [hslot, if_pos rfl, hback]
    exact htail'

theorem bypass_between {k b : N} (h : Shows s (as ++ [k] ++ n :: b :: bs)) :
    ∃ s', s.bypass (some n) = .ok s' ∧ Bypasses s s' n := by
  have hlast : last (as ++ [k]) = some k := exit_concat ..
  have hhead : s.headNode ≠ some n := h.headNode_ne (List.concat_ne_nil k as)
  have htail : s.tailNode ≠ some n := h.tailNode_ne (List.cons_ne_nil b bs)
  have hslot : s.links.slot (some n) = some b := h.linked.slot_next
  have hback : s.links.back n = some k := h.linked.back_eq.trans hlast
  have hnb : n ≠ b := fun heq => h.notMem_rest.2 (heq ▸ List.mem_cons_self)
  obtain ⟨node, hload, hnext, hprev⟩ := load_spec h.isSome_inside
  have hb : (s.nodes b).isSome :=
    h.exist b (List.mem_append_right _ (List.mem_cons_of_mem _ List.mem_cons_self))
  obtain ⟨s₁, hprev₁, hkeeps₁, -, htail₁, hlinks₁⟩ := setPrev_spec hb (some k)
  obtain ⟨node₁, hload₁, hnext₁, hback₁⟩ :=
    load_spec ((hkeeps₁.isSome n).trans h.isSome_inside)
  have hslot₁ : s₁.links.slot (some n) = some b := by rw [hlinks₁, hslot]
  have hprev' : s₁.links.back n = some k := by
    rw [hlinks₁]
    exact (Function.update_of_ne hnb ..).trans hback
  have hk : (s.nodes k).isSome :=
    h.exist k (List.mem_append_left _ (List.mem_append_right _ (List.mem_singleton_self k)))
  obtain ⟨s₂, hnext₂, hkeeps₂, -, htail₂, hlinks₂⟩ :=
    setNext_spec ((hkeeps₁.isSome k).trans hk) (some b)
  refine ⟨s₂, ?_, ?_, fun a => ?_, ?_, hkeeps₁.trans hkeeps₂⟩
  · rw [bypass, if_neg hhead.symm, if_neg htail.symm, hload, ok_bind, hnext, hslot, hprev, hback,
      hprev₁, ok_bind, hload₁, ok_bind, hback₁, hprev', hnext₁, hslot₁, hnext₂]
  · rw [hlinks₂, hlinks₁, hback, hslot]
  · rw [hlinks₂, hlinks₁, hslot, hback]
    show Function.update s.links.back b (some k) a = _
    rw [Function.update_apply]
    by_cases hab : a = b
    · rw [if_pos hab, hab, if_pos rfl]
    · rw [if_neg hab, if_neg fun heq => hab (Option.some.inj heq).symm]
  · rw [hslot, if_neg (Option.some_ne_none b), htail₂, htail₁]

theorem bypass_spec (h : Shows s (as ++ n :: bs)) (hmore : as ++ bs ≠ []) :
    ∃ s', s.bypass (some n) = .ok s' ∧ Bypasses s s' n := by
  rcases List.eq_nil_or_concat as with rfl | ⟨as, k, rfl⟩
  · cases bs with
    | nil => exact absurd rfl hmore
    | cons b bs => exact bypass_head h
  · rw [List.concat_eq_append] at h
    cases bs with
    | nil => exact bypass_tail h
    | cons b bs => exact bypass_between h

/-- `delete n` -/
theorem deleteNode_spec (hn : (s.nodes n).isSome) :
    s.deleteNode (some n) = .ok (s.setNode n none) := by
  obtain ⟨node, hnode⟩ := Option.isSome_iff_exists.mp hn
  simp only [deleteNode, Option.bind_some, hnode]

/-- The node is deleted, or left with null links. -/
theorem dispose_takes {s₁ : DoubleLinkedList E N} (hbypass : Bypasses s s₁ n)
    (hexist : (s.nodes n).isSome) (shouldDeleteNode : Bool) :
    ∃ s', s₁.dispose (some n) shouldDeleteNode = .ok s' ∧ Takes s s' n ∧ s'.size = s.size := by
  have hn₁ : (s₁.nodes n).isSome := (hbypass.keeps.isSome n).trans hexist
  cases shouldDeleteNode with
  | true =>
      have hlinks := @links_setNode _ _ _ s₁ n none
      refine ⟨s₁.setNode n none, ?_, ⟨?_, fun a => ?_, hbypass.tail, fun a ha => ?_⟩,
        hbypass.keeps.size⟩
      · rw [dispose, if_pos rfl, deleteNode_spec hn₁]
      · rw [hlinks, hbypass.slot]
        rfl
      · rw [hlinks, ← hbypass.back]
        exact Function.update_apply ..
      · refine Eq.trans ?_ (hbypass.keeps.isSome a)
        exact congrArg Option.isSome (Function.update_of_ne ha ..)
  | false =>
      obtain ⟨s₂, hprev, hkeeps₂, -, htail₂, hlinks₂⟩ := setPrev_spec hn₁ none
      obtain ⟨s₃, hnext, hkeeps₃, -, htail₃, hlinks₃⟩ :=
        setNext_spec ((hkeeps₂.isSome n).trans hn₁) none
      have hkeeps := hbypass.keeps.trans (hkeeps₂.trans hkeeps₃)
      refine ⟨s₃, ?_, ⟨?_, fun a => ?_, ?_, fun a _ => hkeeps.isSome a⟩, hkeeps.size⟩
      · rw [dispose, if_neg Bool.false_ne_true, detach, hprev, ok_bind, hnext]
      · rw [hlinks₃, hlinks₂, hbypass.slot]
      · rw [hlinks₃, hlinks₂, ← hbypass.back]
        exact Function.update_apply ..
      · rw [htail₃, htail₂, hbypass.tail]

/-! ## Following the pointers -/

omit [DecidableEq N] in
theorem Shows.follows (h : Shows s as) :
    Follows (fun a => s.links.slot (some a)) s.headNode as := h.linked.follows

omit [DecidableEq N] in
theorem Shows.follows_back (h : Shows s as) : Follows s.links.back s.tailNode as.reverse := by
  rw [h.tail]
  exact @Linked.follows_back _ _ some none as id s.links (fun _ => rfl) h.linked rfl

/-- `clear` deletes what it meets. -/
theorem clearLoop_spec {rounds : Nat} (hrounds : as.length < rounds) (hnodup : as.Nodup)
    (hexist : ∀ a ∈ as, (s.nodes a).isSome)
    (h : Follows (fun a => s.links.slot (some a)) s.headNode as) :
    ∃ s', s.clearLoop rounds = .ok s' ∧ s'.headNode = none ∧
      ∀ a, s'.nodes a = if a ∈ as then none else s.nodes a := by
  induction as generalizing rounds s with
  | nil =>
      cases rounds with
      | zero => exact absurd hrounds (Nat.not_lt_zero _)
      | succ rounds =>
          refine ⟨s, if_neg fun hne => hne h, h, fun a => ?_⟩
          rw [if_neg List.not_mem_nil]
  | cons a as ih =>
      cases rounds with
      | zero => exact absurd hrounds (Nat.not_lt_zero _)
      | succ rounds =>
          obtain ⟨hhead, hrest⟩ := h
          obtain ⟨hfresh, hnodup⟩ := List.nodup_cons.mp hnodup
          have ha := hexist a List.mem_cons_self
          obtain ⟨head, hload, hnext, -⟩ := load_spec ha
          have hother : ∀ b ∈ as, (s.setNode a none).nodes b = s.nodes b := by
            intro b hb
            have hne : b ≠ a := fun heq => hfresh (heq ▸ hb)
            exact Function.update_of_ne hne ..
          obtain ⟨s', hloop, hhead', hnodes⟩ :=
            @ih { s.setNode a none with headNode := head.next } rounds
              (Nat.lt_of_succ_lt_succ hrounds) hnodup
              (fun b hb => (congrArg Option.isSome (hother b hb)).trans
                (hexist b (List.mem_cons_of_mem _ hb)))
              (by
                rw [hnext]
                exact hrest.congr fun b hb => congrArg (Option.bind · Node.next) (hother b hb))
          refine ⟨s', ?_, hhead', fun b => ?_⟩
          · have hne : s.headNode ≠ none := fun hnone => by
              rw [hhead] at hnone
              cases hnone
            rw [clearLoop, if_pos hne, hhead, hload, ok_bind, deleteNode_spec ha, ok_bind, hloop]
          · rw [hnodes]
            by_cases hb : b ∈ as
            · rw [if_pos hb, if_pos (List.mem_cons_of_mem _ hb)]
            · rw [if_neg hb]
              by_cases hba : b = a
              · rw [hba, if_pos List.mem_cons_self]
                exact Function.update_self ..
              · rw [if_neg fun hmem => (List.mem_cons.mp hmem).elim hba hb]
                exact Function.update_of_ne hba ..

omit [DecidableEq N] in
/-- No node is linked, in a list with no nodes. -/
theorem shows_nil (hhead : s.headNode = none) (htail : s.tailNode = none) (hsize : s.size = 0)
    (hfree : ∀ a, s.links.slot (some a) = none ∧ s.links.back a = none) : Shows s [] :=
  ⟨hhead, htail, hsize, List.nodup_nil, fun _ ha => absurd ha List.not_mem_nil,
    fun a _ => hfree a⟩

theorem clear_spec (h : Shows s as) : ∃ s', s.clear = .ok s' ∧ Shows s' [] := by
  have hrounds : as.length < s.size.toNat + 1 := by
    rw [h.size, Int.toNat_natCast]
    exact Nat.lt_succ_self _
  obtain ⟨s₁, hloop, -, hnodes⟩ := clearLoop_spec hrounds h.nodup h.exist h.follows
  refine ⟨{ s₁ with headNode := none, tailNode := none, size := 0 }, ?_,
    shows_nil rfl rfl rfl fun a => ?_⟩
  · rw [clear, hloop]
    rfl
  · show (s₁.nodes a).bind Node.next = none ∧ (s₁.nodes a).bind Node.prev = none
    rw [hnodes]
    by_cases ha : a ∈ as
    · rw [if_pos ha]
      exact ⟨rfl, rfl⟩
    · rw [if_neg ha]
      exact h.free a ha

/-- The only node is taken out. -/
theorem erase_only (h : Shows s [n]) (shouldDeleteNode : Bool) :
    ∃ s', s.erase (some n) shouldDeleteNode = .ok s' ∧ Shows s' [] := by
  have hsize : s.size = 1 := h.size
  have hhead : s.headNode = some n := h.headNode_eq
  have hne : ¬ some n ≠ s.headNode := fun hne => hne hhead.symm
  have herase : s.erase (some n) shouldDeleteNode = if shouldDeleteNode then s.clear else
      (do
        let s ← s.detach (some n)
        .ok { s with headNode := none, tailNode := none, size := 0 }) := by
    rw [erase, if_neg (Option.some_ne_none n), if_pos hsize, if_neg hne]
  rw [herase]
  cases shouldDeleteNode with
  | true => exact clear_spec h
  | false =>
      obtain ⟨s₁, hprev, hkeeps₁, -, -, hlinks₁⟩ :=
        setPrev_spec (h.exist n List.mem_cons_self) none
      obtain ⟨s₂, hnext, -, -, -, hlinks₂⟩ :=
        setNext_spec ((hkeeps₁.isSome n).trans (h.exist n List.mem_cons_self)) none
      refine ⟨{ s₂ with headNode := none, tailNode := none, size := 0 }, ?_,
        shows_nil rfl rfl rfl fun a => ?_⟩
      · rw [if_neg Bool.false_ne_true, detach, hprev, ok_bind, hnext]
        rfl
      · have hlinks₃ := @links_of_nodes _ _ _ s₂
          { s₂ with headNode := none, tailNode := none, size := 0 } rfl
        rw [hlinks₃, hlinks₂, hlinks₁]
        show Function.update (Function.update s.links.slot (some n) none) none none (some a)
          = none ∧ Function.update s.links.back n none a = none
        rw [Function.update_of_ne (Option.some_ne_none a)]
        by_cases ha : a = n
        · rw [ha, Function.update_self, Function.update_self]
          exact ⟨rfl, rfl⟩
        · rw [Function.update_of_ne fun heq => ha (Option.some.inj heq), Function.update_of_ne ha]
          exact h.free a fun hmem => ha (List.mem_singleton.mp hmem)

/-- `erase(Node *, bool)` -/
theorem erase_spec (h : Shows s (as ++ n :: bs)) (shouldDeleteNode : Bool) :
    ∃ s', s.erase (some n) shouldDeleteNode = .ok s' ∧ Shows s' (as ++ bs) := by
  by_cases hmore : as ++ bs = []
  · obtain ⟨rfl, rfl⟩ := List.append_eq_nil_iff.mp hmore
    exact erase_only h shouldDeleteNode
  · have hlength : (as ++ n :: bs).length = (as ++ bs).length + 1 := List.perm_middle.length_eq
    have hpos : 0 < (as ++ bs).length := List.length_pos_iff.mpr hmore
    have hsize : s.size = (as ++ bs).length + 1 := by
      rw [h.size, hlength]
      rfl
    obtain ⟨s₁, hbypass, hbypasses⟩ := bypass_spec h hmore
    obtain ⟨s₂, hdispose, htakes, hsize₂⟩ :=
      dispose_takes hbypasses h.isSome_inside shouldDeleteNode
    refine ⟨{ s₂ with size := s₂.size - 1 }, ?_, Takes.shows h htakes (by rw [hsize₂])⟩
    have hone : s.size ≠ 1 := by omega
    have hbound : -2 ^ 31 ≤ s₂.size - 1 := by omega
    rw [erase, if_neg (Option.some_ne_none n), if_neg hone, hbypass, ok_bind, hdispose, ok_bind,
      decSize, if_pos hbound]

/-! ## Finding -/

section Find
omit [DecidableEq N]
variable [BEq E]

/-- Whether a node holds the element is what the loop tests. -/
theorem load_holds (hn : (s.nodes n).isSome) (element : E) :
    ∃ node, s.load (some n) = .ok node ∧ node.next = s.links.slot (some n) ∧
      (node.value == element) = s.holds element n := by
  obtain ⟨node, hnode⟩ := Option.isSome_iff_exists.mp hn
  refine ⟨node, ?_, (links_of_node hnode).1.symm, ?_⟩
  · simp only [load, Option.bind_some, hnode]
  · simp only [holds, hnode]

theorem findLoop_spec (element : E) {rounds : Nat} (hrounds : as.length < rounds) {p : Option N}
    (hexist : ∀ a ∈ as, (s.nodes a).isSome)
    (h : Follows (fun a => s.links.slot (some a)) p as) :
    s.findLoop element rounds p = .ok (as.find? (s.holds element)) := by
  induction as generalizing rounds p with
  | nil =>
      cases rounds with
      | zero => exact absurd hrounds (Nat.not_lt_zero _)
      | succ rounds =>
          have hp : p = none := h
          rw [findLoop, if_neg fun hne => hne hp, hp]
          rfl
  | cons a as ih =>
      cases rounds with
      | zero => exact absurd hrounds (Nat.not_lt_zero _)
      | succ rounds =>
          obtain ⟨hp, hrest⟩ := h
          obtain ⟨node, hload, hnext, hholds⟩ := load_holds (hexist a List.mem_cons_self) element
          have hrounds' := Nat.lt_of_succ_lt_succ hrounds
          rw [findLoop, if_pos (hp ▸ Option.some_ne_none a), hp, hload, ok_bind, hholds,
            List.find?_cons, hnext]
          cases s.holds element a with
          | true => rfl
          | false => exact ih hrounds' (fun b hb => hexist b (List.mem_cons_of_mem _ hb)) hrest

theorem findNode_spec (h : Shows s as) (element : E) :
    s.findNode element = .ok (as.find? (s.holds element)) := by
  refine findLoop_spec element ?_ h.exist h.follows
  rw [h.size, Int.toNat_natCast]
  exact Nat.lt_succ_self _

end Find

theorem eraseElement_spec [BEq E] (h : Shows s as) (element : E) :
    ∃ s', s.eraseElement element = .ok s' ∧ Shows s' (as.eraseP (s.holds element)) := by
  rw [eraseElement, findNode_spec h, ok_bind]
  cases hfind : as.find? (s.holds element) with
  | none =>
      have hnone : ∀ a ∈ as, ¬ s.holds element a := List.find?_eq_none.mp hfind
      refine ⟨s, if_pos rfl, ?_⟩
      rw [List.eraseP_of_forall_not hnone]
      exact h
  | some n =>
      obtain ⟨hn, as₁, as₂, rfl, hfirst⟩ := List.find?_eq_some_iff_append.mp hfind
      have hskip : ∀ a ∈ as₁, ¬ s.holds element a := by
        intro a ha
        have hfalse := hfirst a ha
        rw [Bool.not_eq_true'] at hfalse
        rw [hfalse]
        exact Bool.false_ne_true
      rw [List.eraseP_append_right _ hskip, List.eraseP_cons_of_pos hn]
      exact erase_spec h true

/-! ## Counting -/

/-- What an addition returns: the list with the node, if its size can be counted. -/
def Adds (s : DoubleLinkedList E N) (result : Except Fault (DoubleLinkedList E N × Bool))
    (as : List N) : Prop :=
  if as.length < 2 ^ 31 then ∃ s', result = .ok (s', true) ∧ Shows s' as ∧
    ∀ a, (s'.nodes a).map Node.value = (s.nodes a).map Node.value
  else result = .error .undefinedArithmetic

/-- `setListSize(_size + 1)`, once the node is linked. -/
theorem Puts.adds (h : Shows s (as ++ bs)) (hn : n ∉ as ++ bs) (hexist : (s.nodes n).isSome)
    (hputs : Puts s s' (last as) n) :
    Adds s (do let s ← s'.incSize; .ok (s, true)) (as ++ n :: bs) := by
  have hsize : s'.size = s.size := hputs.keeps.size
  have hlength : (as ++ n :: bs).length = (as ++ bs).length + 1 := List.perm_middle.length_eq
  have hcount := h.size
  rw [Adds]
  split
  next hfits =>
    have hfits' : s'.size + 1 < 2 ^ 31 := by omega
    refine ⟨{ s' with size := s'.size + 1 }, ?_, Puts.shows h hn hputs hexist (by rw [hsize]),
      hputs.keeps.values⟩
    rw [incSize, if_pos hfits']
    rfl
  next hfull =>
    have hfull' : ¬ s'.size + 1 < 2 ^ 31 := by omega
    rw [incSize, if_neg hfull']
    rfl

section Addition
variable (h : Shows s as) (hn : n ∉ as) (hexist : (s.nodes n).isSome)
include h hn hexist

theorem pushFront_adds : Adds s (s.pushFront (some n)) (n :: as) := by
  obtain ⟨s', hlink, hputs⟩ := linkFront_puts h hn hexist
  rw [pushFront, if_neg (Option.some_ne_none n), hlink, ok_bind]
  exact @Puts.adds _ _ _ _ s' [] as n h hn hexist hputs

theorem addObject_adds : Adds s (s.addObject (some n)) (as ++ [n]) := by
  obtain ⟨s', hlink, hputs⟩ := linkBack_puts h hn hexist
  rw [addObject, if_neg (Option.some_ne_none n), hlink, ok_bind]
  rw [← List.append_nil as] at h hn
  exact Puts.adds h hn hexist hputs

end Addition

omit [DecidableEq N] in
theorem insertBefore_append [DecidableEq N] {m : N} (h : m ∉ as) :
    insertBefore m n (as ++ m :: bs) = as ++ n :: m :: bs := by
  induction as with
  | nil => exact if_pos rfl
  | cons a as ih =>
      have hne : a ≠ m := fun heq => h (heq ▸ List.mem_cons_self)
      rw [List.cons_append, insertBefore, if_neg hne,
        ih fun hmem => h (List.mem_cons_of_mem _ hmem)]
      rfl

theorem insert_adds {m : N} (h : Shows s as) (hn : n ∉ as) (hexist : (s.nodes n).isSome)
    (hm : m ∈ as) : Adds s (s.insert (some n) (some m)) (insertBefore m n as) := by
  obtain ⟨as, bs, rfl⟩ := List.append_of_mem hm
  rw [insertBefore_append h.notMem_rest.1, insert, if_neg (Option.some_ne_none n)]
  by_cases hfirst : as = []
  · subst hfirst
    have hhead : s.headNode = some m := h.headNode_eq
    rw [if_pos (Or.inr hhead.symm)]
    exact pushFront_adds h hn hexist
  · have hhead : ¬ (some m = none ∨ some m = s.headNode) := by
      rintro (hnone | heq)
      · cases hnone
      · exact h.headNode_ne hfirst heq.symm
    obtain ⟨s', hlink, hputs⟩ := linkBefore_puts h hn hfirst hexist
    rw [if_neg hhead, hlink, ok_bind]
    exact Puts.adds h hn hexist hputs

/-! ## Every run -/

/-- A node that is not in the list comes to exist, or no longer does. -/
theorem Shows.setNode (h : Shows s as) (hn : n ∉ as) {node : Option (Node E N)}
    (hnext : node.bind Node.next = none) (hprev : node.bind Node.prev = none) :
    Shows (s.setNode n node) as := by
  obtain ⟨hslot, hback⟩ := h.free n hn
  have hlinks : (s.setNode n node).links = s.links := by
    rw [links_setNode, hnext, hprev, ← hslot, Function.update_eq_self, hslot, ← hback,
      Function.update_eq_self]
  refine ⟨hlinks ▸ h.linked, h.tail, h.size, h.nodup, fun a ha => ?_, hlinks ▸ h.free⟩
  have hne : a ≠ n := fun heq => hn (heq ▸ ha)
  exact (congrArg Option.isSome (Function.update_of_ne hne ..)).trans (h.exist a ha)

/-- What a call comes to: a list shown, if its size can be counted. -/
def Gives (result : Except Fault (DoubleLinkedList E N)) (as : List N) : Prop :=
  if as.length < 2 ^ 31 then ∃ s', result = .ok s' ∧ Shows s' as
  else result = .error .undefinedArithmetic

omit [DecidableEq N] in
theorem Gives.intro {result : Except Fault (DoubleLinkedList E N)} (hsize : as.length < 2 ^ 31)
    (h : ∃ s', result = .ok s' ∧ Shows s' as) : Gives result as := by
  rw [Gives, if_pos hsize]
  exact h

omit [DecidableEq N] in
theorem Adds.gives {result : Except Fault (DoubleLinkedList E N × Bool)} (h : Adds s result as) :
    Gives (do .ok (← result).1) as := by
  rw [Adds] at h
  rw [Gives]
  split at h
  next hfits =>
    obtain ⟨s', rfl, hshows, -⟩ := h
    rw [if_pos hfits]
    exact ⟨s', rfl, hshows⟩
  next hfull =>
    rw [if_neg hfull, h]
    rfl

section System
variable [BEq E] {σ : System E N}

theorem call_gives (h : Shows σ.list σ.sequence) (hsize : σ.sequence.length < 2 ^ 31)
    {a : Action E N} (hen : σ.enabled a) : Gives (σ.call a) (σ.meant a) := by
  cases a with
  | new n value =>
      have hn : n ∉ σ.sequence := by
        intro hmem
        have hexist := h.exist n hmem
        rw [show σ.list.nodes n = none from hen] at hexist
        cases hexist
      exact .intro hsize ⟨_, rfl, h.setNode hn rfl rfl⟩
  | delete n =>
      obtain ⟨hexist, hn⟩ := hen n rfl
      exact .intro hsize ⟨_, deleteNode_spec hexist, h.setNode hn rfl rfl⟩
  | pushFront newNode =>
      cases newNode with
      | none => exact .intro hsize ⟨_, rfl, h⟩
      | some n =>
          obtain ⟨hexist, hn⟩ := hen n rfl
          exact (pushFront_adds h hn hexist).gives
  | addObject newNode =>
      cases newNode with
      | none =>
          show Gives _ (σ.sequence ++ [])
          rw [List.append_nil]
          exact .intro hsize ⟨_, rfl, h⟩
      | some n =>
          obtain ⟨hexist, hn⟩ := hen n rfl
          exact (addObject_adds h hn hexist).gives
  | insert newNode nodeToInsertBefore =>
      obtain ⟨hadd, hlisted⟩ := hen
      cases newNode with
      | none => exact .intro hsize ⟨_, rfl, h⟩
      | some n =>
          obtain ⟨hexist, hn⟩ := hadd n rfl
          cases nodeToInsertBefore with
          | none => exact (pushFront_adds h hn hexist).gives
          | some m => exact (insert_adds h hn hexist (hlisted m rfl)).gives
  | erase nodeToRemove shouldDeleteNode =>
      cases nodeToRemove with
      | none => exact .intro hsize ⟨_, rfl, h⟩
      | some n =>
          refine .intro (Nat.lt_of_le_of_lt List.length_erase_le hsize) ?_
          obtain ⟨as, bs, hsplit⟩ := List.append_of_mem (hen n rfl)
          rw [hsplit] at h
          have herase := erase_spec h shouldDeleteNode
          rwa [← List.erase_cons_head n bs, ← List.erase_append_right _ h.notMem_rest.1,
            ← hsplit] at herase
  | eraseElement element =>
      refine .intro (Nat.lt_of_le_of_lt List.length_eraseP_le hsize) ?_
      exact eraseElement_spec h element
  | clear => exact .intro (Nat.two_pow_pos 31) (clear_spec h)

/-- What holds after every call. -/
structure System.Sound (σ : System E N) : Prop where
  shows : Shows σ.list σ.sequence
  size : σ.sequence.length < 2 ^ 31

omit [BEq E] [DecidableEq N] in
theorem sound_start : (⟨⟨fun _ => none, none, none, 0⟩, []⟩ : System E N).Sound where
  shows := shows_nil rfl rfl rfl fun _ => ⟨rfl, rfl⟩
  size := Nat.two_pow_pos 31

/-- A call that is counted keeps the list sound, and no other comes to an end. -/
theorem System.Sound.step (h : σ.Sound) {a : Action E N} (hen : σ.enabled a) :
    if (σ.meant a).length < 2 ^ 31 then
      ∃ list, σ.step a = .ok ⟨list, σ.meant a⟩ ∧ System.Sound ⟨list, σ.meant a⟩
    else σ.step a = .error .undefinedArithmetic := by
  have hgives := call_gives h.shows h.size hen
  rw [Gives] at hgives
  rw [System.step]
  split at hgives
  next hfits =>
    obtain ⟨list, hcall, hshows⟩ := hgives
    rw [if_pos hfits, hcall]
    exact ⟨list, rfl, hshows, hfits⟩
  next hfull =>
    rw [if_neg hfull, hgives]
    rfl

theorem sound_of_reachable (h : (machine E N).Reachable σ) : σ.Sound := by
  refine h.invariant sound_start fun σ a σ' hσ hen hstep => ?_
  have hnext := hσ.step hen
  rw [show σ.step a = .ok σ' from hstep] at hnext
  split at hnext
  next =>
    obtain ⟨list, heq, hsound⟩ := hnext
    cases heq
    exact hsound
  next => cases hnext

/-- After every sequence of calls the nodes met from the head by `_next` are those that are
meant, those met from the tail by `_prev` are the same in reverse, head and tail are null
exactly if there are none, and `_size` counts them; and a call does not come to an end exactly
if the list would have more nodes than an `int32_t` counts. -/
theorem both_ends_agree (h : (machine E N).Reachable σ) :
    Follows (fun n => (σ.list.nodes n).bind Node.next) σ.list.headNode σ.sequence ∧
    Follows (fun n => (σ.list.nodes n).bind Node.prev) σ.list.tailNode σ.sequence.reverse ∧
    (σ.list.headNode = none ↔ σ.sequence = []) ∧ (σ.list.tailNode = none ↔ σ.sequence = []) ∧
    σ.list.size = σ.sequence.length ∧
    ∀ a, σ.enabled a →
      if (σ.meant a).length < 2 ^ 31 then ∃ list, σ.step a = .ok ⟨list, σ.meant a⟩
      else σ.step a = .error .undefinedArithmetic := by
  have hsound := sound_of_reachable h
  have hshows := hsound.shows
  refine ⟨hshows.follows, hshows.follows_back, ?_, ?_, hshows.size, fun a hen => ?_⟩
  · rw [hshows.headNode_eq, List.head?_eq_none_iff]
  · rw [hshows.tail, last_eq_none_iff]
  · have hstep := hsound.step hen
    split at hstep
    next hfits =>
      obtain ⟨list, hok, -⟩ := hstep
      rw [if_pos hfits]
      exact ⟨list, hok⟩
    next hfull =>
      rw [if_neg hfull]
      exact hstep

end System

/-- A new node can be added. -/
theorem addable_new {σ : System Unit Nat} (h : (machine Unit Nat).Reachable σ) {n : Nat}
    (hnone : σ.list.nodes n = none) : ∃ σ', (machine Unit Nat).Reachable σ' ∧
      σ'.enabled (.pushFront (some n)) ∧ σ'.sequence = σ.sequence ∧
      ∀ m, m ≠ n → σ'.list.nodes m = σ.list.nodes m := by
  have hn : n ∉ σ.sequence := fun hmem => by
    have hexist := (sound_of_reachable h).shows.exist n hmem
    rw [hnone] at hexist
    cases hexist
  refine ⟨⟨σ.list.setNode n (some ⟨(), none, none⟩), σ.sequence⟩,
    h.step (a := .new n ()) hnone rfl, fun m hm => ?_, rfl, fun m hm => ?_⟩
  · cases hm
    exact ⟨congrArg Option.isSome (Function.update_self n _ σ.list.nodes), hn⟩
  · exact Function.update_of_ne hm _ σ.list.nodes

/-- Nodes are put in as long as they are counted. -/
theorem fills (k : Nat) (hk : k < 2 ^ 31) : ∃ σ : System Unit Nat, (machine Unit Nat).Reachable σ ∧
    σ.sequence.length = k ∧ ∀ n, k ≤ n → σ.list.nodes n = none := by
  induction k with
  | zero => exact ⟨_, ⟨[], .start⟩, rfl, fun _ _ => rfl⟩
  | succ k ih =>
      obtain ⟨σ, hreach, hlength, hnone⟩ := ih (Nat.lt_of_succ_lt hk)
      obtain ⟨σ₁, hreach₁, hen, hsequence, hnodes⟩ := addable_new hreach (hnone k (Nat.le_refl k))
      obtain ⟨hexist, hn⟩ := hen k rfl
      have hadds := pushFront_adds (sound_of_reachable hreach₁).shows hn hexist
      have hfits : (k :: σ₁.sequence).length < 2 ^ 31 := by
        rw [List.length_cons, hsequence, hlength]
        exact hk
      rw [Adds, if_pos hfits] at hadds
      obtain ⟨list, hpush, -, hvalues⟩ := hadds
      have hstep : σ₁.step (.pushFront (some k)) = .ok ⟨list, k :: σ₁.sequence⟩ := by
        rw [System.step, System.call, hpush]
        rfl
      refine ⟨⟨list, k :: σ₁.sequence⟩, hreach₁.step (a := .pushFront (some k)) hen hstep, ?_,
        fun n hn => ?_⟩
      · rw [List.length_cons, hsequence, hlength]
      · have hnone' := hvalues n
        rw [hnodes n (Nat.ne_of_gt hn), hnone n (Nat.le_of_succ_le hn)] at hnone'
        exact Option.map_eq_none_iff.mp hnone'

/-- A list of 2³¹ nodes is not counted. -/
theorem not_every_call_counts : ¬ ∀ σ, (machine Unit Nat).Reachable σ → ∀ a, σ.enabled a →
    ∃ σ', σ.step a = .ok σ' ∧ σ'.list.size = σ'.sequence.length := by
  intro hall
  obtain ⟨σ, hreach, hlength, hnone⟩ := fills (2 ^ 31 - 1) (by decide)
  obtain ⟨σ₁, hreach₁, hen, hsequence, -⟩ := addable_new hreach (hnone _ (Nat.le_refl _))
  have hfull : ¬ (σ₁.meant (.pushFront (some (2 ^ 31 - 1)))).length < 2 ^ 31 := by
    show ¬ σ₁.sequence.length + 1 < 2 ^ 31
    rw [hsequence, hlength]
    decide
  have hstep := (sound_of_reachable hreach₁).step hen
  rw [if_neg hfull] at hstep
  obtain ⟨σ', hok, -⟩ := hall σ₁ hreach₁ _ hen
  rw [hstep] at hok
  cases hok

/-- A node is taken out undeleted, and put in again elsewhere. -/
theorem both_ends_agree_two : ∃ σ, (machine Nat Nat).Reachable σ ∧ σ.sequence = [2, 1] ∧
    σ.list.size = 2 ∧
    Follows (fun n => (σ.list.nodes n).bind Node.prev) σ.list.tailNode [1, 2] := by
  have hrun : (machine Nat Nat).Reachable _ := ⟨[.new 1 10, .new 2 20, .new 3 20,
    .pushFront (some 1), .addObject (some 2), .insert (some 3) (some 1), .erase (some 1) false,
    .eraseElement 20, .addObject (some 1)], Machine.run_of_exec rfl⟩
  exact ⟨_, hrun, rfl, rfl, (both_ends_agree hrun).2.1⟩

end DoubleLinkedList

end Rx
