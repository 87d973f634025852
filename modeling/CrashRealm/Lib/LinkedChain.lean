/-
# `Lib.LinkedChain` — lists threaded through memory

A slot holds a node or nothing.  Each node has a slot of its own, `next`, in which
its list goes on, and a back pointer, which tells the slot that holds the node in the
way `tag` writes slots down.  `Linked start as` says that from the slot `start` on
the nodes are `as`, and that their back pointers are right.

`exit start as` is the slot after `as`.  A node is put in there by writing that slot
and the two pointers next to it (`Linked.insert`), and taken out in the same way
(`Linked.erase`).  Everything else is framed: a list is what its own slots and nodes
hold (`Linked.congr`).

`Follows` is what a reader of the pointers sees, forward (`Linked.follows`) and, where
back pointers name nodes, backward (`Linked.follows_back`).
-/
import Mathlib.Data.List.Nodup

universe u v w

namespace LinkedChain

variable {S : Type u} {N : Type v} {B : Type w}

/-- What the slots hold, and the back pointers. -/
structure Links (S : Type u) (N : Type v) (B : Type w) where
  slot : S → Option N
  back : N → B

/-- Following the pointers from here one meets these and then null. -/
def Follows (f : N → Option N) : Option N → List N → Prop
  | p, [] => p = none
  | p, a :: as => p = some a ∧ Follows f (f a) as

theorem Follows.congr {f g : N → Option N} {p : Option N} {as : List N} (h : Follows f p as)
    (heq : ∀ a ∈ as, g a = f a) : Follows g p as := by
  induction as generalizing p with
  | nil => exact h
  | cons a as ih =>
      refine ⟨h.1, ?_⟩
      rw [heq a List.mem_cons_self]
      exact ih h.2 fun b hb => heq b (List.mem_cons_of_mem _ hb)

section Layout
variable (next : N → S) (tag : S → B)

def Linked (m : Links S N B) : S → List N → Prop
  | start, [] => m.slot start = none
  | start, a :: as => m.slot start = some a ∧ m.back a = tag start ∧ Linked m (next a) as

/-- The slot after these. -/
def exit : S → List N → S
  | start, [] => start
  | _, a :: as => exit (next a) as

/-- All slots of a list. -/
def slots (start : S) (as : List N) : List S := start :: as.map next

theorem exit_concat (start : S) (as : List N) (a : N) : exit next start (as ++ [a]) = next a := by
  induction as generalizing start with
  | nil => rfl
  | cons b as ih => exact ih (next b)

theorem exit_mem_slots (start : S) (as bs : List N) :
    exit next start as ∈ slots next start (as ++ bs) := by
  induction as generalizing start with
  | nil => exact List.mem_cons_self
  | cons a as ih => exact List.mem_cons_of_mem _ (ih (next a))

variable {next} {tag} {m m' : Links S N B} {start : S} {as bs : List N} {n : N}

/-! ## Reading -/

theorem Linked.congr (h : Linked next tag m start as)
    (hslot : ∀ x ∈ slots next start as, m'.slot x = m.slot x)
    (hback : ∀ a ∈ as, m'.back a = m.back a) : Linked next tag m' start as := by
  induction as generalizing start with
  | nil => exact (hslot start List.mem_cons_self).trans h
  | cons a as ih =>
      obtain ⟨hstart, htag, hrest⟩ := h
      refine ⟨(hslot start List.mem_cons_self).trans hstart,
        (hback a List.mem_cons_self).trans htag, ih hrest (fun x hx => ?_) fun b hb => ?_⟩
      · exact hslot x (List.mem_cons_of_mem _ hx)
      · exact hback b (List.mem_cons_of_mem _ hb)

/-- The slot after `as` holds what comes next. -/
theorem Linked.slot_exit (h : Linked next tag m start (as ++ bs)) :
    m.slot (exit next start as) = bs.head? := by
  induction as generalizing start with
  | nil =>
      cases bs with
      | nil => exact h
      | cons b bs => exact h.1
  | cons a as ih => exact ih h.2.2

theorem Linked.back_eq (h : Linked next tag m start (as ++ n :: bs)) :
    m.back n = tag (exit next start as) := by
  induction as generalizing start with
  | nil => exact h.2.1
  | cons a as ih => exact ih h.2.2

theorem Linked.slot_next (h : Linked next tag m start (as ++ n :: bs)) :
    m.slot (next n) = bs.head? := by
  rw [List.append_cons] at h
  have hexit := h.slot_exit
  rwa [exit_concat] at hexit

theorem Linked.follows (h : Linked next tag m start as) :
    Follows (fun a => m.slot (next a)) (m.slot start) as := by
  induction as generalizing start with
  | nil => exact h
  | cons a as ih => exact ⟨h.1, ih h.2.2⟩

/-- Backward, where the back pointer of what comes after a node names the node. -/
theorem Linked.follows_back {tag : S → Option N} {m : Links S N (Option N)}
    (htag : ∀ a, tag (next a) = some a) (h : Linked next tag m start as)
    (hstart : tag start = none) :
    Follows m.back (tag (exit next start as)) as.reverse := by
  suffices ∀ rest, Follows m.back (tag start) rest →
      Follows m.back (tag (exit next start as)) (as.reverse ++ rest) by
    have hall := this [] hstart
    rwa [List.append_nil] at hall
  clear hstart
  induction as generalizing start with
  | nil => exact fun rest hrest => hrest
  | cons a as ih =>
      intro rest hrest
      rw [List.reverse_cons, List.append_assoc]
      refine ih h.2.2 (a :: rest) ⟨htag a, ?_⟩
      rw [h.2.1]
      exact hrest

/-! ## Writing -/

/-- The pointers written when `n` is put in after `as`. -/
structure Inserts (next : N → S) (tag : S → B) (m m' : Links S N B) (start : S) (as bs : List N)
    (n : N) : Prop where
  entry : m'.slot (exit next start as) = some n
  onward : m'.slot (next n) = m.slot (exit next start as)
  back : m'.back n = tag (exit next start as)
  follower : ∀ b ∈ bs.head?, m'.back b = tag (next n)
  otherSlots : ∀ x ∈ slots next start (as ++ bs), x ≠ exit next start as → m'.slot x = m.slot x
  otherBacks : ∀ a ∈ as ++ bs, a ∉ bs.head? → m'.back a = m.back a

theorem Linked.insert (h : Linked next tag m start (as ++ bs))
    (hnodup : (slots next start (as ++ bs)).Nodup)
    (hwrite : Inserts next tag m m' start as bs n) :
    Linked next tag m' start (as ++ n :: bs) := by
  induction as generalizing start with
  | nil =>
      refine ⟨hwrite.entry, hwrite.back, ?_⟩
      have hnext : m'.slot (next n) = m.slot start := hwrite.onward
      cases bs with
      | nil => exact hnext.trans h
      | cons b bs =>
          obtain ⟨hstart, -, hrest⟩ := h
          refine ⟨hnext.trans hstart, hwrite.follower b rfl, ?_⟩
          have hfresh := List.nodup_cons.mp hnodup
          refine hrest.congr (fun x hx => ?_) fun a ha => ?_
          · refine hwrite.otherSlots x (List.mem_cons_of_mem _ hx) ?_
            rintro rfl
            exact hfresh.1 hx
          · refine hwrite.otherBacks a (List.mem_cons_of_mem _ ha) ?_
            intro hhead
            cases Option.some.inj hhead
            have hnodes : (b :: bs).Nodup := hfresh.2.of_map
            exact (List.nodup_cons.mp hnodes).1 ha
  | cons a as ih =>
      obtain ⟨hstart, htag, hrest⟩ := h
      obtain ⟨hfresh, hnodup⟩ := List.nodup_cons.mp hnodup
      have hexit := exit_mem_slots next (next a) as bs
      have hne : start ≠ exit next (next a) as := fun heq => hfresh (heq ▸ hexit)
      have hnodes : (a :: (as ++ bs)).Nodup := hnodup.of_map
      refine ⟨(hwrite.otherSlots start List.mem_cons_self hne).trans hstart,
        (hwrite.otherBacks a List.mem_cons_self fun hhead => ?_).trans htag,
        ih hrest hnodup ⟨hwrite.entry, hwrite.onward, hwrite.back, hwrite.follower, ?_, ?_⟩⟩
      · refine (List.nodup_cons.mp hnodes).1 (List.mem_append_right _ ?_)
        exact List.mem_of_mem_head? hhead
      · exact fun x hx => hwrite.otherSlots x (List.mem_cons_of_mem _ hx)
      · exact fun b hb => hwrite.otherBacks b (List.mem_cons_of_mem _ hb)

/-- The pointers written when `n` is taken out. -/
structure Erases (next : N → S) (tag : S → B) (m m' : Links S N B) (start : S) (as bs : List N)
    (n : N) : Prop where
  entry : m'.slot (exit next start as) = m.slot (next n)
  follower : ∀ b ∈ bs.head?, m'.back b = tag (exit next start as)
  otherSlots : ∀ x ∈ slots next start (as ++ bs), x ≠ exit next start as → m'.slot x = m.slot x
  otherBacks : ∀ a ∈ as ++ bs, a ∉ bs.head? → m'.back a = m.back a

theorem Linked.erase (h : Linked next tag m start (as ++ n :: bs))
    (hnodup : (slots next start (as ++ n :: bs)).Nodup)
    (hwrite : Erases next tag m m' start as bs n) :
    Linked next tag m' start (as ++ bs) := by
  induction as generalizing start with
  | nil =>
      obtain ⟨-, -, hrest⟩ := h
      have hentry : m'.slot start = m.slot (next n) := hwrite.entry
      cases bs with
      | nil => exact hentry.trans hrest
      | cons b bs =>
          obtain ⟨hnext, -, hrest⟩ := hrest
          have hfresh := List.nodup_cons.mp hnodup
          have hnodes : (n :: b :: bs).Nodup := hfresh.2.of_map
          refine ⟨hentry.trans hnext, hwrite.follower b rfl,
            hrest.congr (fun x hx => ?_) fun a ha => ?_⟩
          · refine hwrite.otherSlots x (List.mem_cons_of_mem _ hx) ?_
            rintro rfl
            exact hfresh.1 (List.mem_cons_of_mem _ hx)
          · refine hwrite.otherBacks a (List.mem_cons_of_mem _ ha) fun hhead => ?_
            cases Option.some.inj hhead
            exact (List.nodup_cons.mp (List.nodup_cons.mp hnodes).2).1 ha
  | cons a as ih =>
      obtain ⟨hstart, htag, hrest⟩ := h
      obtain ⟨hfresh, hnodup⟩ := List.nodup_cons.mp hnodup
      have hexit := exit_mem_slots next (next a) as (n :: bs)
      have hne : start ≠ exit next (next a) as := fun heq => hfresh (heq ▸ hexit)
      have hnodes : (a :: (as ++ n :: bs)).Nodup := hnodup.of_map
      refine ⟨(hwrite.otherSlots start List.mem_cons_self hne).trans hstart,
        (hwrite.otherBacks a List.mem_cons_self fun hhead => ?_).trans htag,
        ih hrest hnodup ⟨hwrite.entry, hwrite.follower, ?_, ?_⟩⟩
      · refine (List.nodup_cons.mp hnodes).1 (List.mem_append_right _ ?_)
        exact List.mem_cons_of_mem _ (List.mem_of_mem_head? hhead)
      · exact fun x hx => hwrite.otherSlots x (List.mem_cons_of_mem _ hx)
      · exact fun b hb => hwrite.otherBacks b (List.mem_cons_of_mem _ hb)

end Layout

end LinkedChain
