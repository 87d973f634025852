/-
# `RxFoundation.RefPtrSpec` — every count is exact

Whatever a function of `RefPtr` does to the references, it retains what it refers
to now and then releases what it referred to: `settle` is about any such change.
Each operation is one, for a pair of references of which either may be null.
-/
import CrashRealm.RxFoundation.RefPtr

namespace Rx

namespace RefPtr

open Holders

variable {Obj Ref : Type} [DecidableEq Obj] [DecidableEq Ref] {s : System Obj Ref}

/-- The count of an object that exists is the number of references to it, and what is
referred to exists. -/
structure Counted (s : System Obj Ref) : Prop where
  count : ∀ o n, s.objects o = some n → n = s.number o
  exists_of_pos : ∀ o, 0 < s.number o → (s.objects o).isSome

/-- An object is deleted where the number of references to it drops to zero. -/
def Deletes (s s' : System Obj Ref) : Prop :=
  ∀ o, (s.objects o).isSome → (s'.objects o = none ↔ 0 < s.number o ∧ s'.number o = 0)

/-- What an operation does: it returns, counts stay exact, and what is to be deleted is. -/
def Settles (s : System Obj Ref) (r : Except Fault (System Obj Ref)) : Prop :=
  ∃ s', r = .ok s' ∧ Counted s' ∧ Deletes s s'

/-! ## `retain` and `release` -/

/-- Objects change, and no reference does. -/
def System.withObjects (s : System Obj Ref) (objects : Obj → Option Nat) : System Obj Ref :=
  { s with objects }

omit [DecidableEq Obj] [DecidableEq Ref] in
theorem withObjects_congr {objects objects' : Obj → Option Nat}
    (h : ∀ o, objects o = objects' o) : s.withObjects objects = s.withObjects objects' := by
  rw [funext h]

/-- One more for the object retained. -/
def retained (p : Option Obj) (objects : Obj → Option Nat) (o : Obj) : Option Nat :=
  (objects o).map (· + one p o)

/-- One less for the object released, which none is left of at zero. -/
def released (p : Option Obj) (objects : Obj → Option Nat) (o : Obj) : Option Nat :=
  (objects o).bind fun n => if p = some o ∧ n = 1 then none else some (n - one p o)

omit [DecidableEq Ref] in
theorem retain_eq {p : Option Obj} (h : s.Valid p) :
    s.retain p = .ok (s.withObjects (retained p s.objects)) := by
  cases p with
  | none =>
      show Except.ok (s.withObjects s.objects) = _
      refine congrArg Except.ok (withObjects_congr fun o => ?_)
      rw [retained]
      cases s.objects o <;> rfl
  | some a =>
      obtain ⟨n, hn⟩ := Option.isSome_iff_exists.mp (h a rfl)
      simp only [System.retain, hn]
      refine congrArg Except.ok (withObjects_congr fun o => ?_)
      rw [retained]
      by_cases ho : o = a
      · subst ho
        rw [Function.update_self, hn, Option.map_some, one_self]
      · rw [Function.update_of_ne ho, one_of_ne fun h => ho (Option.some.inj h).symm]
        cases s.objects o <;> rfl

omit [DecidableEq Ref] in
theorem release_eq {p : Option Obj} (h : ∀ o ∈ p, ∃ n, s.objects o = some (n + 1)) :
    s.release p = .ok (s.withObjects (released p s.objects)) := by
  cases p with
  | none =>
      show Except.ok (s.withObjects s.objects) = _
      refine congrArg Except.ok (withObjects_congr fun o => ?_)
      rw [released]
      cases s.objects o with
      | none => rfl
      | some n =>
          have hother : ¬ (none = some o ∧ n = 1) := fun h => Option.some_ne_none o h.1.symm
          show some n = if none = some o ∧ n = 1 then none else some n
          rw [if_neg hother]
  | some a =>
      obtain ⟨n, hn⟩ := h a rfl
      simp only [System.release, hn]
      refine congrArg Except.ok (withObjects_congr fun o => ?_)
      rw [released]
      by_cases ho : o = a
      · subst ho
        rw [Function.update_self, hn, Option.bind_some, one_self, Nat.add_sub_cancel]
        simp only [true_and, Nat.add_eq_right]
      · have hne : ¬ some a = some o := fun h => ho (Option.some.inj h).symm
        rw [Function.update_of_ne ho]
        cases s.objects o with
        | none => rfl
        | some m =>
            have hother : ¬ (some a = some o ∧ m = 1) := fun h => hne h.1
            rw [Option.bind_some, if_neg hother, one_of_ne hne, Nat.sub_zero]

/-! ## Any operation -/

omit [DecidableEq Ref] in
/-- The references change; the new one is retained and the old one released. -/
theorem settle (h : Counted s) (s₁ : System Obj Ref) (hobjects : s₁.objects = s.objects)
    {new old : Option Obj} (hnew : s.Valid new) (hold : ∀ o ∈ old, 0 < s.number o)
    (hnumber : ∀ o, s₁.number o + one old o = s.number o + one new o) :
    Settles s (do let s ← s₁.retain new; s.release old) := by
  have hvalid : s₁.Valid new := by
    rw [System.Valid, hobjects]
    exact hnew
  have hpos : ∀ o ∈ old, ∃ n, retained new s₁.objects o = some (n + 1) := by
    intro o ho
    obtain ⟨n, hn⟩ := Option.isSome_iff_exists.mp (h.exists_of_pos o (hold o ho))
    have hcount := h.count o n hn
    have hreferred := hold o ho
    refine ⟨n + one new o - 1, ?_⟩
    rw [retained, hobjects, hn, Option.map_some]
    congr 1
    omega
  have hrelease : (s₁.withObjects (retained new s₁.objects)).release old =
      .ok (s₁.withObjects (released old (retained new s₁.objects))) := release_eq hpos
  rw [retain_eq hvalid, ok_bind, hrelease]
  -- what has become of an object that existed
  have hafter : ∀ o n, s.objects o = some n → released old (retained new s₁.objects) o =
      if old = some o ∧ s₁.number o = 0 then none else some (s₁.number o) := by
    intro o n hn
    have hcount := h.count o n hn
    have hchange := hnumber o
    rw [released, retained, hobjects, hn, Option.map_some, Option.bind_some]
    by_cases ho : old = some o
    · rw [ho, one_self] at hchange ⊢
      rw [show n + one new o - 1 = s₁.number o by omega]
      exact if_congr (and_congr_right fun _ => by omega) rfl rfl
    · rw [one_of_ne ho] at hchange ⊢
      rw [if_neg fun h => ho h.1, if_neg fun h => ho h.1]
      congr 1
      omega
  have hlost : ∀ o, s.objects o = none → s₁.number o = 0 := by
    intro o hnone
    have hzero : s.number o = 0 := by
      refine Nat.eq_zero_of_not_pos fun hpos => ?_
      have hsome := h.exists_of_pos o hpos
      rw [hnone] at hsome
      cases hsome
    have hother : new ≠ some o := by
      intro heq
      have hsome := hnew o heq
      rw [hnone] at hsome
      cases hsome
    have hchange := hnumber o
    rw [one_of_ne hother] at hchange
    omega
  refine ⟨_, rfl, ⟨fun o m hm => ?_, fun o hpos => ?_⟩, fun o hsome => ?_⟩
  · change released old (retained new s₁.objects) o = some m at hm
    cases hn : s.objects o with
    | none =>
        rw [released, retained, hobjects, hn] at hm
        cases hm
    | some n =>
        rw [hafter o n hn] at hm
        split at hm
        · cases hm
        · exact (Option.some.inj hm).symm
  · show (released old (retained new s₁.objects) o).isSome = true
    cases hn : s.objects o with
    | none => exact absurd (hlost o hn) (Nat.ne_of_gt hpos)
    | some n =>
        rw [hafter o n hn, if_neg fun h => Nat.ne_of_gt hpos h.2]
        rfl
  · obtain ⟨n, hn⟩ := Option.isSome_iff_exists.mp hsome
    have hchange := hnumber o
    show released old (retained new s₁.objects) o = none ↔ 0 < s.number o ∧ s₁.number o = 0
    rw [hafter o n hn]
    by_cases ho : old = some o
    · simp only [ho, true_and, hold o ho]
      split
      next hzero => exact iff_of_true rfl hzero
      next hne => exact iff_of_false (Option.some_ne_none _) hne
    · rw [if_neg fun h => ho h.1]
      rw [one_of_ne ho] at hchange
      exact iff_of_false (Option.some_ne_none _) fun h => by omega

omit [DecidableEq Ref] in
theorem settle_retain (h : Counted s) (s₁ : System Obj Ref) (hobjects : s₁.objects = s.objects)
    {new : Option Obj} (hnew : s.Valid new)
    (hnumber : ∀ o, s₁.number o = s.number o + one new o) : Settles s (s₁.retain new) := by
  have hold : ∀ o ∈ none, 0 < s.number o := fun o ho => absurd ho (Option.not_mem_none o)
  obtain ⟨s', hstep, hs'⟩ := settle h s₁ hobjects hnew hold hnumber
  obtain ⟨s₂, hretain, hrest⟩ := bind_eq_ok.mp hstep
  exact ⟨s', hretain.trans hrest, hs'⟩

omit [DecidableEq Ref] in
theorem settle_release (h : Counted s) (s₁ : System Obj Ref) (hobjects : s₁.objects = s.objects)
    {old : Option Obj} (hold : ∀ o ∈ old, 0 < s.number o)
    (hnumber : ∀ o, s₁.number o + one old o = s.number o) : Settles s (s₁.release old) := by
  have hnew : s.Valid none := fun o ho => absurd ho (Option.not_mem_none o)
  exact settle h s₁ hobjects hnew hold hnumber

omit [DecidableEq Ref] in
/-- References that move about. -/
theorem settle_ok (h : Counted s) (s₁ : System Obj Ref) (hobjects : s₁.objects = s.objects)
    (hnumber : ∀ o, s₁.number o = s.number o) : Settles s (.ok s₁) := by
  have hnew : s.Valid none := fun o ho => absurd ho (Option.not_mem_none o)
  exact settle_retain h s₁ hobjects hnew hnumber

/-! ## The references -/

theorem number_begin {r : Ref} (hr : r ∉ s.live) (p : Option Obj) (o : Obj) :
    (s.begin r p).number o = s.number o + one p o := by
  rw [System.number, System.number, Nat.add_right_comm, ← number_insert hr]
  rfl

theorem number_setReference {r : Ref} (hr : r ∈ s.live) (p : Option Obj) (o : Obj) :
    (s.setReference r p).number o + one (s.reference r) o = s.number o + one p o := by
  rw [System.number, System.number, Nat.add_right_comm _ (s.direct o), ← number_update hr,
    Nat.add_right_comm]
  rfl

omit [DecidableEq Ref] in
theorem number_retainDirect (a o : Obj) :
    (s.setDirect a (s.direct a + 1)).number o = s.number o + one (some a) o := by
  show Holders.number s.live s.reference o + Function.update s.direct a (s.direct a + 1) o = _
  rw [System.number, Nat.add_assoc]
  congr 1
  by_cases ho : o = a
  · subst ho
    rw [Function.update_self, one_self]
  · rw [Function.update_of_ne ho, one_of_ne fun h => ho (Option.some.inj h).symm, Nat.add_zero]

omit [DecidableEq Ref] in
theorem number_adopt {p : Option Obj} (h : s.Owned p) (o : Obj) :
    (s.adopt p).number o + one p o = s.number o := by
  cases p with
  | none => rfl
  | some a =>
      have hpos : 0 < s.direct a := h a rfl
      show Holders.number s.live s.reference o + Function.update s.direct a (s.direct a - 1) o
        + _ = _
      rw [System.number, Nat.add_assoc]
      congr 1
      by_cases ho : o = a
      · subst ho
        rw [Function.update_self, one_self]
        omega
      · rw [Function.update_of_ne ho, one_of_ne fun h => ho (Option.some.inj h).symm, Nat.add_zero]

omit [DecidableEq Ref] in
theorem live_adopt (p : Option Obj) :
    (s.adopt p).live = s.live ∧ (s.adopt p).objects = s.objects := by
  cases p <;> exact ⟨rfl, rfl⟩

omit [DecidableEq Ref] in
theorem pos_of_owned {p : Option Obj} (h : s.Owned p) : ∀ o ∈ p, 0 < s.number o :=
  fun o ho => Nat.add_pos_right _ (h o ho)

omit [DecidableEq Ref] in
theorem pos_of_reference {r : Ref} (hr : r ∈ s.live) : ∀ o ∈ s.reference r, 0 < s.number o :=
  fun _ ho => Nat.add_pos_left (number_pos hr ho) _

namespace Counted

omit [DecidableEq Ref] in
theorem valid_reference (h : Counted s) {r : Ref} (hr : r ∈ s.live) : s.Valid (s.reference r) :=
  fun o ho => h.exists_of_pos o (pos_of_reference hr o ho)

/-! ## One operation -/

omit [DecidableEq Ref] in
theorem create (h : Counted s) {a : Obj} (ha : s.objects a = none) :
    Settles s (.ok (s.setCount a (some 0))) := by
  have hzero : s.number a = 0 := by
    refine Nat.eq_zero_of_not_pos fun hpos => ?_
    have hsome := h.exists_of_pos a hpos
    rw [ha] at hsome
    cases hsome
  have hold : ∀ o, o ≠ a → (s.setCount a (some 0)).objects o = s.objects o :=
    fun o ho => Function.update_of_ne ho ..
  have hnew : (s.setCount a (some 0)).objects a = some 0 := Function.update_self ..
  refine ⟨_, rfl, ⟨fun o n hn => ?_, fun o hpos => ?_⟩, fun o hsome => ?_⟩
  · by_cases ho : o = a
    · subst ho
      rw [hnew] at hn
      exact (Option.some.inj hn).symm.trans hzero.symm
    · rw [hold o ho] at hn
      exact h.count o n hn
  · by_cases ho : o = a
    · subst ho
      rw [hnew]
      rfl
    · rw [hold o ho]
      exact h.exists_of_pos o hpos
  · have hne : o ≠ a := by
      rintro rfl
      rw [ha] at hsome
      cases hsome
    rw [hold o hne]
    refine iff_of_false (fun hnone => ?_) fun hdrop => Nat.ne_of_gt hdrop.1 hdrop.2
    rw [hnone] at hsome
    cases hsome

theorem construct (h : Counted s) {r : Ref} (hr : r ∉ s.live) : Settles s (.ok (s.construct r)) :=
  settle_ok h _ rfl fun o => number_begin hr none o

theorem constructPointer (h : Counted s) {r : Ref} {p : Option Obj} (hr : r ∉ s.live)
    (hp : s.Valid p) : Settles s (s.constructPointer r p true) :=
  settle_retain h (s.begin r p) rfl hp fun o => number_begin hr p o

theorem constructAdopting (h : Counted s) {r : Ref} {p : Option Obj} (hr : r ∉ s.live)
    (hp : s.Owned p) : Settles s ((s.adopt p).constructPointer r p false) := by
  obtain ⟨hlive, hobjects⟩ := @live_adopt _ _ _ s p
  refine settle_ok h _ hobjects fun o => ?_
  rw [number_begin (by rwa [hlive]), number_adopt hp]

theorem copy (h : Counted s) {r copied : Ref} (hr : r ∉ s.live) (hcopied : copied ∈ s.live) :
    Settles s (s.copy r copied) :=
  settle_retain h (s.begin r _) rfl (h.valid_reference hcopied) fun o => number_begin hr _ o

theorem move (h : Counted s) {r value : Ref} (hr : r ∉ s.live) (hvalue : value ∈ s.live) :
    Settles s (.ok (s.move r value)) := by
  refine settle_ok h _ rfl fun o => ?_
  have hne : value ≠ r := fun heq => hr (heq ▸ hvalue)
  have hbegin := number_begin hr (s.reference value) o
  have hin : value ∈ (s.begin r (s.reference value)).live := Finset.mem_insert_of_mem hvalue
  have hset := number_setReference hin none o
  rw [show (s.begin r (s.reference value)).reference value = s.reference value from
    Function.update_of_ne hne .., hbegin, one_none] at hset
  exact Nat.add_right_cancel hset

theorem destroy (h : Counted s) {r : Ref} (hr : r ∈ s.live) : Settles s (s.destroy r) := by
  refine settle_release h { s with live := s.live.erase r } rfl (pos_of_reference hr) fun o => ?_
  rw [System.number, System.number, Nat.add_right_comm, ← number_erase hr o]

theorem assignPointer (h : Counted s) {r : Ref} {p : Option Obj} (hr : r ∈ s.live)
    (hp : s.Valid p) : Settles s (s.assignPointer r p) :=
  settle h (s.setReference r p) rfl hp (pos_of_reference hr) fun o => number_setReference hr p o

theorem swap (h : Counted s) {r inPtr : Ref} (hr : r ∈ s.live) (hin : inPtr ∈ s.live) :
    Settles s (.ok (s.swap r inPtr)) := by
  refine settle_ok h _ rfl fun o => ?_
  have hfirst := number_setReference hr (s.reference inPtr) o
  have hsecond := @number_setReference _ _ _ _ (s.setReference r (s.reference inPtr)) _ hin
    (s.reference r) o
  -- also where the two are one
  have hsame : (s.setReference r (s.reference inPtr)).reference inPtr = s.reference inPtr := by
    by_cases heq : inPtr = r
    · subst heq
      exact Function.update_self ..
    · exact Function.update_of_ne heq ..
  rw [hsame, hfirst] at hsecond
  exact Nat.add_right_cancel hsecond

theorem step (h : Counted s) {a : Action Obj Ref} (hen : s.enabled a) : Settles s (s.step a) := by
  cases a with
  | create o => exact h.create hen
  | construct r => exact h.construct hen
  | constructPointer r p retain =>
      obtain ⟨hr, hp, howned⟩ := hen
      cases retain with
      | true => exact h.constructPointer hr hp
      | false => exact h.constructAdopting hr (howned rfl)
  | copy r copied => exact h.copy hen.1 hen.2
  | move r value => exact h.move hen.1 hen.2
  | destroy r => exact h.destroy hen
  | assignPointer r p => exact h.assignPointer hen.1 hen.2
  | assign r inPtr => exact h.assignPointer hen.1 (h.valid_reference hen.2)
  | safeRelease r => exact h.assignPointer hen fun o ho => absurd ho (Option.not_mem_none o)
  | swap r inPtr => exact h.swap hen.1 hen.2
  | retain o => exact settle_retain h (s.setDirect o _) rfl hen fun o' => number_retainDirect o o'
  | release o =>
      exact settle_release h (s.adopt (some o)) rfl (pos_of_owned hen) fun o' => number_adopt hen o'

end Counted

/-! ## Every run -/

theorem counted_start : Counted (machine Obj Ref).start where
  count := fun _ _ hn => by cases hn
  exists_of_pos := fun _ hpos => absurd hpos (Nat.lt_irrefl 0)

theorem counted_of_reachable (h : (machine Obj Ref).Reachable s) : Counted s := by
  refine h.invariant counted_start fun s a s' hs hen hstep => ?_
  obtain ⟨s'', hstep', hs'', -⟩ := hs.step hen
  cases hstep.symm.trans hstep'
  exact hs''

/-- After every sequence of operations the count of each object that exists is the number of
`RefPtr`s that refer to it and of the client's own retains, and no `RefPtr` refers to one
that was deleted; and no operation fails, and it deletes exactly the objects whose number
of references drops to zero. -/
theorem counts_exact (h : (machine Obj Ref).Reachable s) :
    (∀ o n, s.objects o = some n → n = Holders.number s.live s.reference o + s.direct o) ∧
    (∀ r ∈ s.live, ∀ o, s.reference r = some o → (s.objects o).isSome) ∧
    ∀ a, s.enabled a → ∃ s', s.step a = .ok s' ∧ ∀ o, (s.objects o).isSome →
      (s'.objects o = none ↔ 0 < s.number o ∧ s'.number o = 0) := by
  have hs := counted_of_reachable h
  refine ⟨hs.count, fun r hr o ho => hs.valid_reference hr o ho, fun a hen => ?_⟩
  obtain ⟨s', hstep, -, hdeletes⟩ := hs.step hen
  exact ⟨s', hstep, hdeletes⟩

/-- Two `RefPtr`s, one assigned to itself and one adopting, and the first is destroyed. -/
theorem counts_exact_two : ∃ s, (machine Nat Nat).Reachable s ∧ s.objects 7 = some 1 ∧
    1 = Holders.number s.live s.reference 7 + s.direct 7 := by
  have hrun : (machine Nat Nat).Reachable _ := ⟨[.create 7, .constructPointer 0 (some 7) true,
    .assign 0 0, .retain 7, .constructPointer 1 (some 7) false, .destroy 0],
    Machine.run_of_exec rfl⟩
  exact ⟨_, hrun, rfl, (counts_exact hrun).1 7 1 rfl⟩

end RefPtr

end Rx
