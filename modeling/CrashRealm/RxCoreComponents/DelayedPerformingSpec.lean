/-
# `RxCoreComponents.DelayedPerformingSpec` — requests of different targets are kept apart

The tables know each timer of the run loop whose target is alive: it is the one in the
table of its target for its selector.  So there is one at most, and what a request or a
cancellation withdraws is found there, as long as what is found for a target is its own.
With targets that are `isEqual:` it may be the other's.
-/
import CrashRealm.RxCoreComponents.DelayedPerforming

namespace Rx

namespace DelayedPerforming

variable {T S A M : Type}

namespace Thread

variable {s s' : Thread T S A M} {t : T} {sel : S} {i j : Nat}

/-- The timer is for this target and selector. -/
def Owner (s : Thread T S A M) (i : Nat) (t : T) (sel : S) : Prop :=
  ∃ timer, s.timers i = some timer ∧ timer.target = t ∧ timer.action = sel

/-- What the thread's table holds. -/
def entries (s : Thread T S A M) : List (T × List (S × Nat)) := s.targetTable.getD []

theorem Owner.unique {t' : T} {sel' : S} (h : s.Owner i t sel) (h' : s.Owner i t' sel') :
    t = t' ∧ sel = sel' := by
  obtain ⟨timer, htimer, rfl, rfl⟩ := h
  obtain ⟨timer', htimer', rfl, rfl⟩ := h'
  cases htimer.symm.trans htimer'
  exact ⟨rfl, rfl⟩

theorem Scheduled.owner (h : s.Scheduled t sel i) : s.Owner i t sel := by
  obtain ⟨timer, htimer, ht, hsel, -⟩ := h
  exact ⟨timer, htimer, ht, hsel⟩

/-! ## Timers that change -/

/-- One timer is changed, and it stays the timer of its request. -/
structure Changes (s s' : Thread T S A M) (j : Nat) (f : Timer T S A M → Timer T S A M) :
    Prop where
  timers : s'.timers = Function.update s.timers j ((s.timers j).map f)
  target : ∀ timer, (f timer).target = timer.target
  action : ∀ timer, (f timer).action = timer.action
  modes : ∀ timer, (f timer).modes = timer.modes

section Changes
variable {f : Timer T S A M → Timer T S A M} (h : Changes s s' j f)
include h

theorem Changes.of_ne (hij : i ≠ j) : s'.timers i = s.timers i := by
  rw [h.timers, Function.update_of_ne hij]

theorem Changes.self : s'.timers j = (s.timers j).map f := by
  rw [h.timers, Function.update_self]

theorem Changes.owner : s'.Owner i t sel ↔ s.Owner i t sel := by
  by_cases hij : i = j
  · subst hij
    constructor
    · rintro ⟨timer', htimer', rfl, rfl⟩
      rw [h.self] at htimer'
      obtain ⟨timer, htimer, rfl⟩ := Option.map_eq_some_iff.mp htimer'
      exact ⟨timer, htimer, (h.target timer).symm, (h.action timer).symm⟩
    · rintro ⟨timer, htimer, rfl, rfl⟩
      rw [Owner, h.self, htimer]
      exact ⟨f timer, rfl, h.target timer, h.action timer⟩
  · rw [Owner, Owner, h.of_ne hij]

theorem Changes.scheduled_of_invalid (hf : ∀ timer, (f timer).isValid = false) :
    s'.Scheduled t sel i ↔ s.Scheduled t sel i ∧ i ≠ j := by
  by_cases hij : i = j
  · subst hij
    refine iff_of_false ?_ fun h => h.2 rfl
    rintro ⟨timer', htimer', -, -, hvalid, -⟩
    rw [h.self] at htimer'
    obtain ⟨timer, -, rfl⟩ := Option.map_eq_some_iff.mp htimer'
    rw [hf] at hvalid
    cases hvalid
  · rw [Scheduled, Scheduled, h.of_ne hij, and_iff_left hij]

theorem Changes.scheduled_of_valid (hf : ∀ timer, (f timer).isValid = timer.isValid) :
    s'.Scheduled t sel i ↔ s.Scheduled t sel i := by
  by_cases hij : i = j
  · subst hij
    constructor
    · rintro ⟨timer', htimer', rfl, rfl, hvalid, hmodes⟩
      rw [h.self] at htimer'
      obtain ⟨timer, htimer, rfl⟩ := Option.map_eq_some_iff.mp htimer'
      rw [hf] at hvalid
      rw [h.modes] at hmodes
      exact ⟨timer, htimer, (h.target timer).symm, (h.action timer).symm, hvalid, hmodes⟩
    · rintro ⟨timer, htimer, rfl, rfl, hvalid, hmodes⟩
      rw [Scheduled, h.self, htimer]
      refine ⟨f timer, rfl, h.target timer, h.action timer, ?_, ?_⟩
      · rw [hf, hvalid]
      · rwa [h.modes]
  · rw [Scheduled, Scheduled, h.of_ne hij]

end Changes

theorem invalidate_changes (s : Thread T S A M) (j : Nat) :
    Changes s (s.invalidate j) j fun timer => { timer with isValid := false } :=
  ⟨rfl, fun _ => rfl, fun _ => rfl, fun _ => rfl⟩

theorem finish_changes (s : Thread T S A M) (j : Nat) :
    Changes s (s.finish j) j fun timer => { timer with isValid := false, isFiring := false } :=
  ⟨rfl, fun _ => rfl, fun _ => rfl, fun _ => rfl⟩

/-- Some timers of `t` are made invalid, among them all that are scheduled for selectors
with `P`; nothing else changes. -/
structure Withdraws (s s' : Thread T S A M) (t : T) (P : S → Prop) : Prop where
  owner : ∀ i t' sel, s'.Owner i t' sel ↔ s.Owner i t' sel
  scheduled : ∀ t' sel i, s'.Scheduled t' sel i ↔ s.Scheduled t' sel i ∧ ¬ (t' = t ∧ P sel)
  others : ∀ i timer, s.timers i = some timer → timer.target ≠ t → s'.timers i = some timer
  created : s'.created = s.created
  life : s'.life = s.life
  targetTable : s'.targetTable = s.targetTable

/-- These timers are made invalid. -/
structure Invalidates (s s' : Thread T S A M) (is : List Nat) : Prop where
  owner : ∀ i t sel, s'.Owner i t sel ↔ s.Owner i t sel
  scheduled : ∀ t sel i, s'.Scheduled t sel i ↔ s.Scheduled t sel i ∧ i ∉ is
  others : ∀ i, i ∉ is → s'.timers i = s.timers i
  created : s'.created = s.created
  life : s'.life = s.life
  targetTable : s'.targetTable = s.targetTable

theorem foldl_invalidates (is : List Nat) (s : Thread T S A M) :
    Invalidates s (is.foldl invalidate s) is := by
  induction is generalizing s with
  | nil =>
      exact ⟨fun _ _ _ => Iff.rfl, fun _ _ _ => (and_iff_left List.not_mem_nil).symm,
        fun _ _ => rfl, rfl, rfl, rfl⟩
  | cons j is ih =>
      have hfirst := invalidate_changes s j
      have hrest := ih (s.invalidate j)
      refine ⟨fun i t sel => (hrest.owner i t sel).trans hfirst.owner, fun t sel i => ?_,
        fun i hi => ?_, hrest.created, hrest.life, hrest.targetTable⟩
      · rw [List.foldl_cons, hrest.scheduled, hfirst.scheduled_of_invalid fun _ => rfl, and_assoc,
          List.mem_cons, not_or]
      · rw [List.mem_cons, not_or] at hi
        exact (hrest.others i hi.2).trans (hfirst.of_ne hi.1)

theorem Invalidates.withdraws {is : List Nat} {P : S → Prop} (h : Invalidates s s' is)
    (howner : ∀ i ∈ is, ∃ sel, s.Owner i t sel ∧ P sel)
    (hall : ∀ sel i, P sel → s.Scheduled t sel i → i ∈ is) : Withdraws s s' t P := by
  refine ⟨h.owner, fun t' sel i => ?_, fun i timer htimer hne => ?_, h.created, h.life,
    h.targetTable⟩
  · rw [h.scheduled]
    refine and_congr_right fun hscheduled => not_congr ⟨fun hi => ?_, ?_⟩
    · obtain ⟨sel', hi, hP⟩ := howner i hi
      obtain ⟨rfl, rfl⟩ := hscheduled.owner.unique hi
      exact ⟨rfl, hP⟩
    · rintro ⟨rfl, hP⟩
      exact hall sel i hP hscheduled
  · refine (h.others i fun hi => ?_).trans htimer
    obtain ⟨sel, howner, -⟩ := howner i hi
    exact hne (Owner.unique ⟨timer, htimer, rfl, rfl⟩ howner).1

/-! ## The tables -/

structure Sound (s : Thread T S A M) : Prop where
  keys : (s.entries.map Prod.fst).Nodup
  alive : ∀ e ∈ s.entries, s.life e.1 = .alive
  selectors : ∀ e ∈ s.entries, (e.2.map Prod.fst).Nodup
  held : ∀ t l sel i, (t, l) ∈ s.entries → (sel, i) ∈ l → s.Owner i t sel
  listed : ∀ t sel i, s.life t = .alive → s.Scheduled t sel i →
    ∃ l, (t, l) ∈ s.entries ∧ (sel, i) ∈ l
  single : ∀ t sel i j, s.Scheduled t sel i → s.Scheduled t sel j → i = j
  fresh : ∀ i, s.created ≤ i → s.timers i = none

theorem Sound.lt_created (h : Sound s) (hi : s.Owner i t sel) : i < s.created := by
  obtain ⟨timer, htimer, -⟩ := hi
  refine Nat.lt_of_not_le fun hle => ?_
  rw [h.fresh i hle] at htimer
  cases htimer

/-- The entry of one target is replaced; it has all timers of the target that are scheduled. -/
theorem Sound.of_entry (h : Sound s) (own : Option (List (S × Nat)))
    (hlife : s'.life = s.life) (halive : s.life t = .alive)
    (howner : ∀ i t' sel, s.Owner i t' sel → s'.Owner i t' sel)
    (hother : ∀ t' sel i, t' ≠ t → s'.Scheduled t' sel i → s.Scheduled t' sel i)
    (hfresh : ∀ i, s'.created ≤ i → s'.timers i = none)
    (hkeys : (s'.entries.map Prod.fst).Nodup)
    (hentries : ∀ t' l, (t', l) ∈ s'.entries ↔ t' = t ∧ l ∈ own ∨ t' ≠ t ∧ (t', l) ∈ s.entries)
    (hselectors : ∀ l ∈ own, (l.map Prod.fst).Nodup)
    (hheld : ∀ l ∈ own, ∀ sel i, (sel, i) ∈ l → s'.Owner i t sel)
    (hlisted : ∀ sel i, s'.Scheduled t sel i → ∃ l ∈ own, (sel, i) ∈ l) : Sound s' where
  keys := hkeys
  alive := by
    rintro ⟨t', l⟩ he
    rw [hlife]
    rcases (hentries t' l).mp he with ⟨rfl, -⟩ | ⟨-, hold⟩
    · exact halive
    · exact h.alive (t', l) hold
  selectors := by
    rintro ⟨t', l⟩ he
    rcases (hentries t' l).mp he with ⟨-, hl⟩ | ⟨-, hold⟩
    · exact hselectors l hl
    · exact h.selectors (t', l) hold
  held := by
    intro t' l sel i he hi
    rcases (hentries t' l).mp he with ⟨rfl, hl⟩ | ⟨-, hold⟩
    · exact hheld l hl sel i hi
    · exact howner i t' sel (h.held t' l sel i hold hi)
  listed := by
    intro t' sel i halive' hi
    rw [hlife] at halive'
    by_cases ht : t' = t
    · subst ht
      obtain ⟨l, hl, hmem⟩ := hlisted sel i hi
      exact ⟨l, (hentries t' l).mpr (Or.inl ⟨rfl, hl⟩), hmem⟩
    · obtain ⟨l, hold, hmem⟩ := h.listed t' sel i halive' (hother t' sel i ht hi)
      exact ⟨l, (hentries t' l).mpr (Or.inr ⟨ht, hold⟩), hmem⟩
  single := by
    intro t' sel i j hi hj
    by_cases ht : t' = t
    · subst ht
      obtain ⟨l, hl, hmem⟩ := hlisted sel i hi
      obtain ⟨l', hl', hmem'⟩ := hlisted sel j hj
      cases Option.mem_unique hl hl'
      exact KeyedTable.value_unique (hselectors l hl) hmem hmem'
    · exact h.single t' sel i j (hother t' sel i ht hi) (hother t' sel j ht hj)
  fresh := hfresh

/-- Timers or entries of targets that are not alive are given up. -/
theorem Sound.of_subset (h : Sound s) (hlife : ∀ t, s'.life t = .alive → s.life t = .alive)
    (howner : ∀ i t sel, s.Owner i t sel → s'.Owner i t sel)
    (hscheduled : ∀ t sel i, s'.Scheduled t sel i → s.Scheduled t sel i)
    (hfresh : ∀ i, s'.created ≤ i → s'.timers i = none)
    (hsublist : s'.entries.Sublist s.entries)
    (hentries : ∀ t l, (t, l) ∈ s.entries → s'.life t = .alive → (t, l) ∈ s'.entries)
    (halive : ∀ e ∈ s'.entries, s'.life e.1 = .alive) : Sound s' where
  keys := h.keys.sublist (hsublist.map _)
  alive := halive
  selectors := fun e he => h.selectors e (hsublist.subset he)
  held := fun t l sel i he hi => howner i t sel (h.held t l sel i (hsublist.subset he) hi)
  listed := by
    intro t sel i halive' hi
    obtain ⟨l, hl, hmem⟩ := h.listed t sel i (hlife t halive') (hscheduled t sel i hi)
    exact ⟨l, hentries t l hl halive', hmem⟩
  single := fun t sel i j hi hj =>
    h.single t sel i j (hscheduled t sel i hi) (hscheduled t sel j hj)
  fresh := hfresh

/-! ## What a call does -/

/-- For the targets that are alive, requests of `t` for selectors with `P` are withdrawn. -/
structure Outcome (s s' : Thread T S A M) (t : T) (P : S → Prop) : Prop where
  sound : Sound s'
  owner : ∀ i t' sel, s.Owner i t' sel → s'.Owner i t' sel
  scheduled : ∀ t' sel i, s.life t' = .alive →
    (s'.Scheduled t' sel i ↔ s.Scheduled t' sel i ∧ ¬ (t' = t ∧ P sel))
  others : ∀ i timer, s.timers i = some timer → timer.target ≠ t → s'.timers i = some timer
  created : s'.created = s.created
  life : s'.life = s.life

/-- Nothing is found. -/
theorem Sound.outcome_self (h : Sound s) {P : S → Prop}
    (hnone : ∀ sel i, s.life t = .alive → P sel → ¬ s.Scheduled t sel i) : Outcome s s t P where
  sound := h
  owner := fun _ _ _ howner => howner
  scheduled := by
    intro t' sel i halive
    refine (and_iff_left_of_imp fun hscheduled => ?_).symm
    rintro ⟨rfl, hP⟩
    exact hnone sel i halive hP hscheduled
  others := fun _ _ htimer _ => htimer
  created := rfl
  life := rfl

theorem Withdraws.outcome {P : S → Prop} (h : Withdraws s s' t P)
    {table : Option (List (T × List (S × Nat)))}
    (hsound : Sound { s' with targetTable := table }) :
    Outcome s { s' with targetTable := table } t P where
  sound := hsound
  owner := fun i t' sel => (h.owner i t' sel).mpr
  scheduled := fun t' sel i _ => h.scheduled t' sel i
  others := h.others
  created := h.created
  life := h.life

theorem Withdraws.of_none {P : S → Prop} (h : ∀ sel i, P sel → ¬ s.Scheduled t sel i) :
    Withdraws s s t P where
  owner := fun _ _ _ => Iff.rfl
  scheduled := by
    intro t' sel i
    refine (and_iff_left_of_imp fun hscheduled => ?_).symm
    rintro ⟨rfl, hP⟩
    exact h sel i hP hscheduled
  others := fun _ _ htimer _ => htimer
  created := rfl
  life := rfl
  targetTable := rfl

/-- No timer comes to be. -/
theorem Sound.fresh_of_owner (h : Sound s) (hcreated : s'.created = s.created)
    (howner : ∀ i t sel, s'.Owner i t sel → s.Owner i t sel) (i : Nat) (hi : s'.created ≤ i) :
    s'.timers i = none := by
  cases htimer : s'.timers i with
  | none => rfl
  | some timer =>
      have hold := howner i timer.target timer.action ⟨timer, htimer, rfl, rfl⟩
      rw [hcreated] at hi
      exact absurd (h.lt_created hold) (Nat.not_lt_of_le hi)

theorem Withdraws.fresh {P : S → Prop} (h : Withdraws s s' t P) (hsound : Sound s) (i : Nat)
    (hi : s'.created ≤ i) : s'.timers i = none :=
  hsound.fresh_of_owner h.created (fun i t' sel => (h.owner i t' sel).mp) i hi

section Listed
variable (h : Sound s) {l : List (S × Nat)} (hl : (t, l) ∈ s.entries)
include h hl

theorem Sound.mem_of_scheduled (hscheduled : s.Scheduled t sel i) : (sel, i) ∈ l := by
  obtain ⟨l', hl', hmem⟩ := h.listed t sel i (h.alive (t, l) hl) hscheduled
  cases KeyedTable.value_unique h.keys hl hl'
  exact hmem

/-- The timer there is for a selector is the one that is scheduled. -/
theorem Sound.withdraws_found (hi : (sel, i) ∈ l) :
    Withdraws s (s.invalidate i) t fun sel' => sel' = sel := by
  refine (foldl_invalidates [i] s).withdraws (fun j hj => ?_) fun sel' j heq hscheduled => ?_
  · cases List.mem_singleton.mp hj
    exact ⟨sel, h.held t l sel i hl hi, rfl⟩
  · cases heq
    have hmem := h.mem_of_scheduled hl hscheduled
    rw [KeyedTable.value_unique (h.selectors (t, l) hl) hmem hi]
    exact List.mem_singleton_self i

end Listed

section Tables
variable [DecidableEq S] {equal : T → T → Bool}

theorem sameString_self (a : S) : sameString a a = true := decide_eq_true rfl

/-- Strings are found by what they are. -/
theorem own_sameString (a : S) (l : List (S × Nat)) : KeyedTable.Own sameString a l :=
  fun _ _ heq => of_decide_eq_true heq

theorem Sound.find_selector_iff (h : Sound s) {l : List (S × Nat)} (hl : (t, l) ∈ s.entries) :
    KeyedTable.find sameString sel l = some i ↔ (sel, i) ∈ l :=
  KeyedTable.find_eq_some_iff (sameString_self sel) (own_sameString sel l) (h.selectors (t, l) hl)

section Entry
variable (hrefl : ∀ t, equal t t = true) (h : Sound s) (hown : s.Own equal t)
include hrefl h hown

omit [DecidableEq S] in
theorem Sound.find_iff {l : List (S × Nat)} :
    KeyedTable.find equal t s.entries = some l ↔ (t, l) ∈ s.entries :=
  KeyedTable.find_eq_some_iff (hrefl t) hown h.keys

omit [DecidableEq S] in
/-- The table of a target is replaced. -/
theorem Sound.of_store {l : List (S × Nat)} (hlife : s'.life = s.life)
    (halive : s.life t = .alive)
    (howner : ∀ i t' sel, s.Owner i t' sel → s'.Owner i t' sel)
    (hother : ∀ t' sel i, t' ≠ t → s'.Scheduled t' sel i → s.Scheduled t' sel i)
    (hfresh : ∀ i, s'.created ≤ i → s'.timers i = none)
    (hselectors : (l.map Prod.fst).Nodup)
    (hheld : ∀ sel i, (sel, i) ∈ l → s'.Owner i t sel)
    (hlisted : ∀ sel i, s'.Scheduled t sel i → (sel, i) ∈ l) :
    Sound { s' with targetTable := some (KeyedTable.store equal t l s.entries) } := by
  refine h.of_entry (some l) hlife halive howner hother hfresh ?_ (fun t' l' => ?_) ?_ ?_ ?_
  · exact KeyedTable.nodup_store (hrefl t) hown h.keys
  · rw [Option.mem_some_iff, eq_comm (a := l)]
    exact KeyedTable.mem_store (hrefl t) hown h.keys
  · rintro l' hl'
    cases hl'
    exact hselectors
  · rintro l' hl' sel i hi
    cases hl'
    exact hheld sel i hi
  · exact fun sel i hi => ⟨l, rfl, hlisted sel i hi⟩

omit [DecidableEq S] in
theorem Sound.not_scheduled (hfind : KeyedTable.find equal t s.entries = none)
    (halive : s.life t = .alive) : ¬ s.Scheduled t sel i := by
  intro hscheduled
  obtain ⟨l, hl, -⟩ := h.listed t sel i halive hscheduled
  rw [(h.find_iff hrefl hown).mpr hl] at hfind
  cases hfind

end Entry

/-! ### Cancelling -/

section Cancel

omit [DecidableEq S] in
theorem cancel_of_none (hfind : KeyedTable.find equal t s.entries = none) :
    s.cancelPreviousPerformRequests equal t = s := by
  rw [cancelPreviousPerformRequests]
  cases htable : s.targetTable with
  | none => rfl
  | some targetTable =>
      rw [entries, htable, Option.getD_some] at hfind
      dsimp only
      rw [hfind]

omit [DecidableEq S] in
theorem cancel_of_some {l : List (S × Nat)}
    (hfind : KeyedTable.find equal t s.entries = some l) :
    s.cancelPreviousPerformRequests equal t = { (l.map Prod.snd).foldl invalidate s with
      targetTable := some (KeyedTable.erase equal t s.entries) } := by
  rw [cancelPreviousPerformRequests]
  cases htable : s.targetTable with
  | none =>
      rw [entries, htable] at hfind
      cases hfind
  | some targetTable =>
      rw [entries, htable, Option.getD_some] at hfind ⊢
      dsimp only
      rw [hfind]

/-- There is nothing for the target, or nothing for the selector. -/
theorem cancelWithSelector_of_none {object : Option A}
    (hnone : ∀ l, KeyedTable.find equal t s.entries = some l →
      KeyedTable.find sameString sel l = none) :
    s.cancelPreviousPerformRequestsWithSelector equal t sel object = s := by
  rw [cancelPreviousPerformRequestsWithSelector]
  cases htable : s.targetTable with
  | none => rfl
  | some targetTable =>
      rw [entries, htable, Option.getD_some] at hnone
      dsimp only
      cases hfind : KeyedTable.find equal t targetTable with
      | none => rfl
      | some l =>
          dsimp only
          split
          · rfl
          · rw [hnone l hfind]

theorem cancelWithSelector_of_some {object : Option A} {l : List (S × Nat)}
    (hfind : KeyedTable.find equal t s.entries = some l)
    (hi : KeyedTable.find sameString sel l = some i) :
    s.cancelPreviousPerformRequestsWithSelector equal t sel object = { s.invalidate i with
      targetTable := some
        (KeyedTable.store equal t (KeyedTable.erase sameString sel l) s.entries) } := by
  rw [cancelPreviousPerformRequestsWithSelector]
  cases htable : s.targetTable with
  | none =>
      rw [entries, htable] at hfind
      cases hfind
  | some targetTable =>
      rw [entries, htable, Option.getD_some] at hfind ⊢
      dsimp only
      rw [hfind]
      dsimp only
      cases l with
      | nil => cases hi
      | cons e l =>
          rw [if_neg (by exact Bool.false_ne_true), hi]

variable (hrefl : ∀ t, equal t t = true) (h : Sound s) (hown : s.Own equal t)
include hrefl h hown

omit [DecidableEq S] in
/-- `rx_cancelPreviousPerformRequestsWithTarget:` -/
theorem Sound.cancel : Outcome s (s.cancelPreviousPerformRequests equal t) t fun _ => True := by
  cases hfind : KeyedTable.find equal t s.entries with
  | none =>
      rw [cancel_of_none hfind]
      exact h.outcome_self fun sel i halive _ => h.not_scheduled hrefl hown hfind halive
  | some l =>
      rw [cancel_of_some hfind]
      have hl := (h.find_iff hrefl hown).mp hfind
      have halive : s.life t = .alive := h.alive (t, l) hl
      have hwithdraws : Withdraws s ((l.map Prod.snd).foldl invalidate s) t fun _ => True := by
        refine (foldl_invalidates _ s).withdraws (fun i hi => ?_) fun sel i _ hscheduled => ?_
        · obtain ⟨⟨sel, i⟩, hmem, rfl⟩ := List.mem_map.mp hi
          exact ⟨sel, h.held t l sel i hl hmem, trivial⟩
        · exact List.mem_map.mpr ⟨(sel, i), h.mem_of_scheduled hl hscheduled, rfl⟩
      refine hwithdraws.outcome (h.of_entry (t := t) none hwithdraws.life halive
        (fun i t' sel => (hwithdraws.owner i t' sel).mpr)
        (fun t' sel i _ hi => ((hwithdraws.scheduled t' sel i).mp hi).1)
        (hwithdraws.fresh h) (KeyedTable.nodup_erase h.keys) (fun t' l' => ?_)
        (fun l' hl' => ?_) (fun l' hl' => ?_) fun sel i hi => ?_)
      · refine (KeyedTable.mem_erase (hrefl t) hown h.keys).trans ⟨Or.inr, ?_⟩
        rintro (⟨-, hl'⟩ | hmem)
        · cases hl'
        · exact hmem
      · cases hl'
      · cases hl'
      · exact absurd ⟨rfl, trivial⟩ ((hwithdraws.scheduled t sel i).mp hi).2

/-- `rx_cancelPreviousPerformRequestsWithTarget:selector:object:` -/
theorem Sound.cancelWithSelector (object : Option A) :
    Outcome s (s.cancelPreviousPerformRequestsWithSelector equal t sel object) t
      fun sel' => sel' = sel := by
  by_cases hfound : ∃ l i, KeyedTable.find equal t s.entries = some l ∧
      KeyedTable.find sameString sel l = some i
  · obtain ⟨l, i, hfind, hi⟩ := hfound
    have hl := (h.find_iff hrefl hown).mp hfind
    have hmem := (h.find_selector_iff hl).mp hi
    have hwithdraws := h.withdraws_found hl hmem
    have hselectors := h.selectors (t, l) hl
    have herase : ∀ {sel' : S} {j : Nat}, (sel', j) ∈ KeyedTable.erase sameString sel l ↔
        sel' ≠ sel ∧ (sel', j) ∈ l :=
      KeyedTable.mem_erase (sameString_self sel) (own_sameString sel l) hselectors
    rw [cancelWithSelector_of_some hfind hi]
    refine hwithdraws.outcome (h.of_store hrefl hown hwithdraws.life (h.alive (t, l) hl)
      (fun i t' sel => (hwithdraws.owner i t' sel).mpr)
      (fun t' sel i _ hi => ((hwithdraws.scheduled t' sel i).mp hi).1)
      (hwithdraws.fresh h) (KeyedTable.nodup_erase hselectors) (fun sel' j hj => ?_)
      fun sel' j hj => ?_)
    · exact (hwithdraws.owner j t sel').mpr (h.held t l sel' j hl (herase.mp hj).2)
    · obtain ⟨hscheduled, hother⟩ := (hwithdraws.scheduled t sel' j).mp hj
      exact herase.mpr ⟨fun heq => hother ⟨rfl, heq⟩, h.mem_of_scheduled hl hscheduled⟩
  · rw [cancelWithSelector_of_none fun l hfind => Option.eq_none_iff_forall_ne_some.mpr
      fun i hi => hfound ⟨l, i, hfind, hi⟩]
    refine h.outcome_self fun sel' i halive heq hscheduled => ?_
    cases heq
    obtain ⟨l, hl, hmem⟩ := h.listed t sel i halive hscheduled
    exact hfound ⟨l, i, (h.find_iff hrefl hown).mpr hl, (h.find_selector_iff hl).mpr hmem⟩

end Cancel

/-! ### Performing -/

/-- A timer is added for the request, in place of the one there was. -/
structure Replaces (s s' : Thread T S A M) (t : T) (sel : S) (modes : List M) : Prop where
  sound : Sound s'
  owner : ∀ i t' sel', s.Owner i t' sel' → s'.Owner i t' sel'
  new : s'.Owner s.created t sel
  scheduled : ∀ t' sel' i, s'.Scheduled t' sel' i ↔
    (t' = t ∧ sel' = sel ∧ i = s.created ∧ modes ≠ []) ∨
      s.Scheduled t' sel' i ∧ ¬ (t' = t ∧ sel' = sel)
  others : ∀ i timer, s.timers i = some timer → timer.target ≠ t → s'.timers i = some timer
  created : s'.created = s.created + 1
  life : s'.life = s.life

section Add
variable {timer : Timer T S A M} {n : Nat} (hfree : s.timers n = none)
  (htimers : s'.timers = Function.update s.timers n (some timer))
include hfree htimers

omit [DecidableEq S] in
theorem owner_add : s'.Owner i t sel ↔
    (timer.target = t ∧ timer.action = sel ∧ i = n) ∨ s.Owner i t sel := by
  rw [Owner, Owner, htimers]
  by_cases hi : i = n
  · subst hi
    rw [Function.update_self, hfree]
    constructor
    · rintro ⟨timer', htimer', ht, hsel⟩
      cases htimer'
      exact Or.inl ⟨ht, hsel, rfl⟩
    · rintro (⟨ht, hsel, -⟩ | ⟨timer', htimer', -⟩)
      · exact ⟨timer, rfl, ht, hsel⟩
      · cases htimer'
  · rw [Function.update_of_ne hi]
    exact (or_iff_right fun hnew => hi hnew.2.2).symm

omit [DecidableEq S] in
theorem scheduled_add (hvalid : timer.isValid = true) : s'.Scheduled t sel i ↔
    (timer.target = t ∧ timer.action = sel ∧ i = n ∧ timer.modes ≠ []) ∨
      s.Scheduled t sel i := by
  rw [Scheduled, Scheduled, htimers]
  by_cases hi : i = n
  · subst hi
    rw [Function.update_self, hfree]
    constructor
    · rintro ⟨timer', htimer', ht, hsel, -, hmodes⟩
      cases htimer'
      exact Or.inl ⟨ht, hsel, rfl, hmodes⟩
    · rintro (⟨ht, hsel, -, hmodes⟩ | ⟨timer', htimer', -⟩)
      · exact ⟨timer, rfl, ht, hsel, hvalid, hmodes⟩
      · cases htimer'
  · rw [Function.update_of_ne hi]
    exact (or_iff_right fun hnew => hi hnew.2.2.1).symm

end Add

/-- What performing writes. -/
theorem performSelector_fields (halive : s.life t = .alive) (sel : S) (object : Option A)
    (modes : List M)
    {l : List (S × Nat)} (hl : l = (KeyedTable.find equal t s.entries).getD []) :
    ∃ s', s.performSelector equal t sel object modes = s' ∧
      s'.timers = Function.update (s.invalidatePrevious sel l).timers s.created
        (some ⟨t, sel, object, modes, true, false⟩) ∧
      s'.created = s.created + 1 ∧ s'.life = (s.invalidatePrevious sel l).life ∧
      s'.targetTable = some (KeyedTable.store equal t
        (KeyedTable.store sameString sel s.created l) s.entries) := by
  subst hl
  exact ⟨_, if_neg (not_not.mpr halive), rfl, rfl, rfl, rfl⟩

section Perform
variable (hrefl : ∀ t, equal t t = true) (h : Sound s) (hown : s.Own equal t)
  (halive : s.life t = .alive)
include hrefl h hown halive

/-- The timer there was for the selector is made invalid, if there was one. -/
theorem Sound.withdraws_previous (sel : S) {l : List (S × Nat)}
    (hl : l = (KeyedTable.find equal t s.entries).getD []) :
    Withdraws s (s.invalidatePrevious sel l) t fun sel' => sel' = sel := by
  cases hfind : KeyedTable.find equal t s.entries with
  | none =>
      rw [hfind] at hl
      subst hl
      exact .of_none fun sel' i _ => h.not_scheduled hrefl hown hfind halive
  | some l' =>
      rw [hfind] at hl
      cases hl
      have hl := (h.find_iff hrefl hown).mp hfind
      rw [invalidatePrevious, Option.getD_some]
      cases hi : KeyedTable.find sameString sel l' with
      | none =>
          refine .of_none fun sel' i heq hscheduled => ?_
          cases heq
          rw [(h.find_selector_iff hl).mpr (h.mem_of_scheduled hl hscheduled)] at hi
          cases hi
      | some i => exact h.withdraws_found hl ((h.find_selector_iff hl).mp hi)

omit [DecidableEq S] in
/-- The table there is for the target, or an empty one. -/
theorem Sound.table_spec {l : List (S × Nat)}
    (hl : l = (KeyedTable.find equal t s.entries).getD []) : (l.map Prod.fst).Nodup ∧
      (∀ sel i, (sel, i) ∈ l → s.Owner i t sel) ∧
      ∀ sel i, s.Scheduled t sel i → (sel, i) ∈ l := by
  cases hfind : KeyedTable.find equal t s.entries with
  | none =>
      rw [hfind] at hl
      subst hl
      exact ⟨List.nodup_nil, fun _ _ hmem => absurd hmem List.not_mem_nil, fun sel i hscheduled =>
        absurd hscheduled (h.not_scheduled hrefl hown hfind halive)⟩
  | some l' =>
      rw [hfind] at hl
      cases hl
      have hl := (h.find_iff hrefl hown).mp hfind
      exact ⟨h.selectors (t, l') hl, fun sel i => h.held t l' sel i hl,
        fun sel i => h.mem_of_scheduled hl⟩

/-- `rx_performSelector:withObject:afterDelay:inModes:`, on a target that is alive. -/
theorem Sound.performSelector (sel : S) (object : Option A) (modes : List M) :
    Replaces s (s.performSelector equal t sel object modes) t sel modes := by
  obtain ⟨l, hl⟩ : ∃ l, l = (KeyedTable.find equal t s.entries).getD [] := ⟨_, rfl⟩
  obtain ⟨hnodup, hheld, hlisted⟩ := h.table_spec hrefl hown halive hl
  have hwithdraws := h.withdraws_previous hrefl hown halive sel hl
  obtain ⟨s', hcall, htimers, hcreated, hlife, htable⟩ :=
    performSelector_fields halive sel object modes hl
  rw [hwithdraws.life] at hlife
  have hfree := hwithdraws.fresh h s.created (Nat.le_of_eq hwithdraws.created)
  have howner : ∀ i t' sel', s'.Owner i t' sel' ↔
      (t = t' ∧ sel = sel' ∧ i = s.created) ∨ s.Owner i t' sel' := by
    intro i t' sel'
    rw [owner_add hfree htimers, hwithdraws.owner]
  have hscheduled : ∀ t' sel' i, s'.Scheduled t' sel' i ↔
      (t = t' ∧ sel = sel' ∧ i = s.created ∧ modes ≠ []) ∨
        s.Scheduled t' sel' i ∧ ¬ (t' = t ∧ sel' = sel) := by
    intro t' sel' i
    rw [scheduled_add hfree htimers rfl, hwithdraws.scheduled]
  have hmem : ∀ {sel' : S} {j : Nat},
      (sel', j) ∈ KeyedTable.store sameString sel s.created l ↔
        sel' = sel ∧ j = s.created ∨ sel' ≠ sel ∧ (sel', j) ∈ l :=
    KeyedTable.mem_store (sameString_self sel) (own_sameString sel l) hnodup
  have hsound : Sound { s' with targetTable := some (KeyedTable.store equal t
      (KeyedTable.store sameString sel s.created l) s.entries) } := by
    refine h.of_store hrefl hown hlife halive
      (fun i t' sel' hi => (howner i t' sel').mpr (Or.inr hi)) (fun t' sel' i hne hi => ?_)
      (fun i hi => ?_)
      (KeyedTable.nodup_store (sameString_self sel) (own_sameString sel l) hnodup)
      (fun sel' j hj => ?_) fun sel' j hj => ?_
    · rcases (hscheduled t' sel' i).mp hi with ⟨rfl, -⟩ | ⟨hold, -⟩
      · exact absurd rfl hne
      · exact hold
    · have hlt : s.created < i := by
        rw [hcreated] at hi
        exact hi
      rw [htimers, Function.update_of_ne (Nat.ne_of_gt hlt)]
      refine hwithdraws.fresh h i ?_
      rw [hwithdraws.created]
      exact Nat.le_of_lt hlt
    · rcases hmem.mp hj with ⟨rfl, rfl⟩ | ⟨-, hold⟩
      · exact (howner s.created t sel').mpr (Or.inl ⟨rfl, rfl, rfl⟩)
      · exact (howner j t sel').mpr (Or.inr (hheld sel' j hold))
    · rcases (hscheduled t sel' j).mp hj with ⟨-, rfl, rfl, -⟩ | ⟨hold, hother⟩
      · exact hmem.mpr (Or.inl ⟨rfl, rfl⟩)
      · exact hmem.mpr (Or.inr ⟨fun heq => hother ⟨rfl, heq⟩, hlisted sel' j hold⟩)
  rw [hcall]
  refine ⟨?_, fun i t' sel' hi => (howner i t' sel').mpr (Or.inr hi),
    (howner s.created t sel).mpr (Or.inl ⟨rfl, rfl, rfl⟩), fun t' sel' i => ?_,
    fun i timer htimer hne => ?_, hcreated, hlife⟩
  · rw [← htable] at hsound
    exact hsound
  · rw [hscheduled, eq_comm (a := t), eq_comm (a := sel)]
  · have hlt := h.lt_created ⟨timer, htimer, rfl, rfl⟩
    rw [htimers, Function.update_of_ne (Nat.ne_of_lt hlt)]
    exact hwithdraws.others i timer htimer hne

end Perform

end Tables

/-! ### The run loop, and the end of a target -/

theorem fire_changes {timer : Timer T S A M} [DecidableEq T] (htimer : s.timers j = some timer) :
    Changes s (s.fire j) j fun timer => { timer with isFiring := true } := by
  refine ⟨?_, fun _ => rfl, fun _ => rfl, fun _ => rfl⟩
  rw [fire, htimer]
  rfl

/-- One timer is changed, and no table. -/
theorem Sound.of_changes {f : Timer T S A M → Timer T S A M} (h : Sound s)
    (hchanges : Changes s s' j f) (htable : s'.targetTable = s.targetTable)
    (hlife : s'.life = s.life) (hcreated : s'.created = s.created)
    (hscheduled : ∀ t sel i, s'.Scheduled t sel i → s.Scheduled t sel i) : Sound s' := by
  have hentries : s'.entries = s.entries := congrArg (Option.getD · []) htable
  refine h.of_subset (fun t halive => ?_) (fun i t sel => hchanges.owner.mpr) hscheduled
    (h.fresh_of_owner hcreated fun i t sel => hchanges.owner.mp) ?_ (fun t l hl _ => ?_)
    fun e he => ?_
  · rwa [hlife] at halive
  · rw [hentries]
  · rwa [hentries]
  · rw [hentries] at he
    rw [hlife]
    exact h.alive e he

section Life
variable [DecidableEq T]

theorem life_update {life : Life} (hlife : life ≠ .alive) {t' : T}
    (h : Function.update s.life t life t' = .alive) : t' ≠ t ∧ s.life t' = .alive := by
  by_cases hne : t' = t
  · rw [hne, Function.update_self] at h
    exact absurd h hlife
  · rw [Function.update_of_ne hne] at h
    exact ⟨hne, h⟩

/-- The key of the target is gone with it. -/
theorem Sound.dealloc (h : Sound s) : Sound (s.dealloc t) := by
  have hdeallocating : Life.deallocating ≠ .alive := by decide
  have hentries : (s.dealloc t).entries = s.entries.filter fun e => e.1 ≠ t := by
    rw [entries, Thread.dealloc, entries]
    cases s.targetTable with
    | none => rfl
    | some targetTable => rfl
  refine h.of_subset (fun t' halive => (life_update hdeallocating halive).2) (fun _ _ _ => id)
    (fun _ _ _ => id) h.fresh ?_ (fun t' l hl halive => ?_) fun e he => ?_
  · rw [hentries]
    exact List.filter_sublist
  · rw [hentries, List.mem_filter]
    exact ⟨hl, decide_eq_true (life_update hdeallocating halive).1⟩
  · rw [hentries, List.mem_filter] at he
    have hne : e.1 ≠ t := of_decide_eq_true he.2
    exact (Function.update_of_ne hne ..).trans (h.alive e he.1)

/-- A target that is gone was deallocating. -/
theorem Sound.free (h : Sound s) (hlife : s.life t = .deallocating) : Sound (s.free t) := by
  have hgone : Life.gone ≠ .alive := by decide
  refine h.of_subset (fun t' halive => (life_update hgone halive).2) (fun _ _ _ => id)
    (fun _ _ _ => id) h.fresh (List.Sublist.refl _) (fun _ _ hl _ => hl) fun e he => ?_
  have halive := h.alive e he
  have hne : e.1 ≠ t := by
    intro heq
    rw [heq, hlife] at halive
    cases halive
  exact (Function.update_of_ne hne ..).trans halive

end Life

end Thread

namespace System

variable {σ : System T S A M} {a : Action T S A M}

/-- A timer of the run loop is added for this target and selector. -/
def Adds (σ : System T S A M) : Action T S A M → T → S → Nat → Prop
  | .performSelector target aSelector _ modes, t, sel, i =>
      σ.thread.life target = .alive ∧ t = target ∧ sel = aSelector ∧ i = σ.thread.created ∧
        modes ≠ []
  | .cancelWithSelector _ _ _, _, _, _ | .cancel _, _, _, _ | .fire _, _, _, _ => False
  | .finish _, _, _, _ | .dealloc _, _, _, _ | .free _, _, _, _ => False

/-- What an action does to the timers of the run loop is what it is meant to do. -/
structure Effect (σ : System T S A M) (a : Action T S A M) (s' : Thread T S A M) : Prop where
  sound : s'.Sound
  owner : ∀ i t sel, σ.thread.Owner i t sel → s'.Owner i t sel
  new : ∀ t sel i, σ.Adds a t sel i → s'.Owner i t sel
  scheduled : ∀ t sel i, σ.thread.life t = .alive → (s'.Scheduled t sel i ↔
    σ.Adds a t sel i ∨ σ.thread.Scheduled t sel i ∧ ¬ σ.withdraws a t sel ∧ a ≠ .finish i)
  others : ∀ t ∈ a.target, ∀ i timer, σ.thread.timers i = some timer → timer.target ≠ t →
    s'.timers i = some timer
  created : σ.thread.created ≤ s'.created
  alive : ∀ t, s'.life t = .alive → σ.thread.life t = .alive

variable [DecidableEq T] [DecidableEq S]

/-- Pending is what was, but for what is withdrawn or done, and what is added. -/
theorem nextPending_iff {t : T} {sel : S} {i : Nat} :
    σ.nextPending a t sel = some i ↔ σ.Adds a t sel i ∨
      σ.pending t sel = some i ∧ ¬ σ.withdraws a t sel ∧ a ≠ .finish i := by
  cases a with
  | performSelector target aSelector object ms =>
      by_cases hnew : σ.thread.life target = .alive ∧ t = target ∧ sel = aSelector
      · obtain ⟨halive, rfl, rfl⟩ := hnew
        have hnext : σ.nextPending (.performSelector t sel object ms) t sel =
            if ms = [] then none else some σ.thread.created := if_pos ⟨halive, rfl, rfl⟩
        rw [hnext]
        by_cases hms : ms = []
        · simp [withdraws, Adds, hms, halive]
        · simp [withdraws, Adds, hms, halive, eq_comm]
      · have hnext : σ.nextPending (.performSelector target aSelector object ms) t sel =
            σ.pending t sel := if_neg hnew
        rw [hnext]
        refine ⟨fun h => Or.inr ⟨h, hnew, by simp⟩, ?_⟩
        rintro (⟨halive, ht, hsel, -⟩ | ⟨h, -⟩)
        · exact absurd ⟨halive, ht, hsel⟩ hnew
        · exact h
  | cancelWithSelector aTarget aSelector object =>
      by_cases hnone : t = aTarget ∧ sel = aSelector
      · simp [nextPending, withdraws, Adds, hnone]
      · simp [nextPending, withdraws, Adds, hnone]
  | cancel aTarget =>
      by_cases hnone : t = aTarget
      · simp [nextPending, withdraws, Adds, hnone]
      · simp [nextPending, withdraws, Adds, hnone]
  | finish j =>
      by_cases hnone : σ.pending t sel = some j
      · simp [nextPending, withdraws, Adds, hnone]
      · have hne : σ.pending t sel = some i → j ≠ i := by
          rintro h rfl
          exact hnone h
        simpa [nextPending, withdraws, Adds, hnone] using hne
  | fire j => simp [nextPending, withdraws, Adds]
  | dealloc target => simp [nextPending, withdraws, Adds]
  | free target => simp [nextPending, withdraws, Adds]

omit [DecidableEq T] [DecidableEq S] in
/-- A call that withdraws requests of its target. -/
theorem Effect.of_outcome {s' : Thread T S A M} {t : T} {P : S → Prop}
    (h : Thread.Outcome σ.thread s' t P) (htarget : a.target = some t)
    (hadds : ∀ t' sel i, ¬ σ.Adds a t' sel i)
    (hwithdraws : ∀ t' sel, σ.withdraws a t' sel ↔ t' = t ∧ P sel)
    (hfinish : ∀ i, a ≠ .finish i) : σ.Effect a s' where
  sound := h.sound
  owner := h.owner
  new := fun t' sel i hadd => absurd hadd (hadds t' sel i)
  scheduled := by
    intro t' sel i halive
    rw [h.scheduled t' sel i halive, hwithdraws, and_iff_left (hfinish i),
      or_iff_right (hadds t' sel i)]
  others := by
    intro t' ht'
    rw [htarget] at ht'
    cases ht'
    exact h.others
  created := Nat.le_of_eq h.created.symm
  alive := by
    intro t' halive
    rwa [h.life] at halive

omit [DecidableEq T] [DecidableEq S] in
/-- What leaves the timers of the run loop, but for one that is done. -/
theorem Effect.of_subset {s' : Thread T S A M} (hsound : s'.Sound)
    (howner : ∀ i t sel, σ.thread.Owner i t sel → s'.Owner i t sel)
    (hscheduled : ∀ t sel i,
      s'.Scheduled t sel i ↔ σ.thread.Scheduled t sel i ∧ a ≠ .finish i)
    (hothers : ∀ t ∈ a.target, ∀ i timer, σ.thread.timers i = some timer → timer.target ≠ t →
      s'.timers i = some timer)
    (hcreated : s'.created = σ.thread.created)
    (halive : ∀ t, s'.life t = .alive → σ.thread.life t = .alive)
    (hadds : ∀ t sel i, ¬ σ.Adds a t sel i) (hwithdraws : ∀ t sel, ¬ σ.withdraws a t sel) :
    σ.Effect a s' where
  sound := hsound
  owner := howner
  new := fun t sel i hadd => absurd hadd (hadds t sel i)
  scheduled := by
    intro t sel i _
    rw [hscheduled, or_iff_right (hadds t sel i), and_iff_right (hwithdraws t sel)]
  others := hothers
  created := Nat.le_of_eq hcreated.symm
  alive := halive

omit [DecidableEq T] in
theorem effect_performSelector {equal : T → T → Bool} (hrefl : ∀ t, equal t t = true)
    (h : σ.thread.Sound) (t : T) (sel : S) (object : Option A) (ms : List M)
    (hapart : σ.thread.life t = .alive → σ.thread.Own equal t) :
    σ.Effect (.performSelector t sel object ms)
      (σ.thread.performSelector equal t sel object ms) := by
  by_cases halive : σ.thread.life t = .alive
  · have hreplaces := h.performSelector hrefl (hapart halive) halive sel object ms
    refine ⟨hreplaces.sound, hreplaces.owner, ?_, fun t' sel' i _ => ?_, ?_, ?_, ?_⟩
    · rintro t' sel' i ⟨-, rfl, rfl, rfl, -⟩
      exact hreplaces.new
    · rw [hreplaces.scheduled]
      simp [Adds, withdraws, halive]
    · rintro t' ht'
      cases ht'
      exact hreplaces.others
    · rw [hreplaces.created]
      exact Nat.le_succ _
    · intro t' halive'
      rwa [hreplaces.life] at halive'
  · have hcall : σ.thread.performSelector equal t sel object ms = σ.thread := if_pos halive
    rw [hcall]
    refine .of_subset h (fun _ _ _ howner => howner) (fun t' sel' i => ?_)
      (fun _ _ _ _ htimer _ => htimer) rfl (fun _ halive => halive)
      (fun t' sel' i hadd => halive hadd.1) fun t' sel' hw => halive hw.1
    refine (and_iff_left ?_).symm
    intro heq
    cases heq

theorem effect_call {equal : T → T → Bool} (hrefl : ∀ t, equal t t = true)
    (h : σ.thread.Sound) (hen : σ.enabled a) (hapart : σ.Apart equal a) :
    σ.Effect a (σ.call equal a) := by
  cases a with
  | performSelector t sel object ms => exact effect_performSelector hrefl h t sel object ms hapart
  | cancelWithSelector t sel object =>
      refine .of_outcome (h.cancelWithSelector hrefl hapart object) rfl (fun _ _ _ => id)
        (fun _ _ => Iff.rfl) fun i heq => ?_
      cases heq
  | cancel t =>
      refine .of_outcome (h.cancel hrefl hapart) rfl (fun _ _ _ => id)
        (fun _ _ => (and_iff_left trivial).symm) fun i heq => ?_
      cases heq
  | fire j =>
      have hfinish : ∀ i, (.fire j : Action T S A M) ≠ .finish i := by
        intro i heq
        cases heq
      cases htimer : σ.thread.timers j with
      | none =>
          have hcall : σ.thread.fire j = σ.thread := by rw [Thread.fire, htimer]
          rw [call, hcall]
          exact .of_subset h (fun _ _ _ => id) (fun _ _ i => (and_iff_left (hfinish i)).symm)
            (fun _ _ _ _ htimer _ => htimer) rfl (fun _ => id) (fun _ _ _ => id) fun _ _ => id
      | some timer =>
          have hchanges := Thread.fire_changes htimer
          have hfields : (σ.thread.fire j).targetTable = σ.thread.targetTable ∧
              (σ.thread.fire j).life = σ.thread.life ∧
              (σ.thread.fire j).created = σ.thread.created := by
            rw [Thread.fire, htimer]
            exact ⟨rfl, rfl, rfl⟩
          obtain ⟨htable, hlife, hcreated⟩ := hfields
          have hscheduled : ∀ t sel i,
              (σ.thread.fire j).Scheduled t sel i ↔ σ.thread.Scheduled t sel i :=
            fun t sel i => hchanges.scheduled_of_valid fun _ => rfl
          refine .of_subset (h.of_changes hchanges htable hlife hcreated
            fun t sel i => (hscheduled t sel i).mp) (fun _ _ _ => hchanges.owner.mpr)
            (fun t sel i => ?_) (fun t ht => ?_) hcreated (fun t halive => ?_) (fun _ _ _ => id)
            fun _ _ => id
          · rw [and_iff_left (hfinish i)]
            exact hscheduled t sel i
          · cases ht
          · rwa [call, hlife] at halive
  | finish j =>
      have hchanges := Thread.finish_changes σ.thread j
      have hscheduled : ∀ t sel i, (σ.thread.finish j).Scheduled t sel i ↔
          σ.thread.Scheduled t sel i ∧ i ≠ j :=
        fun t sel i => hchanges.scheduled_of_invalid fun _ => rfl
      refine .of_subset (h.of_changes hchanges rfl rfl rfl
        fun t sel i hi => ((hscheduled t sel i).mp hi).1) (fun _ _ _ => hchanges.owner.mpr)
        (fun t sel i => ?_) (fun t ht => ?_) rfl (fun _ => id) (fun _ _ _ => id) fun _ _ => id
      · rw [ne_eq, Action.finish.injEq, eq_comm (a := j)]
        exact hscheduled t sel i
      · cases ht
  | dealloc t =>
      have hdeallocating : Life.deallocating ≠ .alive := by decide
      refine .of_subset h.dealloc (fun _ _ _ => id) (fun _ _ _ => (and_iff_left ?_).symm)
        (fun _ _ _ _ htimer _ => htimer) rfl
        (fun _ halive => (Thread.life_update hdeallocating halive).2) (fun _ _ _ => id)
        fun _ _ => id
      intro heq
      cases heq
  | free t =>
      have hgone : Life.gone ≠ .alive := by decide
      refine .of_subset (h.free hen) (fun _ _ _ => id) (fun _ _ _ => (and_iff_left ?_).symm)
        (fun _ _ _ _ htimer _ => htimer) rfl
        (fun _ halive => (Thread.life_update hgone halive).2) (fun _ _ _ => id) fun _ _ => id
      intro heq
      cases heq

/-! ## Every run -/

/-- The requests that are pending are the timers of the run loop. -/
structure Agrees (σ : System T S A M) : Prop where
  sound : σ.thread.Sound
  pending : ∀ t sel i, σ.thread.life t = .alive →
    (σ.thread.Scheduled t sel i ↔ σ.pending t sel = some i)
  owned : ∀ t sel i, σ.pending t sel = some i → σ.thread.Owner i t sel
  withdrawn : ∀ t sel i, σ.thread.life t = .alive → σ.thread.Scheduled t sel i → ¬ σ.withdrawn i
  withdrawn_lt : ∀ i, σ.withdrawn i → i < σ.thread.created

theorem Agrees.withdrawn_step {equal : T → T → Bool} (h : Agrees σ) {i : Nat}
    (hwithdrawn : (σ.step equal a).withdrawn i) : i < σ.thread.created := by
  rcases hwithdrawn with hold | ⟨t, sel, -, hpending⟩
  · exact h.withdrawn_lt i hold
  · exact h.sound.lt_created (h.owned t sel i hpending)

omit [DecidableEq T] [DecidableEq S] in
theorem Adds.eq_created {t : T} {sel : S} {i : Nat} (h : σ.Adds a t sel i) :
    i = σ.thread.created := by
  cases a with
  | performSelector target aSelector object ms => exact h.2.2.2.1
  | cancelWithSelector aTarget aSelector object => exact h.elim
  | cancel aTarget => exact h.elim
  | fire j => exact h.elim
  | finish j => exact h.elim
  | dealloc target => exact h.elim
  | free target => exact h.elim

theorem Agrees.step {equal : T → T → Bool} (hrefl : ∀ t, equal t t = true) (h : Agrees σ)
    (hen : σ.enabled a) (hapart : σ.Apart equal a) : Agrees (σ.step equal a) := by
  have heffect := effect_call hrefl h.sound hen hapart
  refine ⟨heffect.sound, fun t sel i halive => ?_, fun t sel i hpending => ?_,
    fun t sel i halive hscheduled hwithdrawn => ?_, fun i hwithdrawn => ?_⟩
  · have hbefore := heffect.alive t halive
    show (σ.call equal a).Scheduled t sel i ↔ σ.nextPending a t sel = some i
    rw [heffect.scheduled t sel i hbefore, nextPending_iff, h.pending t sel i hbefore]
  · rcases nextPending_iff.mp hpending with hadd | ⟨hold, -⟩
    · exact heffect.new t sel i hadd
    · exact heffect.owner i t sel (h.owned t sel i hold)
  · have hbefore := heffect.alive t halive
    rcases (heffect.scheduled t sel i hbefore).mp hscheduled with hadd | ⟨hold, hkept, -⟩
    · exact absurd hadd.eq_created (Nat.ne_of_lt (h.withdrawn_step hwithdrawn))
    · rcases hwithdrawn with hearlier | ⟨t', sel', hwithdraws, hpending⟩
      · exact h.withdrawn t sel i hbefore hold hearlier
      · obtain ⟨rfl, rfl⟩ := hold.owner.unique (h.owned t' sel' i hpending)
        exact hkept hwithdraws
  · exact Nat.lt_of_lt_of_le (h.withdrawn_step hwithdrawn) heffect.created

end System

variable [DecidableEq T] [DecidableEq S]

omit [DecidableEq T] [DecidableEq S] in
theorem not_scheduled_start {t : T} {sel : S} {i : Nat} :
    ¬ Thread.Scheduled (M := M) (A := A) ⟨none, fun _ => none, 0, fun _ => .alive, []⟩ t sel i := by
  rintro ⟨timer, htimer, -⟩
  cases htimer

theorem agrees_start (equal : T → T → Bool) : (machine T S A M equal).start.Agrees where
  sound :=
    { keys := List.nodup_nil
      alive := fun _ he => absurd he List.not_mem_nil
      selectors := fun _ he => absurd he List.not_mem_nil
      held := fun _ _ _ _ he => absurd he List.not_mem_nil
      listed := fun _ _ _ _ hscheduled => absurd hscheduled not_scheduled_start
      single := fun _ _ _ _ hscheduled => absurd hscheduled not_scheduled_start
      fresh := fun _ _ => rfl }
  pending := fun _ _ i _ => iff_of_false not_scheduled_start (Option.some_ne_none i).symm
  owned := fun _ _ i hpending => absurd hpending.symm (Option.some_ne_none i)
  withdrawn := fun _ _ _ _ _ => id
  withdrawn_lt := fun _ hwithdrawn => hwithdrawn.elim

theorem agrees_of_run {equal : T → T → Bool} (hrefl : ∀ t, equal t t = true)
    {as : List (Action T S A M)} {σ : System T S A M}
    (h : (machine T S A M equal).Run (System.Apart equal) as σ) : σ.Agrees := by
  refine h.invariant (agrees_start equal) fun σ a σ' hσ hen hapart hstep => ?_
  cases hstep
  exact hσ.step hrefl hen hapart

/-- If in a run no request and no cancellation finds the entry of another target than its own,
there is one valid timer of the run loop at most for each target and selector, and for a target
that is alive it is the one of the last request that was not cancelled and is not done; a timer
of a request that was cancelled or replaced sends no message; and an operation on one target
leaves every timer of another target as it is. -/
theorem requests_kept_apart {equal : T → T → Bool} (hrefl : ∀ t, equal t t = true)
    {as : List (Action T S A M)} {σ : System T S A M}
    (h : (machine T S A M equal).Run (System.Apart equal) as σ) :
    (∀ t sel i j, σ.thread.Scheduled t sel i → σ.thread.Scheduled t sel j → i = j) ∧
    (∀ t sel i, σ.thread.life t = .alive →
      (σ.thread.Scheduled t sel i ↔ σ.pending t sel = some i)) ∧
    (∀ i, σ.enabled (.fire i) → σ.withdrawn i →
      (σ.step equal (.fire i)).thread.performed = σ.thread.performed) ∧
    ∀ a, σ.enabled a → σ.Apart equal a → ∀ t ∈ a.target, ∀ i timer,
      σ.thread.timers i = some timer → timer.target ≠ t →
        (σ.step equal a).thread.timers i = some timer := by
  have hagrees := agrees_of_run hrefl h
  refine ⟨hagrees.sound.single, hagrees.pending, fun i hen hwithdrawn => ?_,
    fun a hen hapart => (System.effect_call hrefl hagrees.sound hen hapart).others⟩
  obtain ⟨timer, htimer, hvalid, hmodes, -⟩ := hen
  have hdead : σ.thread.life timer.target ≠ .alive := fun halive =>
    hagrees.withdrawn timer.target timer.action i halive
      ⟨timer, htimer, rfl, rfl, hvalid, hmodes⟩ hwithdrawn
  show (σ.thread.fire i).performed = _
  rw [Thread.fire, Option.mem_def.mp htimer]
  dsimp only
  rw [if_neg hdead, List.append_nil]

/-- A request is replaced, and one of another target is cancelled. -/
theorem requests_kept_apart_two : ∃ σ, (machine Nat Nat Nat Nat (· == ·)).Run
    (System.Apart (· == ·)) [.performSelector 1 0 none [0], .performSelector 2 0 none [0],
      .performSelector 1 0 (some 5) [0], .cancel 2, .fire 2] σ ∧
    ∀ i, σ.thread.Scheduled 1 0 i ↔ some 2 = some i := by
  have hrun : (machine Nat Nat Nat Nat (· == ·)).Run (System.Apart (· == ·))
      [.performSelector 1 0 none [0], .performSelector 2 0 none [0],
        .performSelector 1 0 (some 5) [0], .cancel 2, .fire 2] _ := Machine.run_of_exec rfl
  exact ⟨_, hrun, fun i => (requests_kept_apart beq_self_eq_true hrun).2.1 1 0 i rfl⟩

/-- With two targets that are equal, a request on one withdraws that of the other. -/
theorem equal_targets_share : ¬ ∀ σ, (machine Bool Nat Nat Nat fun _ _ => true).Reachable σ →
    ∀ a, σ.enabled a → ∀ t ∈ a.target, ∀ i timer, σ.thread.timers i = some timer →
      timer.target ≠ t → (σ.step (fun _ _ => true) a).thread.timers i = some timer := by
  intro hall
  have hrun : (machine Bool Nat Nat Nat fun _ _ => true).Reachable _ :=
    ⟨[.performSelector true 0 none [0]], Machine.run_of_exec rfl⟩
  have htimers := hall _ hrun (.performSelector false 0 none [0]) (by decide) false rfl 0 _ rfl
    (by decide)
  cases htimers

end DelayedPerforming

end Rx
