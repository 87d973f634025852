/-
# `RxFoundation.KeyValueObserverCallStates` — the states a pair passes through

`KVOCallState` is meant to go from `Default` to `WillChange` to `DidChange` and back,
and a pair that asked for old values is given the one its `will` has captured.  Here
changes of one key follow each other, a `will` and the `did` that answers it, and no
callback makes a call of its own (`Alternating`).

The `did` of a change goes on to the dependent keys, and the `will` does not: only in a
registration round does `_didChangeValueForKey` call `_willChangeValueForKey` for them
itself.  So a pair of a dependent key comes to `DidChange` straight from `Default`, with
null for the old value.  A run keeps the order of the states, and hands out the values
from before the change, exactly if it changes no key that somebody's key depends on
(`alternating_iff`).
-/
import CrashRealm.RxFoundation.KeyValueObserverQuiescence

namespace Rx

namespace KeyValueObserverInterface

open GraphWalk (Follows)

variable {K O V : Type}

/-! ## Changes that follow each other -/

/-- A subject, the key whose `did` is to come, and the values at the last `will`. -/
structure Alternating (K O V : Type) where
  subject : Subject K O V
  changing : Option K
  before : K → Any V

/-- `will` and `did` take turns while nothing runs, and observers stay. -/
def Alternating.Allows (c : Alternating K O V) : Action K O V → Prop
  | .willChangeValueForKey _ => c.subject.stack = [] ∧ c.changing = none
  | .didChangeValueForKey key => c.subject.stack = [] ∧ c.changing = some key
  | .setValue _ _ | .returns | .advance => True
  | .addObserver _ _ _ _ _ | .removeObserver _ _ => False

def Alternating.after (c : Alternating K O V) (subject : Subject K O V) :
    Action K O V → Alternating K O V
  | .willChangeValueForKey key => ⟨subject, some key, c.subject.value⟩
  | .didChangeValueForKey _ => ⟨subject, none, c.before⟩
  | _ => ⟨subject, c.changing, c.before⟩

instance [DecidableEq K] (c : Alternating K O V) : DecidablePred c.Allows
  | .willChangeValueForKey _ =>
      have : Decidable (c.subject.stack = []) := decidable_of_iff _ List.isEmpty_iff
      inferInstanceAs (Decidable (c.subject.stack = [] ∧ c.changing = none))
  | .didChangeValueForKey key =>
      have : Decidable (c.subject.stack = []) := decidable_of_iff _ List.isEmpty_iff
      inferInstanceAs (Decidable (c.subject.stack = [] ∧ c.changing = some key))
  | .setValue _ _ | .returns | .advance => inferInstanceAs (Decidable True)
  | .addObserver _ _ _ _ _ | .removeObserver _ _ => inferInstanceAs (Decidable False)

section machine

variable [DecidableEq K] [DecidableEq O] [BEq V] (keyPaths : K → List K)

/-- All runs of such changes, from this subject. -/
def alternating (s₀ : Subject K O V) :
    Machine (Alternating K O V) (Action K O V) Fault where
  start := ⟨s₀, none, s₀.value⟩
  enabled := fun c a => enabled c.subject a ∧ c.Allows a
  step := fun c a => step keyPaths c.subject a >>= fun subject => .ok (c.after subject a)

instance (s₀ : Subject K O V) (c : Alternating K O V) (a : Action K O V) :
    Decidable ((alternating keyPaths s₀).enabled c a) :=
  inferInstanceAs (Decidable (enabled c.subject a ∧ c.Allows a))

end machine

/-- From one state to the same, or to the next in the cycle. -/
def KVOCallState.Leads : KVOCallState → KVOCallState → Prop
  | .default, .willChange | .willChange, .didChange | .didChange, .default => True
  | state, state' => state = state'

/-- Every pair stays in the cycle. -/
def InCycle (pairs pairs' : Pairs O V) : Prop :=
  ∀ a p p', pairs a = some p → pairs' a = some p' → p.callState.Leads p'.callState

/-- An observer that is being told, and asked for old values, is given the value of the
key from before the change. -/
def Alternating.GivesOld (c : Alternating K O V) : Prop :=
  ∀ r rest a p, c.subject.stack = .callback :: .round r :: rest → r.current = some a →
    c.subject.pairs a = some p → (p.notifyKind &&& Kind.old) ≠ 0 →
    p.change.oldValue = c.before r.key

section conditions

variable [DecidableEq K] [DecidableEq O] [BEq V] (keyPaths : K → List K)

/-- The step keeps to the cycle, and tells nobody a wrong old value. -/
def InOrder (c : Alternating K O V) (a : Action K O V) : Prop :=
  ∀ s', step keyPaths c.subject a = .ok s' →
    InCycle c.subject.pairs s'.pairs ∧ (c.after s' a).GivesOld

/-- Nobody is registered for a key that depends on a changed one. -/
def Undepended (c : Alternating K O V) : Action K O V → Prop
  | .didChangeValueForKey key =>
      ∀ j, Relation.TransGen (Follows keyPaths) key j → c.subject.orders j = []
  | _ => True

end conditions

/-! ## Where a pair stands -/

/-- The pair is in this state, with this old value if it asked for one. -/
def KVOPair.Stands (pair : KVOPair O V) (state : KVOCallState) (old : Any V) : Prop :=
  pair.callState = state ∧ (pair.asksFor Kind.old = true → pair.change.oldValue = old)

theorem KVOPair.stands_willChange (pair : KVOPair O V) (value : Any V) :
    (pair.willChange value).Stands .willChange value := by
  rw [willChange_eq]
  exact ⟨rfl, fun hold => if_pos hold⟩

theorem KVOPair.Stands.didChange [BEq V] {pair : KVOPair O V} {old : Any V}
    (h : pair.Stands .willChange old) (value : Any V) (kind : Kind) (doCall : Bool) :
    (pair.didChange value kind doCall).1.Stands .didChange old := by
  rw [didChange_eq]
  exact ⟨rfl, h.2⟩

/-- The pairs a frame has ahead. -/
def Frame.pending : Frame K → List Nat
  | .round r => r.pending
  | .callback => []

/-- Where the pairs stand while keys change that nobody's key depends on. -/
structure InPhase (keyPaths : K → List K) (orders : K → List Nat) (pairs : Pairs O V)
    (stack : List (Frame K)) (changing : Option K) (before : K → Any V) : Prop where
  kind : ∀ r, Frame.round r ∈ stack → r.kind = Kind.new
  waiting : ∀ r, Frame.round r ∈ stack → ∀ a ∈ r.observers, ∀ p, pairs a = some p →
    p.Stands .willChange (before r.key)
  current : ∀ r, Frame.round r ∈ stack → ∀ a, r.current = some a → ∀ p, pairs a = some p →
    p.Stands .didChange (before r.key)
  willed : ∀ k, changing = some k → stack = [] ∧ ∀ a ∈ orders k, ∀ p, pairs a = some p →
    p.Stands .willChange (before k)
  once : (stack.flatMap Frame.pending).Nodup
  ahead : ∀ r, Frame.round r ∈ stack → ∀ k ∈ r.keyPaths,
    ∀ j, Relation.ReflTransGen (Follows keyPaths) k j → orders j = []

namespace InPhase

variable {keyPaths : K → List K} {orders : K → List Nat} {pairs : Pairs O V}
  {stack stack' : List (Frame K)} {changing : Option K} {before : K → Any V}

/-- While rounds are open no `did` is to come. -/
theorem changing_eq (h : InPhase keyPaths orders pairs stack changing before) (hne : stack ≠ []) :
    changing = none := by
  cases changing with
  | none => rfl
  | some k => exact absurd (h.willed k rfl).1 hne

/-- Frames go, or come that are callbacks. -/
theorem restack (h : InPhase keyPaths orders pairs stack changing before) (hne : stack ≠ [])
    (hmem : ∀ r, Frame.round r ∈ stack' → Frame.round r ∈ stack)
    (honce : (stack'.flatMap Frame.pending).Nodup) :
    InPhase keyPaths orders pairs stack' changing before where
  kind := fun r hr => h.kind r (hmem r hr)
  waiting := fun r hr => h.waiting r (hmem r hr)
  current := fun r hr => h.current r (hmem r hr)
  willed := by
    intro k hk
    cases (h.changing_eq hne).symm.trans hk
  once := honce
  ahead := fun r hr => h.ahead r (hmem r hr)

theorem callback (h : InPhase keyPaths orders pairs stack changing before) (hne : stack ≠ []) :
    InPhase keyPaths orders pairs (.callback :: stack) changing before :=
  h.restack hne (fun _ hr => (List.mem_cons.mp hr).resolve_left fun h => nomatch h) h.once

theorem tail {frame : Frame K}
    (h : InPhase keyPaths orders pairs (frame :: stack) changing before) :
    InPhase keyPaths orders pairs stack changing before := by
  have honce : (frame.pending ++ stack.flatMap Frame.pending).Nodup := h.once
  exact h.restack (List.cons_ne_nil _ _) (fun _ => List.mem_cons_of_mem _)
    (honce.sublist (List.sublist_append_right _ _))

/-- A round over nobody begins. -/
theorem push (h : InPhase keyPaths orders pairs stack none before) {r : Round K}
    (hkind : r.kind = Kind.new) (hpending : r.pending = [])
    (hahead : ∀ k ∈ r.keyPaths, ∀ j, Relation.ReflTransGen (Follows keyPaths) k j → orders j = []) :
    InPhase keyPaths orders pairs (.round r :: stack) none before := by
  obtain ⟨hcurrent, hobservers⟩ := List.append_eq_nil_iff.mp hpending
  refine ⟨Frame.forall_round_cons hkind h.kind, Frame.forall_round_cons (fun a ha => ?_) h.waiting,
    Frame.forall_round_cons (fun a ha => ?_) h.current, fun k hk => (nomatch hk), ?_,
    Frame.forall_round_cons hahead h.ahead⟩
  · rw [hobservers] at ha
    cases ha
  · rw [ha] at hcurrent
    cases hcurrent
  · rw [List.flatMap_cons, Frame.pending, hpending]
    exact h.once

/-- The turn of a pair begins or ends. -/
theorem turn {r r' : Round K} {rest : List (Frame K)} {a : Nat} {p : KVOPair O V}
    (h : InPhase keyPaths orders pairs (.round r :: rest) changing before)
    (hkey : r'.key = r.key) (hkind : r'.kind = r.kind) (hpaths : r'.keyPaths = r.keyPaths)
    (ha : a ∈ r.pending) (hpending : r'.pending.Sublist r.pending)
    (hobservers : ∀ b ∈ r'.observers, b ∈ r.observers ∧ b ≠ a)
    (hcurrent : ∀ b, r'.current = some b → b = a ∧ p.Stands .didChange (before r.key)) :
    InPhase keyPaths orders (Function.update pairs a (some p)) (.round r' :: rest) changing
      before := by
  have hr : Frame.round r ∈ Frame.round r :: rest := List.mem_cons_self
  have honce : (r.pending ++ rest.flatMap Frame.pending).Nodup := h.once
  have hother : ∀ r'', Frame.round r'' ∈ rest → ∀ b ∈ r''.pending, b ≠ a := by
    rintro r'' hr'' b hb rfl
    have hin : b ∈ rest.flatMap Frame.pending := List.mem_flatMap.mpr ⟨.round r'', hr'', hb⟩
    exact (List.nodup_append.mp honce).2.2 b ha b hin rfl
  refine ⟨?_, ?_, ?_, fun k hk => ?_, honce.sublist (hpending.append_right _), ?_⟩
  · exact Frame.forall_round_cons (hkind.trans (h.kind r hr)) h.tail.kind
  · refine Frame.forall_round_cons (fun b hb q hq => ?_) fun r'' hr'' b hb q hq => ?_
    · obtain ⟨hin, hba⟩ := hobservers b hb
      rw [Function.update_of_ne hba] at hq
      rw [hkey]
      exact h.waiting r hr b hin q hq
    · rw [Function.update_of_ne (hother r'' hr'' b (List.mem_append_right _ hb))] at hq
      exact h.tail.waiting r'' hr'' b hb q hq
  · refine Frame.forall_round_cons (fun b hb q hq => ?_) fun r'' hr'' b hb q hq => ?_
    · obtain ⟨rfl, hstands⟩ := hcurrent b hb
      rw [Function.update_self] at hq
      cases hq
      rw [hkey]
      exact hstands
    · have hin : b ∈ r''.pending := List.mem_append_left _ (hb ▸ List.mem_cons_self)
      rw [Function.update_of_ne (hother r'' hr'' b hin)] at hq
      exact h.tail.current r'' hr'' b hb q hq
  · cases (h.changing_eq (List.cons_ne_nil _ _)).symm.trans hk
  · exact Frame.forall_round_cons (hpaths ▸ h.ahead r hr) h.tail.ahead

end InPhase

/-! ## The cycle -/

theorem KVOCallState.Leads.refl (state : KVOCallState) : state.Leads state := by
  cases state <;> rfl

namespace InCycle

variable {pairs : Pairs O V}

theorem refl (pairs : Pairs O V) : InCycle pairs pairs := by
  intro a p p' hp hp'
  cases hp.symm.trans hp'
  exact .refl _

theorem update {a : Nat} {p p' : KVOPair O V} (hp : pairs a = some p)
    (h : p.callState.Leads p'.callState) :
    InCycle pairs (Function.update pairs a (some p')) := by
  intro b q q' hq hq'
  by_cases hba : b = a
  · subst hba
    rw [Function.update_self] at hq'
    cases hp.symm.trans hq
    cases hq'
    exact h
  · rw [Function.update_of_ne hba] at hq'
    exact refl pairs b q q' hq hq'

end InCycle

section steps

variable [DecidableEq K] {keyPaths : K → List K} {s : Subject K O V} {changing : Option K}
  {before : K → Any V}

/-- A `will` finds every pair at rest. -/
theorem Subject.Willed.inCycle {key : K} {pairs : Pairs O V} (hwilled : s.Willed key pairs)
    (hrest : ∀ a ∈ s.orders key, ∀ p, s.pairs a = some p → p.AtRest) : InCycle s.pairs pairs := by
  intro a p p' hp hp'
  by_cases hin : a ∈ s.orders key
  · obtain ⟨q, hq, hq'⟩ := hwilled.2 a hin
    cases hp.symm.trans hq
    cases hp'.symm.trans hq'
    rw [(hrest a hin p hp).1, (p.stands_willChange _).1]
    trivial
  · rw [hwilled.1 a hin] at hp'
    exact InCycle.refl s.pairs a p p' hp hp'

/-- A `will` captures the values it finds. -/
theorem Subject.Willed.inPhase {key : K} {pairs : Pairs O V} (hwilled : s.Willed key pairs) :
    InPhase keyPaths s.orders pairs [] (some key) s.value where
  kind := fun _ hr => nomatch hr
  waiting := fun _ hr => nomatch hr
  current := fun _ hr => nomatch hr
  willed := by
    intro k hk
    cases hk
    refine ⟨rfl, fun a ha p hp => ?_⟩
    obtain ⟨q, -, hq⟩ := hwilled.2 a ha
    cases hp.symm.trans hq
    exact q.stands_willChange _
  once := List.nodup_nil
  ahead := fun _ hr => nomatch hr

/-- The round of a `did` has willed pairs before it, and nobody after it. -/
theorem InPhase.enter (h : Ordered s.orders s.pairs s.stack) {key : K}
    (hphase : InPhase keyPaths s.orders s.pairs [] (some key) before)
    (hundepended : ∀ j, Relation.TransGen (Follows keyPaths) key j → s.orders j = []) :
    InPhase keyPaths s.orders s.pairs [.round (s.entered keyPaths key Kind.new true)] none
      before where
  kind := Frame.forall_round_cons rfl fun _ hr => nomatch hr
  waiting := Frame.forall_round_cons (hphase.willed key rfl).2 fun _ hr => nomatch hr
  current := Frame.forall_round_cons (fun _ ha => nomatch ha) fun _ hr => nomatch hr
  willed := fun _ hk => nomatch hk
  once := by
    show (s.orders key ++ []).Nodup
    rw [List.append_nil]
    exact h.nodup key
  ahead := Frame.forall_round_cons (fun k hk j hkj => hundepended j (.head' hk hkj))
    fun _ hr => nomatch hr

variable [BEq V]

/-- A round takes a step: the turn of a pair, or an empty round of a dependent key. -/
theorem advance_inPhase (h : Ordered s.orders s.pairs s.stack)
    (hphase : InPhase keyPaths s.orders s.pairs s.stack changing before) :
    Ends anyFault (s.advance keyPaths) fun s' => InCycle s.pairs s'.pairs ∧
      InPhase keyPaths s'.orders s'.pairs s'.stack changing before := by
  rw [Subject.advance]
  split
  next r rest hstack =>
    rw [hstack] at h hphase
    have hr : Frame.round r ∈ Frame.round r :: rest := List.mem_cons_self
    cases hcurrent : r.current with
    | some a =>
        rw [Subject.advanceRound_of_current keyPaths hcurrent]
        refine (s.endTurn_ends r a rest).mono ?_
        rintro s' ⟨p, hp, rfl⟩
        have hpending : r.pending = a :: r.observers := by rw [Round.pending, hcurrent]; rfl
        have hnodup : (a :: r.observers).Nodup := by
          rw [← hpending]
          exact (List.nodup_append.mp hphase.once).1
        constructor
        · refine InCycle.update hp ?_
          rw [(hphase.current r hr a hcurrent p hp).1]
          trivial
        · refine hphase.turn rfl rfl rfl (hpending ▸ List.mem_cons_self)
            (List.sublist_append_right _ _) (fun b hb => ⟨hb, ?_⟩) fun b hb => ?_
          · rintro rfl
            exact (List.nodup_cons.mp hnodup).1 hb
          · cases hb
    | none =>
        have hpending : r.pending = r.observers := by rw [Round.pending, hcurrent]; rfl
        refine (Subject.advanceRound_ends keyPaths h).mono fun s' hadvanced => ?_
        cases hadvanced with
        | endTurn a p hcurrent' _ _ => cases hcurrent.symm.trans hcurrent'
        | beginTurn a observers p _ hobservers hp hs' =>
            subst hs'
            have hin : a ∈ r.observers := hobservers ▸ List.mem_cons_self
            have hstands := hphase.waiting r hr a hin p hp
            have hturn := hstands.didChange (s.value r.key) r.kind r.doCall
            rw [hobservers] at hpending
            have hnodup : (a :: observers).Nodup := by
              rw [← hpending]
              exact (List.nodup_append.mp hphase.once).1
            have hcycle : InCycle s.pairs (Function.update s.pairs a
                (some (p.didChange (s.value r.key) r.kind r.doCall).1)) := by
              refine InCycle.update hp ?_
              rw [hstands.1, hturn.1]
              trivial
            have hnext : InPhase keyPaths s.orders (Function.update s.pairs a
                (some (p.didChange (s.value r.key) r.kind r.doCall).1))
                (.round { r with current := some a, observers } :: rest) changing before := by
              refine hphase.turn rfl rfl rfl (hpending ▸ List.mem_cons_self) ?_ (fun b hb => ?_)
                fun b hb => ?_
              · rw [hpending]
                exact List.Sublist.refl _
              · refine ⟨hobservers ▸ List.mem_cons_of_mem a hb, ?_⟩
                rintro rfl
                exact (List.nodup_cons.mp hnodup).1 hb
              · cases hb
                exact ⟨rfl, hturn⟩
            exact Subject.afterTurn_holds (fun orders pairs stack => InCycle s.pairs pairs ∧
                InPhase keyPaths orders pairs stack changing before)
              ⟨hcycle, hnext⟩ ⟨hcycle, hnext.callback (List.cons_ne_nil _ _)⟩
        | keyPath keyPath more pairs _ hobservers hmore hwilled hs' =>
            have hsame : pairs = s.pairs := by
              rcases hwilled with ⟨hinit, -⟩ | ⟨-, hsame⟩
              · exact absurd ((hphase.kind r hr).symm.trans hinit) (by decide)
              · exact hsame
            subst hsame
            have hchanging := hphase.changing_eq (List.cons_ne_nil _ _)
            subst hchanging
            have hahead := hphase.ahead r hr
            rw [hmore] at hahead
            have hround : InPhase keyPaths s.orders s.pairs
                (.round { r with keyPaths := more } :: rest) none before :=
              hphase.tail.push (hphase.kind r hr) (hpending.trans hobservers)
                fun k hk => hahead k (List.mem_cons_of_mem _ hk)
            rcases hs' with ⟨-, rfl⟩ | rfl
            · exact ⟨.refl _, hround⟩
            · refine ⟨.refl _, hround.push (hphase.kind r hr) ?_ fun k hk j hkj => ?_⟩
              · exact hahead keyPath List.mem_cons_self keyPath .refl
              · exact hahead keyPath List.mem_cons_self j (.head hk hkj)
        | finish _ _ hs' =>
            subst hs'
            exact ⟨.refl _, hphase.tail⟩
  next => exact ⟨.refl _, hphase⟩

end steps

/-! ## Runs that keep the order -/

/-- The bracket that is open. -/
def Alternating.brackets (c : Alternating K O V) : List (K × Nat) :=
  c.changing.toList.map fun key => (key, 0)

section runs

variable [DecidableEq K] [DecidableEq O] {keyPaths : K → List K} {s₀ : Subject K O V}
  {c : Alternating K O V}

/-- What holds while keys change that nobody's key depends on. -/
structure Alternating.Sound (keyPaths : K → List K) (c : Alternating K O V) : Prop where
  ordered : Ordered c.subject.orders c.subject.pairs c.subject.stack
  settled : Settled c.subject.orders c.subject.pairs c.subject.stack c.brackets
  phase : InPhase keyPaths c.subject.orders c.subject.pairs c.subject.stack c.changing c.before

omit [DecidableEq O] in
theorem Alternating.Sound.givesOld (h : c.Sound keyPaths) : c.GivesOld := by
  intro r rest a p hstack hcurrent hp hold
  have hr : Frame.round r ∈ c.subject.stack := by
    rw [hstack]
    exact List.mem_cons_of_mem _ List.mem_cons_self
  exact (h.phase.current r hr a hcurrent p hp).2 (bne_iff_ne.mpr hold)

omit [DecidableEq O] in
/-- Outside changes every pair is at rest. -/
theorem Alternating.Sound.atRest (h : c.Sound keyPaths) (hidle : c.subject.stack = [])
    (hchanging : c.changing = none) {key : K} :
    ∀ a ∈ c.subject.orders key, ∀ p, c.subject.pairs a = some p → p.AtRest := by
  intro a ha
  rcases h.settled key a ha with hrest | ⟨n, hopen⟩ | ⟨r, hr, -⟩
  · exact hrest
  · rw [brackets, hchanging] at hopen
    cases hopen
  · rw [hidle] at hr
    cases hr

omit [DecidableEq K] [DecidableEq O] in
/-- Changes that follow each other are brackets that do not nest. -/
theorem Alternating.Allows.brackets {a : Action K O V} (hallows : c.Allows a)
    (hen : enabled c.subject a) (s' : Subject K O V) :
    (⟨c.subject, c.brackets⟩ : Session K O V).Brackets a ∧
      (⟨c.subject, c.brackets⟩ : Session K O V).bracketsAfter a = (c.after s' a).brackets := by
  cases a with
  | addObserver => exact hallows.elim
  | removeObserver => exact hallows.elim
  | willChangeValueForKey key =>
      obtain ⟨hidle, hchanging⟩ := hallows
      refine ⟨trivial, ?_⟩
      show (key, c.subject.stack.length) :: c.brackets = [(key, 0)]
      rw [Alternating.brackets, hidle, hchanging]
      rfl
  | didChangeValueForKey key =>
      obtain ⟨hidle, hchanging⟩ := hallows
      have hbrackets : c.brackets = [(key, 0)] := by
        rw [Alternating.brackets, hchanging]
        rfl
      constructor
      · show c.brackets.head? = some (key, c.subject.stack.length)
        rw [hbrackets, hidle]
        rfl
      · show c.brackets.tail = []
        rw [hbrackets]
        rfl
  | setValue => exact ⟨trivial, rfl⟩
  | returns =>
      obtain ⟨rest, hstack⟩ := stack_of_returns hen
      refine ⟨fun bracket hin => ?_, rfl⟩
      have hmem : bracket ∈ c.brackets := List.mem_of_mem_head? hin
      obtain ⟨key, -, rfl⟩ := List.mem_map.mp hmem
      show 0 ≠ c.subject.stack.length
      rw [hstack]
      exact (Nat.succ_ne_zero _).symm
  | advance => exact ⟨trivial, rfl⟩

variable [BEq V]

theorem step_inPhase (h : c.Sound keyPaths) {a : Action K O V} (hallows : c.Allows a)
    (hen : enabled c.subject a) (hundepended : Undepended keyPaths c a) :
    Ends anyFault (step keyPaths c.subject a) fun s' => InCycle c.subject.pairs s'.pairs ∧
      InPhase keyPaths s'.orders s'.pairs s'.stack (c.after s' a).changing
        (c.after s' a).before := by
  have hphase := h.phase
  cases a with
  | addObserver => exact hallows.elim
  | removeObserver => exact hallows.elim
  | willChangeValueForKey key =>
      obtain ⟨hidle, hchanging⟩ := hallows
      refine (Subject.willChange_ends h.ordered key Kind.new_valid).mono fun s' hs' => ?_
      obtain ⟨pairs, rfl, hwilled⟩ := hs'
      refine ⟨hwilled.inCycle (h.atRest hidle hchanging), ?_⟩
      show InPhase keyPaths c.subject.orders pairs c.subject.stack (some key) c.subject.value
      rw [hidle]
      exact hwilled.inPhase
  | didChangeValueForKey key =>
      obtain ⟨hidle, hchanging⟩ := hallows
      rw [hidle, hchanging] at hphase
      have hentered := hphase.enter h.ordered hundepended
      refine (Subject.enterDidChange_ends keyPaths h.ordered key Kind.new_valid
        true).mono fun s' hs' => ?_
      rcases hs' with ⟨-, rfl⟩ | rfl
      · refine ⟨.refl _, ?_⟩
        show InPhase keyPaths c.subject.orders c.subject.pairs c.subject.stack none c.before
        rw [hidle]
        exact hentered.tail
      · refine ⟨.refl _, ?_⟩
        show InPhase keyPaths c.subject.orders c.subject.pairs (_ :: c.subject.stack) none c.before
        rw [hidle]
        exact hentered
  | setValue => exact ⟨.refl _, hphase⟩
  | returns =>
      obtain ⟨rest, hstack⟩ := stack_of_returns hen
      refine ⟨.refl _, ?_⟩
      show InPhase keyPaths c.subject.orders c.subject.pairs c.subject.stack.tail c.changing c.before
      rw [hstack] at hphase ⊢
      exact hphase.tail
  | advance => exact advance_inPhase h.ordered hphase

/-- A step that changes no key somebody's key depends on keeps the order. -/
theorem step_sound (h : c.Sound keyPaths) {a : Action K O V} (hallows : c.Allows a)
    (hen : enabled c.subject a) (hundepended : Undepended keyPaths c a) {s' : Subject K O V}
    (hstep : step keyPaths c.subject a = .ok s') :
    InCycle c.subject.pairs s'.pairs ∧ (c.after s' a).Sound keyPaths := by
  obtain ⟨hbrackets, hafter⟩ := hallows.brackets hen s'
  have hsubject : (c.after s' a).subject = s' := by cases a <;> rfl
  have hordered := Ends.of_ok (P := fun s => Ordered s.orders s.pairs s.stack) hstep
    (step_ordered h.ordered hen)
  let session : Session K O V := ⟨c.subject, c.brackets⟩
  have hends : Ends anyFault (step keyPaths session.subject a) fun s =>
      Settled s.orders s.pairs s.stack (session.bracketsAfter a) :=
    step_settled h.ordered h.settled hen hbrackets
  have hsettled := Ends.of_ok hstep hends
  obtain ⟨hcycle, hphase⟩ := Ends.of_ok hstep (step_inPhase h hallows hen hundepended)
  refine ⟨hcycle, ?_, ?_, ?_⟩
  · rw [hsubject]
    exact hordered
  · rw [hsubject, ← hafter]
    exact hsettled
  · rw [hsubject]
    exact hphase

/-- What one run keeps another does, with its invariant. -/
theorem sound_of_run (hstart : (⟨s₀, none, s₀.value⟩ : Alternating K O V).Sound keyPaths)
    {as : List (Action K O V)} (hrun : (alternating keyPaths s₀).Run (Undepended keyPaths) as c) :
    c.Sound keyPaths ∧ (alternating keyPaths s₀).Run (InOrder keyPaths) as c := by
  induction hrun with
  | start => exact ⟨hstart, .start⟩
  | @step as c c' a _ hen hundepended hstep ih =>
      obtain ⟨hsound, hrun⟩ := ih
      have hinOrder : InOrder keyPaths c a := by
        intro s' hs'
        obtain ⟨hcycle, hnext⟩ := step_sound hsound hen.2 hen.1 hundepended hs'
        exact ⟨hcycle, hnext.givesOld⟩
      obtain ⟨s', hs', hc'⟩ := bind_eq_ok.mp hstep
      have hnext := (step_sound hsound hen.2 hen.1 hundepended hs').2
      cases hc'
      exact ⟨hnext, .step hrun hen hinOrder hstep⟩

/-! ## Pairs that a round will come to unprepared -/

/-- A pair of this key is in `Default`, and a round will come to it. -/
structure Due (keyPaths : K → List K) (orders : K → List Nat) (pairs : Pairs O V)
    (stack : List (Frame K)) (key : K) (address : Nat) : Prop where
  mem : address ∈ orders key
  default : ∀ p, pairs address = some p → p.callState = .default
  kind : ∀ r, Frame.round r ∈ stack → r.kind = Kind.new
  ahead : ∃ r, Frame.round r ∈ stack ∧ (r.key = key ∧ address ∈ r.observers ∨
    ∃ k ∈ r.keyPaths, Relation.ReflTransGen (Follows keyPaths) k key)

namespace Due

variable {orders : K → List Nat} {pairs pairs' : Pairs O V} {stack rest : List (Frame K)}
  {key : K} {address : Nat}

omit [DecidableEq K] [DecidableEq O] [BEq V]

theorem callback (h : Due keyPaths orders pairs stack key address) :
    Due keyPaths orders pairs (.callback :: stack) key address := by
  obtain ⟨r, hr, hway⟩ := h.ahead
  refine ⟨h.mem, h.default, fun r' hr' => h.kind r' ?_, r, List.mem_cons_of_mem _ hr, hway⟩
  exact (List.mem_cons.mp hr').resolve_left fun h => nomatch h

/-- A round may go that does not come to the pair. -/
theorem tail {frame : Frame K} (h : Due keyPaths orders pairs (frame :: stack) key address)
    (hframe : ∀ r, frame = .round r → r.observers = [] ∧ r.keyPaths = []) :
    Due keyPaths orders pairs stack key address := by
  refine ⟨h.mem, h.default, fun r hr => h.kind r (List.mem_cons_of_mem _ hr), ?_⟩
  obtain ⟨r, hr, hway⟩ := h.ahead
  rcases List.mem_cons.mp hr with hr | hr
  · obtain ⟨hobservers, hnil⟩ := hframe r hr.symm
    rcases hway with ⟨-, hin⟩ | ⟨k, hk, -⟩
    · rw [hobservers] at hin
      cases hin
    · rw [hnil] at hk
      cases hk
  · exact ⟨r, hr, hway⟩

/-- The innermost round gives way to one that comes to the pair if it did. -/
theorem replace {r r' : Round K} (h : Due keyPaths orders pairs (.round r :: rest) key address)
    (hdefault : ∀ p, pairs' address = some p → p.callState = .default) (hkind : r'.kind = r.kind)
    (hkey : r'.key = r.key) (hobservers : address ∈ r.observers → address ∈ r'.observers)
    (hpaths : r'.keyPaths = r.keyPaths) :
    Due keyPaths orders pairs' (.round r' :: rest) key address := by
  have hr : Frame.round r ∈ Frame.round r :: rest := List.mem_cons_self
  refine ⟨h.mem, hdefault, Frame.forall_round_cons (hkind.trans (h.kind r hr)) fun r'' hr'' =>
    h.kind r'' (List.mem_cons_of_mem _ hr''), ?_⟩
  obtain ⟨r'', hr'', hway⟩ := h.ahead
  rcases Frame.round_mem_cons.mp hr'' with rfl | hr''
  · refine ⟨r', List.mem_cons_self, ?_⟩
    rw [hkey, hpaths]
    exact hway.imp_left fun ⟨hkey, hin⟩ => ⟨hkey, hobservers hin⟩
  · exact ⟨r'', List.mem_cons_of_mem _ hr'', hway⟩

/-- A round goes on to a dependent key, and with it the way to the pair. -/
theorem enter {r r' : Round K} {keyPath : K} {more : List K}
    (h : Due keyPaths orders pairs (.round r :: rest) key address)
    (hobservers : r.observers = []) (hmore : r.keyPaths = keyPath :: more)
    (hkind : r'.kind = r.kind) (hkey : r'.key = keyPath) (hall : r'.observers = orders keyPath)
    (hpaths : r'.keyPaths = keyPaths keyPath) :
    Due keyPaths orders pairs (.round r' :: .round { r with keyPaths := more } :: rest) key
      address := by
  have hr : Frame.round r ∈ Frame.round r :: rest := List.mem_cons_self
  refine ⟨h.mem, h.default, Frame.forall_round_cons (hkind.trans (h.kind r hr))
    (Frame.forall_round_cons (h.kind r hr) fun r'' hr'' => h.kind r'' (List.mem_cons_of_mem _ hr'')), ?_⟩
  obtain ⟨r'', hr'', hway⟩ := h.ahead
  rcases Frame.round_mem_cons.mp hr'' with rfl | hr''
  · rcases hway with ⟨-, hin⟩ | ⟨k, hk, hleads⟩
    · rw [hobservers] at hin
      cases hin
    rw [hmore] at hk
    rcases List.mem_cons.mp hk with rfl | hk
    · refine ⟨r', List.mem_cons_self, ?_⟩
      rcases Relation.ReflTransGen.cases_head hleads with rfl | ⟨next, hnext, hleads'⟩
      · exact .inl ⟨hkey, hall ▸ h.mem⟩
      · exact .inr ⟨next, hpaths ▸ hnext, hleads'⟩
    · exact ⟨_, List.mem_cons_of_mem _ List.mem_cons_self, .inr ⟨k, hk, hleads⟩⟩
  · exact ⟨r'', List.mem_cons_of_mem _ (List.mem_cons_of_mem _ hr''), hway⟩

end Due

omit [DecidableEq O] in
/-- A round does not come to the pair, if it keeps to the cycle. -/
theorem advance_due {s s' : Subject K O V} {key : K} {address : Nat}
    (hordered : Ordered s.orders s.pairs s.stack)
    (h : Due keyPaths s.orders s.pairs s.stack key address) (hstep : s.advance keyPaths = .ok s')
    (hcycle : InCycle s.pairs s'.pairs) :
    Due keyPaths s'.orders s'.pairs s'.stack key address := by
  rw [Subject.advance] at hstep
  split at hstep
  next r rest hstack =>
    rw [hstack] at hordered h
    cases Ends.of_ok hstep (Subject.advanceRound_ends keyPaths hordered) with
    | endTurn a p hcurrent hp hs' =>
        subst hs'
        refine h.replace (fun q hq => ?_) (Eq.refl r.kind) (Eq.refl r.key) id
          (Eq.refl r.keyPaths)
        have hq' : Function.update s.pairs a (some p.didChangeDone) address = some q := hq
        by_cases hba : address = a
        · subst hba
          rw [Function.update_self] at hq'
          cases hq'
          rfl
        · rw [Function.update_of_ne hba] at hq'
          exact h.default q hq'
    | beginTurn a observers p hcurrent hobservers hp hs' =>
        subst hs'
        have hne : address ≠ a := by
          rintro rfl
          have hleads := hcycle address p _ hp
            (by rw [Subject.afterTurn_pairs, Function.update_self])
          rw [h.default p hp, KVOPair.didChange_eq] at hleads
          cases hleads
        have hnext : Due keyPaths s.orders (Function.update s.pairs a
            (some (p.didChange (s.value r.key) r.kind r.doCall).1))
            (.round { r with current := some a, observers } :: rest) key address := by
          refine h.replace (fun q hq => h.default q ?_) rfl rfl (fun hin => ?_) rfl
          · rw [Function.update_of_ne hne] at hq
            exact hq
          · rw [hobservers] at hin
            exact (List.mem_cons.mp hin).resolve_left hne
        exact Subject.afterTurn_holds
          (fun orders pairs stack => Due keyPaths orders pairs stack key address)
          hnext hnext.callback
    | keyPath keyPath more pairs _ hobservers hmore hwilled hs' =>
        have hsame : pairs = s.pairs := by
          rcases hwilled with ⟨hinit, -⟩ | ⟨-, hsame⟩
          · exact absurd ((h.kind r List.mem_cons_self).symm.trans hinit) (by decide)
          · exact hsame
        subst hsame
        rcases hs' with ⟨hempty, -⟩ | rfl
        · have hmem := h.mem
          rw [Subject.orders_of_isEmpty hempty] at hmem
          cases hmem
        · exact h.enter hobservers hmore rfl rfl rfl rfl
    | finish hobservers hnil hs' =>
        subst hs'
        refine h.tail fun r' hr' => ?_
        cases hr'
        exact ⟨hobservers, hnil⟩
  next =>
    cases hstep
    exact h

theorem step_due {key : K} {address : Nat}
    (hordered : Ordered c.subject.orders c.subject.pairs c.subject.stack)
    (h : Due keyPaths c.subject.orders c.subject.pairs c.subject.stack key address)
    {a : Action K O V} (hallows : c.Allows a) (hen : enabled c.subject a) {s' : Subject K O V}
    (hstep : step keyPaths c.subject a = .ok s') (hcycle : InCycle c.subject.pairs s'.pairs) :
    Due keyPaths s'.orders s'.pairs s'.stack key address := by
  have hbusy : c.subject.stack ≠ [] := by
    intro hidle
    obtain ⟨r, hr, -⟩ := h.ahead
    rw [hidle] at hr
    cases hr
  cases a with
  | addObserver => exact hallows.elim
  | removeObserver => exact hallows.elim
  | willChangeValueForKey k => exact absurd hallows.1 hbusy
  | didChangeValueForKey k => exact absurd hallows.1 hbusy
  | setValue k value =>
      cases hstep
      exact h
  | returns =>
      obtain ⟨rest, hstack⟩ := stack_of_returns hen
      cases hstep
      show Due keyPaths c.subject.orders c.subject.pairs c.subject.stack.tail key address
      rw [hstack] at h ⊢
      exact h.tail fun r hr => nomatch hr
  | advance => exact advance_due hordered h hstep hcycle

/-- The `did` of a key that somebody's key depends on will come to a pair in `Default`. -/
theorem due_of_didChange (h : c.Sound keyPaths) {key j : K} {address : Nat}
    (hidle : c.subject.stack = []) (hchanging : c.changing = some key)
    (hleads : Relation.TransGen (Follows keyPaths) key j) (hne : j ≠ key)
    (hmem : address ∈ c.subject.orders j) {s' : Subject K O V}
    (hstep : step keyPaths c.subject (.didChangeValueForKey key) = .ok s') :
    Due keyPaths s'.orders s'.pairs s'.stack j address := by
  rcases Ends.of_ok hstep
    (Subject.enterDidChange_ends keyPaths h.ordered key Kind.new_valid true) with ⟨hempty, -⟩ | rfl
  · rw [Subject.orders_of_isEmpty hempty] at hmem
    cases hmem
  have hrest : ∀ p, c.subject.pairs address = some p → p.AtRest := by
    rcases h.settled j address hmem with hrest | ⟨n, hopen⟩ | ⟨r, hr, -⟩
    · exact hrest
    · rw [Alternating.brackets, hchanging] at hopen
      exact absurd (congrArg Prod.fst (List.mem_singleton.mp hopen)) hne
    · rw [hidle] at hr
      cases hr
  obtain ⟨k, hk, hkj⟩ := Relation.TransGen.head'_iff.mp hleads
  refine ⟨hmem, fun p hp => (hrest p hp).1, ?_, _, List.mem_cons_self, .inr ⟨k, hk, hkj⟩⟩
  refine Frame.forall_round_cons rfl fun r hr => ?_
  rw [hidle] at hr
  cases hr

/-- A run that keeps the order changes no key that somebody's key depends on, or has a
round open that will break it. -/
theorem undepended_or_due (hstart : (⟨s₀, none, s₀.value⟩ : Alternating K O V).Sound keyPaths)
    (hacyclic : ∀ k, ¬ Relation.TransGen (Follows keyPaths) k k) {as : List (Action K O V)}
    (hrun : (alternating keyPaths s₀).Run (InOrder keyPaths) as c) :
    (alternating keyPaths s₀).Run (Undepended keyPaths) as c ∨
      Ordered c.subject.orders c.subject.pairs c.subject.stack ∧ ∃ key address,
        Due keyPaths c.subject.orders c.subject.pairs c.subject.stack key address := by
  induction hrun with
  | start => exact .inl .start
  | @step as c c' a _ hen hinOrder hstep ih =>
      obtain ⟨s', hs', hc'⟩ := bind_eq_ok.mp hstep
      have hsubject : c'.subject = s' := by
        cases hc'
        cases a <;> rfl
      rw [hsubject]
      rcases ih with hrun | ⟨hordered, key, address, hdue⟩
      · by_cases hundepended : Undepended keyPaths c a
        · exact .inl (.step hrun hen hundepended hstep)
        have hsound := (sound_of_run hstart hrun).1
        have hordered := Ends.of_ok (P := fun s => Ordered s.orders s.pairs s.stack) hs'
          (step_ordered hsound.ordered hen.1)
        cases a with
        | didChangeValueForKey key =>
            obtain ⟨hidle, hchanging⟩ := hen.2
            obtain ⟨j, hnot⟩ := not_forall.mp hundepended
            obtain ⟨hleads, hsome⟩ := Classical.not_imp.mp hnot
            obtain ⟨address, hmem⟩ := List.exists_mem_of_ne_nil _ hsome
            have hne : j ≠ key := by
              rintro rfl
              exact hacyclic j hleads
            exact .inr ⟨hordered, j, address,
              due_of_didChange hsound hidle hchanging hleads hne hmem hs'⟩
        | addObserver | removeObserver | willChangeValueForKey | setValue | returns | advance =>
            exact absurd trivial hundepended
      · exact .inr ⟨Ends.of_ok (P := fun s => Ordered s.orders s.pairs s.stack) hs'
            (step_ordered hordered hen.1), key, address,
          step_due hordered hdue hen.2 hen.1 hs' (hinOrder s' hs').1⟩

/-- Outside calls and brackets, changes can begin to follow each other. -/
theorem sound_start {c₀ : Session K O V} (hreach : (bracketed keyPaths).Reachable c₀)
    (hidle : c₀.subject.stack = []) (hclosed : c₀.brackets = []) :
    (⟨c₀.subject, none, c₀.subject.value⟩ : Alternating K O V).Sound keyPaths := by
  obtain ⟨hordered, hsettled⟩ := settled_of_reachable hreach
  rw [hclosed] at hsettled
  refine ⟨hordered, hsettled, ?_⟩
  show InPhase keyPaths c₀.subject.orders c₀.subject.pairs c₀.subject.stack none c₀.subject.value
  rw [hidle]
  exact ⟨fun _ hr => (nomatch hr), fun _ hr => (nomatch hr), fun _ hr => (nomatch hr),
    fun _ hk => (nomatch hk), List.nodup_nil, fun _ hr => (nomatch hr)⟩

/-- Keys change one after the other, with no calls in callbacks and no cycle among them.  If
no key with observers depends on a changed one, every pair goes round its cycle and every
old value handed out is the one from before the change; and a run that has come to rest is
in order in no other case. -/
theorem alternating_iff {c₀ : Session K O V} (hreach : (bracketed keyPaths).Reachable c₀)
    (hidle : c₀.subject.stack = []) (hclosed : c₀.brackets = [])
    (hacyclic : ∀ k, ¬ Relation.TransGen (Follows keyPaths) k k) {as : List (Action K O V)} :
    ((alternating keyPaths c₀.subject).Run (Undepended keyPaths) as c →
        (alternating keyPaths c₀.subject).Run (InOrder keyPaths) as c) ∧
      (c.subject.stack = [] → ((alternating keyPaths c₀.subject).Run (InOrder keyPaths) as c ↔
        (alternating keyPaths c₀.subject).Run (Undepended keyPaths) as c)) := by
  have hstart := sound_start hreach hidle hclosed
  refine ⟨fun hrun => (sound_of_run hstart hrun).2, fun hover => ⟨fun hrun => ?_, fun hrun =>
    (sound_of_run hstart hrun).2⟩⟩
  refine (undepended_or_due hstart hacyclic hrun).resolve_right ?_
  rintro ⟨-, key, address, hdue⟩
  obtain ⟨r, hr, -⟩ := hdue.ahead
  rw [hover] at hr
  cases hr

end runs

/-! ## A dependent key -/

theorem undepended_dependsOnK (c : Alternating String O V) (key : String) :
    (key = "k" → c.subject.orders "d" = []) ↔
      Undepended dependsOnK c (.didChangeValueForKey key) := by
  refine ⟨fun h j hj => ?_, fun h hk => h "d" (.single ?_)⟩
  · obtain ⟨hk, rfl⟩ := dependsOnK_leads hj
    exact h hk
  · subst hk
    exact List.mem_cons_self

instance (c : Alternating String O V) : DecidablePred (Undepended dependsOnK c)
  | .didChangeValueForKey key => decidable_of_iff _ (undepended_dependsOnK c key)
  | .addObserver _ _ _ _ _ | .removeObserver _ _ | .willChangeValueForKey _ | .setValue _ _
  | .returns | .advance => inferInstanceAs (Decidable True)

/-- Two changes of `"k"`, which one observer of it hears of. -/
def twoChanges : List (Action String Nat Nat) :=
  [.willChangeValueForKey "k", .setValue "k" (some 7), .didChangeValueForKey "k", .advance,
    .returns, .advance, .advance, .advance, .advance,
    .willChangeValueForKey "k", .setValue "k" (some 8), .didChangeValueForKey "k", .advance,
    .returns, .advance, .advance, .advance, .advance]

theorem alternating_iff_twoChanges :
    ∃ c₀ c, (bracketed dependsOnK).Reachable c₀ ∧
      (alternating dependsOnK c₀.subject).Run (InOrder dependsOnK) twoChanges c := by
  obtain ⟨c₀, hexec, hidle, hclosed, c, hrun⟩ : ∃ c₀, (bracketed dependsOnK).exec Machine.anyAction
      ⟨.init, []⟩ (.addObserver 1 "k" 3 none 10 :: List.replicate 5 .advance) = some c₀ ∧
      c₀.subject.stack = [] ∧ c₀.brackets = [] ∧
      ∃ c, (alternating dependsOnK c₀.subject).exec (Undepended dependsOnK)
        ⟨c₀.subject, none, c₀.subject.value⟩ twoChanges = some c := ⟨_, rfl, rfl, rfl, _, rfl⟩
  have hreach : (bracketed dependsOnK).Reachable c₀ := ⟨_, Machine.run_of_exec hexec⟩
  exact ⟨c₀, c, hreach, (alternating_iff hreach hidle hclosed dependsOnK_acyclic).1
    (Machine.run_of_exec hrun)⟩

/-- The pair of a dependent key goes from `Default` to `DidChange`, and its observer, which
asked for old values, is given null for 5. -/
theorem dependent_is_unprepared :
    ∃ (c₀ : Session String Nat Nat) (as : List (Action String Nat Nat))
        (c : Alternating String Nat Nat) (s' : Subject String Nat Nat) (p p' : KVOPair Nat Nat)
        (r : Round String) (rest : List (Frame String)),
      (bracketed dependsOnK).Reachable c₀ ∧ c₀.subject.stack = [] ∧ c₀.brackets = [] ∧
      (∀ k, ¬ Relation.TransGen (Follows dependsOnK) k k) ∧
      (alternating dependsOnK c₀.subject).Run Machine.anyAction as c ∧
      enabled c.subject .advance ∧ step dependsOnK c.subject .advance = .ok s' ∧
      (c.subject.pairs 20 = some p ∧ p.callState = .default) ∧
      (s'.pairs 20 = some p' ∧ p'.callState = .didChange) ∧
      (s'.stack = .callback :: .round r :: rest ∧ r.key = "d" ∧ r.current = some 20) ∧
      (p'.notifyKind &&& Kind.old) ≠ 0 ∧ p'.change.oldValue = none ∧ c.before "d" = some 5 := by
  obtain ⟨c₀, hexec, hidle, hclosed, c, hrun, s', p, p', r, rest, hen, hstep, h⟩ :
      ∃ c₀, (bracketed dependsOnK).exec Machine.anyAction
        (⟨.init, []⟩ : Session String Nat Nat)
        (.addObserver 2 "d" 3 none 20 :: List.replicate 3 .advance ++ [.setValue "d" (some 5)])
          = some c₀ ∧ c₀.subject.stack = [] ∧ c₀.brackets = [] ∧
      ∃ c, (alternating dependsOnK c₀.subject).exec Machine.anyAction
        ⟨c₀.subject, none, c₀.subject.value⟩ [.willChangeValueForKey "k", .setValue "d" (some 9),
          .didChangeValueForKey "k", .advance] = some c ∧
      ∃ s' p p' r rest, enabled c.subject .advance ∧ step dependsOnK c.subject .advance = .ok s' ∧
        (c.subject.pairs 20 = some p ∧ p.callState = .default) ∧
        (s'.pairs 20 = some p' ∧ p'.callState = .didChange) ∧
        (s'.stack = .callback :: .round r :: rest ∧ r.key = "d" ∧ r.current = some 20) ∧
        (p'.notifyKind &&& Kind.old) ≠ 0 ∧ p'.change.oldValue = none ∧ c.before "d" = some 5 :=
    ⟨_, rfl, rfl, rfl, _, rfl, _, _, _, _, _, by decide, rfl, ⟨rfl, rfl⟩, ⟨rfl, rfl⟩, ⟨rfl, rfl, rfl⟩,
      by decide, rfl, rfl⟩
  exact ⟨c₀, _, c, s', p, p', r, rest, ⟨_, Machine.run_of_exec hexec⟩, hidle, hclosed,
    dependsOnK_acyclic, Machine.run_of_exec hrun, hen, hstep, h⟩

end KeyValueObserverInterface

end Rx
