/-
# `RxFoundation.KeyValueObserverDependents` — a `did` and the keys that depend on it

`_didChangeValueForKey` goes on to the dependent keys of its key, and from each of them
to theirs, with no record of where it has been: it walks the relation the way of
`Lib.GraphWalk`, and notifies a key once for each path that leads there.

`Own` is a step of the rounds that one call started above what was running, `Inner` a
step of whatever goes on in a callback these rounds made, and `Onward` an own step with
what follows in its callback.  A call ends if no infinite chain of keys starts from its
own (`Terminates`), whatever callbacks do, and it calls an observer for a key at most as
often as the observer is registered for the key, on each path (`didChange_ends`).
-/
import CrashRealm.Lib.GraphWalk
import CrashRealm.RxFoundation.KeyValueObserverQuiescence
import CrashRealm.RxFoundation.KeyValueObserverRegistration
import CrashRealm.RxFoundation.KeyValueObserverSpec

namespace Rx

namespace KeyValueObserverInterface

open GraphWalk (Visit Walk paths)

variable {K O V : Type} [DecidableEq K] [DecidableEq O] [BEq V]

/-! ## One call -/

section calls

variable (keyPaths : K → List K) (base : List (Frame K))

/-- The rounds above `base` take a step. -/
def Own (s s' : Subject K O V) : Prop :=
  ∃ rounds : List (Round K), rounds ≠ [] ∧ s.stack = rounds.map .round ++ base ∧
    step keyPaths s .advance = .ok s'

/-- In a callback of the rounds above `base` something happens, or it returns. -/
def Inner (s s' : Subject K O V) : Prop :=
  ∃ (above : List (Frame K)) (rounds : List (Round K)) (a : Action K O V), rounds ≠ [] ∧
    s.stack = above ++ .callback :: (rounds.map .round ++ base) ∧ enabled s a ∧
    step keyPaths s a = .ok s'

/-- An own step, and what happens in the callback it makes. -/
def Onward (s s' : Subject K O V) : Prop :=
  ∃ s₁, Own keyPaths base s s₁ ∧ Relation.ReflTransGen (Inner keyPaths base) s₁ s'

/-- Where a call stands that was made above `base`. -/
inductive Standing (s : Subject K O V) : Prop where
  | over : s.stack = base → Standing s
  | inCallback (above : List (Frame K)) (rounds : List (Round K)) : rounds ≠ [] →
      s.stack = above ++ .callback :: (rounds.map .round ++ base) → Standing s
  | goesOn (s' : Subject K O V) : Own keyPaths base s s' → Standing s
  /-- the check of an ordered set has failed -/
  | stopped : step keyPaths s .advance = .error sizeCheck → Standing s

/-- From here every way of going on comes to an end, and stops nowhere else. -/
def Terminates (s : Subject K O V) : Prop :=
  Acc (flip (Onward keyPaths base)) s ∧
    ∀ s', Relation.ReflTransGen (Onward keyPaths base) s s' → Standing keyPaths base s'

end calls

/-- Whom an event notifies, and of which key. -/
def Event.call : Event K O V → Option (O × K)
  | .notified observer key _ _ => some (observer, key)
  | _ => none

/-- The notifications between two states, newest first. -/
def callsBetween (s s' : Subject K O V) : List (O × K) :=
  (s'.log.take (s'.log.length - s.log.length)).filterMap Event.call

/-- `Dispatch keyPaths base good s₀ calls s`: a call made above `base` has come from `s₀`
to `s`, its own steps started from good states, and its own rounds have made `calls`. -/
inductive Dispatch (keyPaths : K → List K) (base : List (Frame K))
    (good : Subject K O V → Prop) : Subject K O V → List (O × K) → Subject K O V → Prop where
  | start (s : Subject K O V) : Dispatch keyPaths base good s [] s
  | own {s₀ s s' : Subject K O V} {calls : List (O × K)} :
      Dispatch keyPaths base good s₀ calls s → good s → Own keyPaths base s s' →
      Dispatch keyPaths base good s₀ (callsBetween s s' ++ calls) s'
  | inner {s₀ s s' : Subject K O V} {calls : List (O × K)} :
      Dispatch keyPaths base good s₀ calls s → Inner keyPaths base s s' →
      Dispatch keyPaths base good s₀ calls s'

variable {keyPaths : K → List K} {base : List (Frame K)} {s s' : Subject K O V}

/-! ## Whom a round has to call -/

/-- Whoever has a pair keeps it. -/
def KeepsObservers (pairs pairs' : Pairs O V) : Prop :=
  ∀ a p, pairs a = some p → ∃ p', pairs' a = some p' ∧ p'.observer = p.observer

section keeps

variable {pairs pairs' pairs'' : Pairs O V}

omit [DecidableEq O] [BEq V] [DecidableEq K]

theorem KeepsObservers.refl (pairs : Pairs O V) : KeepsObservers pairs pairs :=
  fun _ p hp => ⟨p, hp, rfl⟩

theorem KeepsObservers.trans (h : KeepsObservers pairs pairs')
    (h' : KeepsObservers pairs' pairs'') : KeepsObservers pairs pairs'' := by
  intro a p hp
  obtain ⟨p', hp', hobserver⟩ := h a p hp
  obtain ⟨p'', hp'', hobserver'⟩ := h' a p' hp'
  exact ⟨p'', hp'', hobserver'.trans hobserver⟩

theorem Grow.keepsObservers (h : Grow pairs pairs') : KeepsObservers pairs pairs' := by
  intro a p hp
  obtain ⟨p', hp', hs⟩ := h.2 a p hp
  exact ⟨p', hp', hs.observer⟩

end keeps

omit [BEq V] in
theorem removeObserver_keepsObservers (hnodup : ∀ k, (s.orders k).Nodup) (observer : O) (key : K) :
    Ends anyFault (s.removeObserver observer key) fun s' => KeepsObservers s.pairs s'.pairs := by
  refine (s.removeObserver_ends hnodup observer key).mono fun s' hs' => ?_
  rcases hs' with rfl | ⟨a, p, info, -, hp, rfl, -⟩
  · exact .refl _
  · intro b q hq
    by_cases hba : b = a
    · subst hba
      cases hp.symm.trans hq
      exact ⟨p.setEnabled false, Function.update_self .., rfl⟩
    · exact ⟨q, (Function.update_of_ne hba ..).trans hq, rfl⟩

theorem step_keepsObservers (h : Ordered s.orders s.pairs s.stack) {a : Action K O V}
    (hen : enabled s a) :
    Ends anyFault (step keyPaths s a) fun s' => KeepsObservers s.pairs s'.pairs := by
  cases a with
  | addObserver o k n context address =>
      refine (Subject.addObserver_ends keyPaths h o k n context hen.2.1).mono fun s' hs' => ?_
      obtain ⟨s₀, s₁, pairs, hremove, hreg, hwilled, rfl⟩ := hs'
      obtain ⟨info, hinfo, horders⟩ := s.findOrInsert_orders k
      have hnodup : ∀ k', (({ s with observersInfo := info } : Subject K O V).orders k').Nodup := by
        intro k'
        show (ordersOf info k').Nodup
        rw [horders]
        exact h.nodup k'
      have hremoved : KeepsObservers s.pairs s₀.pairs :=
        Ends.of_ok (P := fun s' => KeepsObservers s.pairs s'.pairs) (hinfo ▸ hremove)
          (removeObserver_keepsObservers hnodup o k)
      have hadded : KeepsObservers s.pairs s₁.pairs := by
        intro b p hp
        have hb : b ≠ address := by
          rintro rfl
          cases hen.2.1.symm.trans hp
        obtain ⟨p', hp', hobserver⟩ := hremoved b p hp
        exact ⟨p', by rw [hreg.pairs, Function.update_of_ne hb, hp'], hobserver⟩
      exact hadded.trans hwilled.grow.keepsObservers
  | removeObserver o k => exact (removeObserver_keepsObservers h.nodup o k).bind fun s' hs' => hs'
  | willChangeValueForKey k =>
      refine (Subject.willChange_ends h k Kind.new_valid).mono fun s' hs' => ?_
      obtain ⟨pairs, rfl, hwilled⟩ := hs'
      exact hwilled.grow.keepsObservers
  | didChangeValueForKey k =>
      refine (Subject.enterDidChange_ends keyPaths h k Kind.new_valid true).mono fun s' hs' => ?_
      rcases hs' with ⟨-, rfl⟩ | rfl <;> exact .refl _
  | setValue k value => exact .refl _
  | returns => exact .refl _
  | advance =>
      show Ends anyFault (s.advance keyPaths) _
      rw [Subject.advance]
      split
      next r rest hstack =>
        rw [hstack] at h
        refine (Subject.advanceRound_ends keyPaths h).mono fun s' hadvanced => ?_
        cases hadvanced with
        | endTurn a p _ hp hs' =>
            subst hs'
            exact (Grow.update hp p.succeeds_didChangeDone).keepsObservers
        | beginTurn a observers p _ _ hp hs' =>
            have hgrow := Grow.update hp (p.succeeds_didChange (s.value r.key) r.kind r.doCall)
            subst hs'
            rw [Subject.afterTurn_pairs]
            exact hgrow.keepsObservers
        | keyPath keyPath more pairs _ _ _ hwilled hs' =>
            rcases hs' with ⟨-, rfl⟩ | rfl <;> exact hwilled.grow.keepsObservers
        | finish _ _ hs' =>
            subst hs'
            exact .refl _
      next => exact .refl _

/-! ## How often a call calls -/

section counting

/-- How many pairs of the observer a round of this key has in what is left of its snapshot. -/
def Round.due (o : O) (j : K) (pairs : Pairs O V) (r : Round K) : Nat :=
  if r.key = j then
    (r.observers.filter fun a => (pairs a).map KVOPair.observer = some o).length
  else 0

/-- How many calls a round may still make, with `m` at each visit of the key ahead. -/
noncomputable def Round.owed (keyPaths : K → List K) (o : O) (j : K) (m : Nat) (pairs : Pairs O V)
    (r : Round K) : ℕ∞ :=
  r.due o j pairs + m * (r.keyPaths.map (paths keyPaths j)).sum

variable {o : O} {j : K} {m : Nat} {pairs : Pairs O V}

omit [BEq V] in
theorem Round.due_congr {r : Round K} (h : ∀ a ∈ r.observers, s.pairs a ≠ none)
    (hkeeps : KeepsObservers s.pairs pairs) : r.due o j pairs = r.due o j s.pairs := by
  have hfilter : (r.observers.filter fun a => (pairs a).map KVOPair.observer = some o)
      = r.observers.filter fun a => (s.pairs a).map KVOPair.observer = some o := by
    refine List.filter_congr fun a ha => ?_
    obtain ⟨p, hp⟩ := Option.ne_none_iff_exists'.mp (h a ha)
    obtain ⟨p', hp', hobserver⟩ := hkeeps a p hp
    rw [hp, hp', Option.map_some, Option.map_some, hobserver]
  rw [due, due, hfilter]

omit [BEq V] in
theorem Round.owed_congr {r : Round K} (h : ∀ a ∈ r.observers, s.pairs a ≠ none)
    (hkeeps : KeepsObservers s.pairs pairs) :
    r.owed keyPaths o j m pairs = r.owed keyPaths o j m s.pairs := by
  rw [owed, owed, due_congr h hkeeps]

omit [BEq V] in
/-- A turn takes its pair from what is due. -/
theorem Round.due_cons {r : Round K} {a : Nat} {observers : List Nat} {p : KVOPair O V}
    (hobservers : r.observers = a :: observers) (hp : pairs a = some p) (current : Option Nat) :
    r.due o j pairs = (if (p.observer, r.key) = (o, j) then 1 else 0)
      + Round.due o j pairs { r with current, observers } := by
  rw [due, due, hobservers]
  by_cases hkey : r.key = j
  · by_cases ho : p.observer = o
    · simp [hkey, ho, hp, Nat.add_comm]
    · simp [hkey, ho, hp]
  · simp [hkey]

omit [BEq V] in
/-- A round that is entered owes what its key does. -/
theorem Round.owed_entered (hm : (s.registered o j).length ≤ m) (key : K) (kind : Kind)
    (doCall : Bool) :
    (s.entered keyPaths key kind doCall).owed keyPaths o j m s.pairs
      ≤ m * paths keyPaths j key := by
  have hdue : (s.entered keyPaths key kind doCall).due o j s.pairs ≤ if key = j then m else 0 := by
    rw [due]
    split
    next hkey =>
      cases (show key = j from hkey)
      exact (if_pos rfl).symm ▸ hm
    next => exact Nat.zero_le _
  rw [owed, GraphWalk.paths_eq, mul_add]
  refine add_le_add ?_ le_rfl
  refine (Nat.cast_le.mpr hdue).trans ?_
  split <;> simp

omit [DecidableEq K] [DecidableEq O] [BEq V] in
theorem callsBetween_same (h : s'.log = s.log) : callsBetween s s' = [] := by
  rw [callsBetween, h, Nat.sub_self]
  rfl

omit [DecidableEq K] [DecidableEq O] [BEq V] in
theorem callsBetween_notified {observer : O} {key : K} {context : Any V} {change : Change V}
    (h : s'.log = .notified observer key context change :: s.log) :
    callsBetween s s' = [(observer, key)] := by
  rw [callsBetween, h, List.length_cons, Nat.add_sub_cancel_left]
  rfl

end counting

/-! ## A step of a round -/

/-- What a round has left to do at its key, two steps for each pair, and ahead. -/
def Round.visit (r : Round K) : Visit K :=
  ⟨2 * r.observers.length + r.current.toList.length, r.keyPaths⟩

/-- A round has given way to others, which owe no more than it did. -/
structure Subject.GivesWay (keyPaths : K → List K) (s : Subject K O V) (r : Round K)
    (rest : List (Frame K)) (s' : Subject K O V) (tops : List (Round K)) : Prop where
  stack : s'.stack = tops.map .round ++ rest ∨
    tops ≠ [] ∧ s'.stack = .callback :: (tops.map .round ++ rest)
  walk : ∀ vs, Walk keyPaths (r.visit :: vs) (tops.map Round.visit ++ vs)
  owed : ∀ o j (m : Nat), (s.registered o j).length ≤ m →
    ((callsBetween s s').count (o, j) : ℕ∞) + (tops.map (Round.owed keyPaths o j m s'.pairs)).sum
      ≤ r.owed keyPaths o j m s.pairs

/-- A turn calls the observer of its pair, or nobody. -/
theorem Subject.callsBetween_afterTurn (r : Round K) (a : Nat) (observers : List Nat)
    (rest : List (Frame K)) (p : KVOPair O V) (o : O) (j : K) :
    (callsBetween s (s.afterTurn r a observers rest p)).count (o, j)
      ≤ if (p.observer, r.key) = (o, j) then 1 else 0 := by
  cases hcall : (p.didChange (s.value r.key) r.kind r.doCall).2 with
  | true =>
      rw [afterTurn_of_call observers rest hcall, callsBetween_notified rfl,
        (p.succeeds_didChange _ _ _).observer, List.count_singleton]
      simp
  | false =>
      rw [afterTurn_of_silent observers rest hcall]
      exact (congrArg (List.count (o, j)) (callsBetween_same rfl)).le.trans (Nat.zero_le _)

theorem Subject.Advanced.givesWay {r : Round K} {rest : List (Frame K)}
    (hadvanced : s.Advanced keyPaths r rest s') (h : Ordered s.orders s.pairs (.round r :: rest))
    (hkeeps : KeepsObservers s.pairs s'.pairs) : ∃ tops, s.GivesWay keyPaths r rest s' tops := by
  have hpending : ∀ a ∈ r.observers, s.pairs a ≠ none :=
    fun a ha => ((h.rounds r List.mem_cons_self).2 a (List.mem_append_right _ ha)).1
  -- a round in the place of `r` owes what it would owe before the step
  have hsame : ∀ (o : O) (j : K) (m : Nat) (r' : Round K), r'.observers ⊆ r.observers →
      r'.owed keyPaths o j m s'.pairs = r'.owed keyPaths o j m s.pairs :=
    fun o j m r' hsub => Round.owed_congr (fun a ha => hpending a (hsub ha)) hkeeps
  cases hadvanced with
  | endTurn a p hcurrent _ hs' =>
      refine ⟨[{ r with current := none }], .inl (congrArg Subject.stack hs'), fun vs => .work ?_,
        fun o j m _ => ?_⟩
      · rw [hcurrent]
        exact Nat.lt_succ_self _
      · have hlog : s'.log = s.log := by rw [hs']; rfl
        rw [callsBetween_same hlog, List.map_singleton, List.sum_singleton,
          hsame o j m { r with current := none } (List.Subset.refl _)]
        exact (zero_add _).le
  | beginTurn a observers p hcurrent hobservers hp hs' =>
      refine ⟨[{ r with current := some a, observers }], ?_, fun vs => .work ?_, fun o j m _ => ?_⟩
      · rw [hs']
        exact (s.afterTurn_stack r a observers rest p).imp_right fun h => ⟨List.cons_ne_nil _ _, h⟩
      · rw [hcurrent, hobservers]
        exact Nat.lt_succ_self _
      · have hsub : observers ⊆ r.observers := hobservers ▸ List.subset_cons_self a observers
        have hcalls := s.callsBetween_afterTurn r a observers rest p o j
        rw [← hs'] at hcalls
        rw [List.map_singleton, List.sum_singleton, hsame o j m _ hsub, Round.owed, Round.owed,
          Round.due_cons hobservers hp (some a), Nat.cast_add, add_assoc]
        exact add_le_add (Nat.cast_le.mpr hcalls) le_rfl
  | keyPath keyPath more pairs hcurrent hobservers hmore _ hs' =>
      have hvisit : r.visit = ⟨(Round.visit { r with keyPaths := more }).work, keyPath :: more⟩ := by
        rw [Round.visit, hmore]
        rfl
      have hlog : s'.log = s.log := by rcases hs' with ⟨-, rfl⟩ | rfl <;> rfl
      have howed : ∀ o j (m : Nat), r.owed keyPaths o j m s.pairs
          = m * paths keyPaths j keyPath
            + Round.owed keyPaths o j m s.pairs { r with keyPaths := more } := by
        intro o j m
        rw [Round.owed, Round.owed, hmore, List.map_cons, List.sum_cons, mul_add, add_left_comm]
        rfl
      rcases hs' with ⟨-, hs'⟩ | hs'
      · refine ⟨[{ r with keyPaths := more }], .inl (congrArg Subject.stack hs'), fun vs => ?_,
          fun o j m _ => ?_⟩
        · rw [hvisit]
          exact .skip
        · rw [callsBetween_same hlog, List.map_singleton, List.sum_singleton,
            hsame o j m { r with keyPaths := more } (List.Subset.refl _), howed]
          exact add_le_add zero_le le_rfl
      · refine ⟨[s.entered keyPaths keyPath r.kind true, { r with keyPaths := more }],
          .inl (congrArg Subject.stack hs'), fun vs => ?_, fun o j m hm => ?_⟩
        · rw [hvisit]
          exact .enter
        · have hentered : ∀ a ∈ s.orders keyPath, s.pairs a ≠ none := by
            intro a ha
            obtain ⟨p, hp, -⟩ := h.live keyPath a ha
            rw [hp]
            exact Option.some_ne_none p
          have hnext : (s.entered keyPaths keyPath r.kind true).owed keyPaths o j m s.pairs
              ≤ m * paths keyPaths j keyPath := Round.owed_entered hm keyPath r.kind true
          rw [callsBetween_same hlog, List.map_cons, List.map_singleton, List.sum_cons,
            List.sum_singleton, hsame o j m { r with keyPaths := more } (List.Subset.refl _), howed,
            Round.owed_congr (r := s.entered keyPaths keyPath r.kind true) hentered hkeeps]
          exact (zero_add _).le.trans (add_le_add hnext le_rfl)
  | finish _ _ hs' =>
      refine ⟨[], .inl (congrArg Subject.stack hs'), fun vs => .leave, fun o j m _ => ?_⟩
      have hlog : s'.log = s.log := by rw [hs']
      rw [callsBetween_same hlog]
      exact (zero_add _).le.trans zero_le

/-! ## The rounds of a call -/

/-- The rounds of a call made above `base`, with nothing or a callback above them. -/
def RoundsAre (base : List (Frame K)) (s : Subject K O V) (rounds : List (Round K)) : Prop :=
  s.stack = rounds.map .round ++ base ∨
    rounds ≠ [] ∧ ∃ above, s.stack = above ++ .callback :: (rounds.map .round ++ base)

/-- At an own step nothing is above the rounds. -/
theorem RoundsAre.own {rounds : List (Round K)} (hrounds : RoundsAre base s rounds)
    (hown : Own keyPaths base s s') :
    ∃ r rest, rounds = r :: rest ∧ s.stack = .round r :: (rest.map .round ++ base) ∧
      s.advanceRound keyPaths r (rest.map .round ++ base) = .ok s' := by
  obtain ⟨rounds', hne, hstack, hstep⟩ := hown
  rcases hrounds with hrounds | ⟨-, above, hcallback⟩
  · have hsame : rounds.map Frame.round = rounds'.map Frame.round :=
      List.append_cancel_right (hrounds.symm.trans hstack)
    cases rounds with
    | nil => exact absurd (List.map_eq_nil_iff.mp hsame.symm) hne
    | cons r rest =>
        have hadvance : s.advance keyPaths = .ok s' := hstep
        rw [Subject.advance, hrounds] at hadvance
        exact ⟨r, rest, rfl, hrounds, hadvance⟩
  · exact absurd (hstack.symm.trans hcallback) (rounds_ne_callback _ _ _ _)

/-- What goes on in a callback leaves the rounds below as they are. -/
theorem RoundsAre.inner {rounds : List (Round K)} (hrounds : RoundsAre base s rounds)
    (h : Ordered s.orders s.pairs s.stack) (hinner : Inner keyPaths base s s') :
    RoundsAre base s' rounds := by
  obtain ⟨above, rounds', a, -, hstack, hen, hstep⟩ := hinner
  rcases hrounds with hrounds | ⟨hne, above', hcallback⟩
  · exact absurd (hrounds.symm.trans hstack) (rounds_ne_callback _ _ _ _)
  · have hnext := Ends.of_ok hstep (step_above h hen hcallback)
    rcases hnext with ⟨above'', hs'⟩ | hs'
    · exact .inr ⟨hne, above'', hs'⟩
    · exact .inl hs'

theorem Own.ordered (h : Ordered s.orders s.pairs s.stack) (hown : Own keyPaths base s s') :
    Ordered s'.orders s'.pairs s'.stack := by
  obtain ⟨rounds, -, -, hstep⟩ := hown
  exact Ends.of_ok (P := fun s => Ordered s.orders s.pairs s.stack) hstep (advance_ordered h)

theorem Own.keepsObservers (h : Ordered s.orders s.pairs s.stack)
    (hown : Own keyPaths base s s') : KeepsObservers s.pairs s'.pairs := by
  obtain ⟨rounds, hne, hstack, hstep⟩ := hown
  have hclient : s.clientRuns = false := by
    obtain ⟨r, rest, rfl⟩ := List.exists_cons_of_ne_nil hne
    rw [Subject.clientRuns, hstack]
    rfl
  exact Ends.of_ok (P := fun s' => KeepsObservers s.pairs s'.pairs) hstep
    (step_keepsObservers (a := .advance) h hclient)

theorem Inner.ordered (h : Ordered s.orders s.pairs s.stack) (hinner : Inner keyPaths base s s') :
    Ordered s'.orders s'.pairs s'.stack := by
  obtain ⟨above, rounds, a, -, -, hen, hstep⟩ := hinner
  exact Ends.of_ok (P := fun s => Ordered s.orders s.pairs s.stack) hstep (step_ordered h hen)

/-- At an own step the innermost round gives way. -/
theorem RoundsAre.own_givesWay {rounds : List (Round K)} (hrounds : RoundsAre base s rounds)
    (h : Ordered s.orders s.pairs s.stack) (hown : Own keyPaths base s s') :
    ∃ r rest tops, rounds = r :: rest ∧ RoundsAre base s' (tops ++ rest) ∧
      s.GivesWay keyPaths r (rest.map .round ++ base) s' tops := by
  obtain ⟨r, rest, rfl, hstack, hadvance⟩ := hrounds.own hown
  have hadvanced := Ends.of_ok hadvance (Subject.advanceRound_ends keyPaths (hstack ▸ h))
  obtain ⟨tops, hgives⟩ := hadvanced.givesWay (hstack ▸ h) (hown.keepsObservers h)
  refine ⟨r, rest, tops, rfl, ?_, hgives⟩
  rw [RoundsAre, List.map_append, List.append_assoc]
  exact hgives.stack.imp_right fun ⟨hne, hs'⟩ =>
    ⟨fun h => hne (List.append_eq_nil_iff.mp h).1, [], hs'⟩

/-- An own step takes the rounds one step on. -/
theorem RoundsAre.own_walk {rounds : List (Round K)} (hrounds : RoundsAre base s rounds)
    (h : Ordered s.orders s.pairs s.stack) (hown : Own keyPaths base s s') :
    ∃ rounds', RoundsAre base s' rounds' ∧
      Walk keyPaths (rounds.map Round.visit) (rounds'.map Round.visit) := by
  obtain ⟨r, rest, tops, rfl, hrounds', hgives⟩ := hrounds.own_givesWay h hown
  refine ⟨tops ++ rest, hrounds', ?_⟩
  rw [List.map_append]
  exact hgives.walk _

theorem Onward.walk {rounds : List (Round K)} (hrounds : RoundsAre base s rounds)
    (h : Ordered s.orders s.pairs s.stack) (hon : Onward keyPaths base s s') :
    Ordered s'.orders s'.pairs s'.stack ∧ ∃ rounds', RoundsAre base s' rounds' ∧
      Walk keyPaths (rounds.map Round.visit) (rounds'.map Round.visit) := by
  obtain ⟨s₁, hown, hinner⟩ := hon
  obtain ⟨rounds', hrounds', hwalk⟩ := hrounds.own_walk h hown
  have hmoves : Ordered s'.orders s'.pairs s'.stack ∧ RoundsAre base s' rounds' := by
    induction hinner with
    | refl => exact ⟨hown.ordered h, hrounds'⟩
    | tail _ hstep ih => exact ⟨hstep.ordered ih.1, ih.2.inner ih.1 hstep⟩
  exact ⟨hmoves.1, rounds', hmoves.2, hwalk⟩

/-- A call ends with the walk of its rounds. -/
theorem RoundsAre.acc {rounds : List (Round K)} (hrounds : RoundsAre base s rounds)
    (h : Ordered s.orders s.pairs s.stack)
    (hwalk : Acc (flip (Walk keyPaths)) (rounds.map Round.visit)) :
    Acc (flip (Onward keyPaths base)) s := by
  generalize hvs : rounds.map Round.visit = vs at hwalk
  induction hwalk generalizing s rounds with
  | intro vs _ ih =>
      subst hvs
      refine ⟨_, fun s' hon => ?_⟩
      obtain ⟨h', rounds', hrounds', hnext⟩ := Onward.walk hrounds h hon
      exact ih _ hnext hrounds' h' rfl

/-! ## What stops a round -/

section stops

omit [DecidableEq O] [BEq V] in
theorem getObservers_stops (s : Subject K O V) (key : K) (kind : Kind) :
    Ends (· = sizeCheck) (s.getObservers key kind) fun observers =>
      ∀ a ∈ observers, a ∈ s.orders key := by
  rw [Subject.getObservers, Subject.orders, ordersOf]
  cases hlook : s.observersInfo.lookup key with
  | none => exact fun _ ha => ha
  | some order => exact (size_ends order).bind fun _ _ _ ha => List.mem_of_mem_filter ha

omit [DecidableEq O] [BEq V] in
theorem willChange_stops (h : Ordered s.orders s.pairs s.stack) (key : K) (kind : Kind) :
    Ends (· = sizeCheck) (s.willChange key kind) fun _ => True := by
  rw [Subject.willChange]
  split
  · trivial
  · refine (getObservers_stops s key kind).bind fun observers hin => ?_
    have hpairs : ∀ a ∈ observers, ∃ p, s.pairs a = some p := by
      intro a ha
      obtain ⟨p, hp, -⟩ := h.live key a (hin a ha)
      exact ⟨p, hp⟩
    obtain ⟨pairs, hrun, -⟩ := Invariant.willChangeLoop_spec key observers hpairs
    rw [hrun]
    trivial

omit [DecidableEq O] [BEq V] in
theorem enterDidChange_stops (keyPaths : K → List K) (s : Subject K O V) (key : K) (kind : Kind)
    (doCall : Bool) :
    Ends (· = sizeCheck) (s.enterDidChange keyPaths key kind doCall) fun _ => True := by
  rw [Subject.enterDidChange]
  split
  · trivial
  · exact (getObservers_stops s key kind).bind fun _ _ => trivial

omit [DecidableEq O] in
/-- The pairs of a round are there, and its changes have a kind. -/
theorem advanceRound_stops {r : Round K} {rest : List (Frame K)}
    (h : Ordered s.orders s.pairs (.round r :: rest)) :
    Ends (· = sizeCheck) (s.advanceRound keyPaths r rest) fun _ => True := by
  obtain ⟨hkind, hpending⟩ := h.rounds r List.mem_cons_self
  have hpair : ∀ a ∈ r.pending, ∃ p, s.pairAt a = .ok p := by
    intro a ha
    obtain ⟨p, hp⟩ := Option.ne_none_iff_exists'.mp (hpending a ha).1
    exact ⟨p, by rw [Subject.pairAt, hp]⟩
  rw [Subject.advanceRound]
  split
  next a hcurrent =>
    obtain ⟨p, hp⟩ := hpair a (List.mem_append_left _ (hcurrent ▸ List.mem_cons_self))
    rw [Subject.endTurn, hp]
    trivial
  next a observers _ hobservers =>
    obtain ⟨p, hp⟩ := hpair a (List.mem_append_right _ (hobservers ▸ List.mem_cons_self))
    have hlogged : Subject.logKVO (p.didChange (s.value r.key) r.kind r.doCall).1.change = .ok () :=
      if_pos (KVOPair.didChange_kind p _ hkind _)
    rw [Subject.beginTurn, hp, ok_bind]
    dsimp only
    rw [hlogged, ok_bind]
    split <;> trivial
  next keyPath more _ _ _ =>
    have hwill : Ends (· = sizeCheck) (Subject.keyPathWill
        { s with stack := .round { r with keyPaths := more } :: rest } r.kind keyPath)
        fun _ => True := by
      rw [Subject.keyPathWill]
      split
      · exact willChange_stops (s := { s with stack := .round { r with keyPaths := more } :: rest })
          (h.proceed rfl rfl (List.Subset.refl _)) keyPath _
      · trivial
    exact hwill.bind fun s' _ => enterDidChange_stops keyPaths s' keyPath _ _
  next => trivial

end stops

/-- A call is over, or in a callback, or goes on, or an ordered set has stopped it. -/
theorem RoundsAre.standing {rounds : List (Round K)} (hrounds : RoundsAre base s rounds)
    (h : Ordered s.orders s.pairs s.stack) : Standing keyPaths base s := by
  rcases hrounds with hrounds | ⟨hne, above, hcallback⟩
  · cases rounds with
    | nil => exact .over hrounds
    | cons r rest =>
        have hstack : s.stack = .round r :: (rest.map .round ++ base) := hrounds
        have hstep : step keyPaths s .advance
            = s.advanceRound keyPaths r (rest.map .round ++ base) := by
          show s.advance keyPaths = _
          rw [Subject.advance, hstack]
        have hends : Ends (· = sizeCheck)
            (s.advanceRound keyPaths r (rest.map .round ++ base)) fun _ => True :=
          advanceRound_stops (hstack ▸ h)
        cases hadvance : s.advanceRound keyPaths r (rest.map .round ++ base) with
        | ok s' =>
            exact .goesOn s' ⟨r :: rest, List.cons_ne_nil _ _, hrounds, hstep.trans hadvance⟩
        | error e =>
            rw [hadvance] at hends
            cases hends
            exact .stopped (hstep.trans hadvance)
  · exact .inCallback above rounds hne hcallback

/-- A call ends if its rounds have no infinite chain of keys ahead. -/
theorem RoundsAre.terminates {rounds : List (Round K)} (hrounds : RoundsAre base s rounds)
    (h : Ordered s.orders s.pairs s.stack)
    (hacc : ∀ r ∈ rounds, ∀ k ∈ r.keyPaths, Acc (flip (GraphWalk.Follows keyPaths)) k) :
    Terminates keyPaths base s := by
  refine ⟨hrounds.acc h (Walk.acc fun v hv => ?_), fun s' hon => ?_⟩
  · obtain ⟨r, hr, rfl⟩ := List.mem_map.mp hv
    exact hacc r hr
  · have hall : Ordered s'.orders s'.pairs s'.stack ∧ ∃ rounds', RoundsAre base s' rounds' := by
      induction hon with
      | refl => exact ⟨h, rounds, hrounds⟩
      | tail _ hstep ih =>
          obtain ⟨h₁, rounds₁, hrounds₁⟩ := ih
          obtain ⟨h₂, rounds₂, hrounds₂, -⟩ := Onward.walk hrounds₁ h₁ hstep
          exact ⟨h₂, rounds₂, hrounds₂⟩
    obtain ⟨h', rounds', hrounds'⟩ := hall
    exact hrounds'.standing h'

/-! ## How often a call calls -/

theorem Inner.keepsObservers (h : Ordered s.orders s.pairs s.stack)
    (hinner : Inner keyPaths base s s') : KeepsObservers s.pairs s'.pairs := by
  obtain ⟨above, rounds, a, -, -, hen, hstep⟩ := hinner
  exact Ends.of_ok (P := fun s' => KeepsObservers s.pairs s'.pairs) hstep
    (step_keepsObservers h hen)

/-- What rounds owe together. -/
noncomputable def owedBy (keyPaths : K → List K) (o : O) (j : K) (m : Nat) (pairs : Pairs O V)
    (rounds : List (Round K)) : ℕ∞ :=
  (rounds.map (Round.owed keyPaths o j m pairs)).sum

omit [BEq V] in
theorem owedBy_append (o : O) (j : K) (m : Nat) (pairs : Pairs O V)
    (rounds rounds' : List (Round K)) :
    owedBy keyPaths o j m pairs (rounds ++ rounds')
      = owedBy keyPaths o j m pairs rounds + owedBy keyPaths o j m pairs rounds' := by
  rw [owedBy, List.map_append, List.sum_append]
  rfl

omit [BEq V] in
/-- Rounds owe the same while their pairs keep their observers. -/
theorem RoundsAre.owedBy_eq {rounds : List (Round K)} (hrounds : RoundsAre base s rounds)
    (h : Ordered s.orders s.pairs s.stack) (hkeeps : KeepsObservers s.pairs s'.pairs) (o : O) (j : K)
    (m : Nat) {sub : List (Round K)} (hsub : sub ⊆ rounds) :
    owedBy keyPaths o j m s'.pairs sub = owedBy keyPaths o j m s.pairs sub := by
  have hstack : ∀ r ∈ rounds, Frame.round r ∈ s.stack := by
    intro r hr
    have hin : Frame.round r ∈ rounds.map Frame.round ++ base :=
      List.mem_append_left _ (List.mem_map_of_mem hr)
    rcases hrounds with hrounds | ⟨-, above, hcallback⟩
    · rw [hrounds]
      exact hin
    · rw [hcallback]
      exact List.mem_append_right _ (List.mem_cons_of_mem _ hin)
  refine congrArg List.sum (List.map_congr_left fun r hr => Round.owed_congr (fun a ha => ?_) hkeeps)
  exact ((h.rounds r (hstack r (hsub hr))).2 a (List.mem_append_right _ ha)).1

/-- What a call has called, and what its rounds still owe, never grows. -/
theorem dispatch_owed {o : O} {j : K} {m : Nat} {s₀ : Subject K O V} {calls : List (O × K)}
    (hdispatch : Dispatch keyPaths base (fun s => (s.registered o j).length ≤ m) s₀ calls s)
    (h₀ : Ordered s₀.orders s₀.pairs s₀.stack) {rounds₀ : List (Round K)}
    (hrounds₀ : RoundsAre base s₀ rounds₀) :
    Ordered s.orders s.pairs s.stack ∧ ∃ rounds, RoundsAre base s rounds ∧
      (calls.count (o, j) : ℕ∞) + owedBy keyPaths o j m s.pairs rounds
        ≤ owedBy keyPaths o j m s₀.pairs rounds₀ := by
  induction hdispatch with
  | start => exact ⟨h₀, rounds₀, hrounds₀, (zero_add _).le⟩
  | @own s s' calls _ hgood hown ih =>
      obtain ⟨h, rounds, hrounds, hle⟩ := ih
      obtain ⟨r, rest, tops, rfl, hrounds', hgives⟩ := hrounds.own_givesWay h hown
      have hrest : owedBy keyPaths o j m s'.pairs rest = owedBy keyPaths o j m s.pairs rest :=
        hrounds.owedBy_eq h (hown.keepsObservers h) o j m (List.subset_cons_self r rest)
      refine ⟨hown.ordered h, tops ++ rest, hrounds', le_trans ?_ hle⟩
      calc ((callsBetween s s' ++ calls).count (o, j) : ℕ∞)
            + owedBy keyPaths o j m s'.pairs (tops ++ rest)
          = (calls.count (o, j) : ℕ∞) + (((callsBetween s s').count (o, j) : ℕ∞)
              + owedBy keyPaths o j m s'.pairs tops + owedBy keyPaths o j m s.pairs rest) := by
            rw [List.count_append, Nat.cast_add, owedBy_append, hrest]
            ac_rfl
        _ ≤ (calls.count (o, j) : ℕ∞) + (r.owed keyPaths o j m s.pairs
              + owedBy keyPaths o j m s.pairs rest) :=
            add_le_add le_rfl (add_le_add (hgives.owed o j m hgood) le_rfl)
        _ = (calls.count (o, j) : ℕ∞) + owedBy keyPaths o j m s.pairs (r :: rest) := rfl
  | inner _ hinner ih =>
      obtain ⟨h, rounds, hrounds, hle⟩ := ih
      refine ⟨hinner.ordered h, rounds, hrounds.inner h hinner, ?_⟩
      rw [hrounds.owedBy_eq h (hinner.keepsObservers h) o j m (List.Subset.refl _)]
      exact hle

/-- Where a key leads to finitely many, none of which leads back to itself, its `did` comes
to an end; and whatever the relation, it calls an observer for a key at most once for each
of its registrations and each path. -/
theorem didChange_ends {key : K} (hreach : (machine keyPaths).Reachable s)
    (hstep : step keyPaths s (.didChangeValueForKey key) = .ok s') :
    ((GraphWalk.reachable keyPaths key).Finite →
        (∀ k ∈ GraphWalk.reachable keyPaths key,
          ¬ Relation.TransGen (GraphWalk.Follows keyPaths) k k) →
        Terminates keyPaths s.stack s') ∧
      ∀ (o : O) (j : K) (m : Nat) (calls : List (O × K)) (s'' : Subject K O V),
        (s.registered o j).length ≤ m →
        Dispatch keyPaths s.stack (fun s => (s.registered o j).length ≤ m) s' calls s'' →
        (calls.count (o, j) : ℕ∞) ≤ m * paths keyPaths j key := by
  have h := ordered_of_reachable hreach
  have hentered := Ends.of_ok hstep
    (Subject.enterDidChange_ends keyPaths h key Kind.new_valid true)
  obtain ⟨rounds, hrounds, hown, howed⟩ : ∃ rounds : List (Round K),
      RoundsAre s.stack s' rounds ∧ (∀ r ∈ rounds, r.keyPaths = keyPaths key) ∧
        ∀ (o : O) (j : K) (m : Nat), (s.registered o j).length ≤ m →
          owedBy keyPaths o j m s'.pairs rounds ≤ m * paths keyPaths j key := by
    rcases hentered with ⟨-, rfl⟩ | rfl
    · exact ⟨[], .inl rfl, fun _ hr => (nomatch hr), fun _ _ _ _ => zero_le⟩
    · refine ⟨[s.entered keyPaths key Kind.new true], .inl rfl, fun r hr => ?_,
        fun o j m hm => ?_⟩
      · rw [List.mem_singleton.mp hr]
        rfl
      · rw [owedBy, List.map_singleton, List.sum_singleton]
        exact Round.owed_entered hm key Kind.new true
  have h' := h.enter Kind.new_valid hentered
  constructor
  · intro hfinite hacyclic
    have hacc := GraphWalk.acc_of_acyclic keyPaths hfinite hacyclic
    refine hrounds.terminates h' fun r hr k hk => hacc.inv ?_
    rw [hown r hr] at hk
    exact hk
  · intro o j m calls s'' hm hdispatch
    obtain ⟨-, rounds', -, hle⟩ := dispatch_owed hdispatch h' hrounds
    calc (calls.count (o, j) : ℕ∞) ≤ calls.count (o, j) + owedBy keyPaths o j m s''.pairs rounds' :=
          le_self_add
      _ ≤ owedBy keyPaths o j m s'.pairs rounds := hle
      _ ≤ m * paths keyPaths j key := howed o j m hm

theorem didChange_ends_chain :
    ∃ s s' : Subject String Nat Nat, (machine dependsOnK).Reachable s ∧
      step dependsOnK s (.didChangeValueForKey "k") = .ok s' ∧
      Terminates dependsOnK s.stack s' ∧ ∀ calls s'', Dispatch dependsOnK s.stack
        (fun s => (s.registered 1 "k").length ≤ 1) s' calls s'' →
        (calls.count (1, "k") : ℕ∞) ≤ (1 : Nat) * paths dependsOnK "k" "k" := by
  obtain ⟨s, hexec, s', hstep, hm⟩ : ∃ s, (machine dependsOnK).exec Machine.anyAction
      (.init : Subject String Nat Nat)
      (.addObserver 1 "k" 1 none 10 :: List.replicate 5 .advance) = some s ∧
      ∃ s', step dependsOnK s (.didChangeValueForKey "k") = .ok s' ∧
        (s.registered 1 "k").length = 1 := ⟨_, rfl, _, rfl, rfl⟩
  have hreach : (machine dependsOnK).Reachable s := ⟨_, Machine.run_of_exec hexec⟩
  obtain ⟨hterminates, hcalls⟩ := didChange_ends hreach hstep
  refine ⟨s, s', hreach, hstep, hterminates ?_ ?_, fun calls s'' => hcalls 1 "k" 1 calls s'' hm.le⟩
  · refine (Set.toFinite {"k", "d"}).subset fun a ha => ?_
    rcases Relation.ReflTransGen.cases_tail ha with rfl | ⟨b, -, hb⟩
    · exact .inl rfl
    · exact .inr (dependsOnK_follows hb).2
  · exact fun a _ => dependsOnK_acyclic a

/-- `"k"` depends on itself. -/
def dependsOnItself (key : String) : List String := if key = "k" then ["k"] else []

/-- The round of a key that depends on itself, with nobody registered. -/
def endless : Round String := ⟨"k", Kind.new, true, none, [], ["k"]⟩

omit [DecidableEq O] in
theorem step_endless {s : Subject String O V} (hsome : s.observersInfo.entries.isEmpty = false)
    (hnone : s.observersInfo.lookup "k" = none) {rest : List (Frame String)}
    (hstack : s.stack = .round endless :: rest) :
    s.advance dependsOnItself = .ok { s with
      stack := .round endless :: .round { endless with keyPaths := [] } :: rest } := by
  have hobservers : ({ s with stack := .round { endless with keyPaths := [] } :: rest } :
      Subject String O V).getObservers "k" Kind.new = .ok [] := by
    rw [Subject.getObservers]
    simp only [hnone]
  rw [Subject.advance, hstack]
  show Subject.enterDidChange dependsOnItself
    { s with stack := .round { endless with keyPaths := [] } :: rest } "k" Kind.new true = _
  rw [Subject.enterDidChange, if_neg (by rw [hsome]; exact Bool.false_ne_true), hobservers]
  rfl

/-- The round goes into itself again and again. -/
theorem not_acc_endless {s : Subject String O V}
    (hsome : s.observersInfo.entries.isEmpty = false) (hnone : s.observersInfo.lookup "k" = none)
    {rest : List (Round String)} (hstack : s.stack = (endless :: rest).map .round) :
    ¬ Acc (flip (Onward dependsOnItself [])) s := by
  intro hacc
  induction hacc generalizing rest with
  | intro s _ ih =>
      have hstep : step dependsOnItself s .advance = .ok { s with
          stack := .round endless :: .round { endless with keyPaths := [] } :: rest.map .round } :=
        step_endless hsome hnone hstack
      have hown : Own dependsOnItself [] s { s with
          stack := .round endless :: .round { endless with keyPaths := [] } :: rest.map .round } :=
        ⟨endless :: rest, List.cons_ne_nil _ _, hstack.trans (List.append_nil _).symm, hstep⟩
      have hagain : Onward dependsOnItself [] s _ := ⟨_, hown, .refl⟩
      exact @ih _ hagain hsome hnone ({ endless with keyPaths := [] } :: rest) rfl

/-- `"a"` and `"b"` depend on `"k"`, and `"d"` on both. -/
def diamond (key : String) : List String :=
  if key = "k" then ["a", "b"] else if key = "a" ∨ key = "b" then ["d"] else []

/-- With a key that depends on itself a `did` does not end; a key that two paths lead to has
its one observer called twice; and so is, without any dependent key, an observer that is
registered twice, as `notifyKind` 0 allows. -/
theorem didChange_repeats :
    (∃ s s' : Subject String Nat Nat, (machine dependsOnItself).Reachable s ∧
      step dependsOnItself s (.didChangeValueForKey "k") = .ok s' ∧
      ¬ Terminates dependsOnItself s.stack s') ∧
    (∃ (s s' s'' : Subject String Nat Nat) (calls : List (Nat × String)),
      (machine diamond).Reachable s ∧ (s.registered 1 "d").length = 1 ∧
      step diamond s (.didChangeValueForKey "k") = .ok s' ∧
      Dispatch diamond s.stack (fun _ => True) s' calls s'' ∧ calls.count (1, "d") = 2) ∧
    ∃ (s s' s'' : Subject String Nat Nat) (calls : List (Nat × String)),
      (machine fun _ => []).Reachable s ∧
      step (fun _ => []) s (.didChangeValueForKey "k") = .ok s' ∧
      Dispatch (fun _ => []) s.stack (fun _ => True) s' calls s'' ∧ calls.count (1, "k") = 2 := by
  refine ⟨?_, ?_, ?_⟩
  · obtain ⟨s, hexec, s', hstep, hsome, hnone, hstack⟩ :
        ∃ s, (machine dependsOnItself).exec Machine.anyAction (.init : Subject String Nat Nat)
          (.addObserver 1 "x" 1 none 10 :: List.replicate 3 .advance) = some s ∧
        ∃ s', step dependsOnItself s (.didChangeValueForKey "k") = .ok s' ∧
          s'.observersInfo.entries.isEmpty = false ∧ s'.observersInfo.lookup "k" = none ∧
          s'.stack = [endless].map .round ∧ s.stack = [] := ⟨_, rfl, _, rfl, rfl, rfl, rfl, rfl⟩
    refine ⟨s, s', ⟨_, Machine.run_of_exec hexec⟩, hstep, fun hterminates => ?_⟩
    rw [hstack.2] at hterminates
    exact not_acc_endless hsome hnone hstack.1 hterminates.1
  · exact ⟨_, _, _, _, ⟨.addObserver 1 "d" 1 none 10 :: List.replicate 3 .advance ++
      [.setValue "d" (some 7)], Machine.run_of_exec rfl⟩, rfl, rfl,
      .own (.own (.own (.own (.own (.own (.inner (.own (.own (.own (.start _)
        trivial ⟨_, List.cons_ne_nil _ [], rfl, rfl⟩)
        trivial ⟨_, List.cons_ne_nil _ [_], rfl, rfl⟩)
        trivial ⟨_, List.cons_ne_nil _ [_, _], rfl, rfl⟩)
        ⟨[], _, .returns, List.cons_ne_nil _ [_, _], rfl, by decide, rfl⟩)
        trivial ⟨_, List.cons_ne_nil _ [_, _], rfl, rfl⟩)
        trivial ⟨_, List.cons_ne_nil _ [_, _], rfl, rfl⟩)
        trivial ⟨_, List.cons_ne_nil _ [_], rfl, rfl⟩)
        trivial ⟨_, List.cons_ne_nil _ [], rfl, rfl⟩)
        trivial ⟨_, List.cons_ne_nil _ [_], rfl, rfl⟩)
        trivial ⟨_, List.cons_ne_nil _ [_, _], rfl, rfl⟩, rfl⟩
  · exact ⟨_, _, _, _, ⟨.addObserver 1 "k" 0 none 10 :: List.replicate 3 .advance ++
      .addObserver 1 "k" 0 none 20 :: List.replicate 5 .advance ++ [.setValue "k" (some 7)],
      Machine.run_of_exec rfl⟩, rfl,
      .own (.own (.inner (.own (.start _)
        trivial ⟨_, List.cons_ne_nil _ [], rfl, rfl⟩)
        ⟨[], _, .returns, List.cons_ne_nil _ [], rfl, by decide, rfl⟩)
        trivial ⟨_, List.cons_ne_nil _ [], rfl, rfl⟩)
        trivial ⟨_, List.cons_ne_nil _ [], rfl, rfl⟩, rfl⟩

end KeyValueObserverInterface

end Rx
