/-
# `RxFoundation.KeyValueObserverQuiescence` — what is left when nothing is running

A `Session` is an observed object with a client that keeps its brackets: each
`willChangeValueForKey(k)` is answered by a `didChangeValueForKey(k)`, the innermost
first, and within the callback it was called in.  Anything else may happen between the
two, and in callbacks.

`will` and `did` work on snapshots.  A pair that is not at rest belongs to a key with an
open bracket, whose `did` is to come, or stands in a round that has not come to it yet
(`Settled`): the snapshot of a `did` is the whole order of its key.  So when nothing runs
and no bracket is open, every pair is at rest, and the destructor's assertion holds.
-/
import CrashRealm.Lib.GraphWalk
import CrashRealm.RxFoundation.KeyValueObserverSteps

namespace Rx

namespace KeyValueObserverInterface

variable {K O V : Type}

/-! ## Sessions -/

/-- The open brackets, innermost first, each with the height the stack had when it was
opened. -/
structure Session (K O V : Type) where
  subject : Subject K O V
  brackets : List (K × Nat)

/-- The action closes brackets in order, and leaves none open in a callback that returns. -/
def Session.Brackets (c : Session K O V) : Action K O V → Prop
  | .didChangeValueForKey key => c.brackets.head? = some (key, c.subject.stack.length)
  | .returns => ∀ bracket ∈ c.brackets.head?, bracket.2 ≠ c.subject.stack.length
  | _ => True

/-- The brackets open after an action. -/
def Session.bracketsAfter (c : Session K O V) : Action K O V → List (K × Nat)
  | .willChangeValueForKey key => (key, c.subject.stack.length) :: c.brackets
  | .didChangeValueForKey _ => c.brackets.tail
  | _ => c.brackets

instance [DecidableEq K] (c : Session K O V) : DecidablePred c.Brackets
  | .didChangeValueForKey key =>
      inferInstanceAs (Decidable (c.brackets.head? = some (key, c.subject.stack.length)))
  | .returns =>
      inferInstanceAs (Decidable (∀ bracket ∈ c.brackets.head?, bracket.2 ≠ c.subject.stack.length))
  | .addObserver _ _ _ _ _ | .removeObserver _ _ | .willChangeValueForKey _ | .setValue _ _
  | .advance => inferInstanceAs (Decidable True)

/-- All single-threaded runs with brackets. -/
def bracketed [DecidableEq K] [DecidableEq O] [BEq V] (keyPaths : K → List K) :
    Machine (Session K O V) (Action K O V) Fault where
  start := ⟨.init, []⟩
  enabled := fun c a => enabled c.subject a ∧ c.Brackets a
  step := fun c a => step keyPaths c.subject a >>= fun subject => .ok ⟨subject, c.bracketsAfter a⟩

instance [DecidableEq K] [DecidableEq O] [BEq V] (keyPaths : K → List K) (c : Session K O V)
    (a : Action K O V) : Decidable ((bracketed keyPaths).enabled c a) :=
  inferInstanceAs (Decidable (enabled c.subject a ∧ c.Brackets a))

/-! ## Pairs at rest -/

/-- In `KVOCallState::Default`, with an empty change record. -/
def KVOPair.AtRest (pair : KVOPair O V) : Prop :=
  pair.callState = .default ∧ pair.change = Change.reset

theorem KVOPair.atRest_iff (pair : KVOPair O V) : pair.AtRest ↔ pair.callState = .default ∧
    pair.change.kind = Kind.invalid ∧ pair.change.oldValue = none ∧ pair.change.newValue = none := by
  obtain ⟨_, _, _, ⟨_, _, _⟩, _, _, _⟩ := pair
  simp [AtRest, Change.reset]

theorem KVOPair.atRest_make (observer : O) (notifyKind : Kind) (context : Any V) (value : Bool) :
    ((KVOPair.make observer notifyKind context).setEnabled value).AtRest := ⟨rfl, rfl⟩

/-- The old value is carried over from a record that has just been reset. -/
theorem KVOPair.atRest_didChangeDone (pair : KVOPair O V) : pair.didChangeDone.AtRest := ⟨rfl, rfl⟩

/-- A pair in an order is at rest, or its key has an open bracket, or a round has it ahead. -/
def Settled (orders : K → List Nat) (pairs : Pairs O V) (stack : List (Frame K))
    (brackets : List (K × Nat)) : Prop :=
  ∀ k, ∀ a ∈ orders k, (∀ p, pairs a = some p → p.AtRest) ∨ (∃ n, (k, n) ∈ brackets) ∨
    ∃ r, Frame.round r ∈ stack ∧ r.key = k ∧ a ∈ r.pending

namespace Settled

variable {orders : K → List Nat} {pairs pairs' : Pairs O V} {stack stack' : List (Frame K)}
  {brackets brackets' : List (K × Nat)}

/-- Nobody is registered. -/
theorem of_nil (h : ∀ k, orders k = []) : Settled orders pairs stack brackets := by
  intro k a ha
  rw [h k] at ha
  cases ha

/-- A round may lose whom it has put to rest. -/
theorem restack (h : Settled orders pairs stack brackets)
    (hstack : ∀ r, Frame.round r ∈ stack → ∀ a ∈ r.pending,
      (∃ r', Frame.round r' ∈ stack' ∧ r'.key = r.key ∧ a ∈ r'.pending) ∨
        ∀ p, pairs a = some p → p.AtRest) :
    Settled orders pairs stack' brackets := by
  intro k a ha
  rcases h k a ha with hrest | hopen | ⟨r, hr, hkey, hin⟩
  · exact .inl hrest
  · exact .inr (.inl hopen)
  · rcases hstack r hr a hin with ⟨r', hr', hkey', hin'⟩ | hrest
    · exact .inr (.inr ⟨r', hr', hkey'.trans hkey, hin'⟩)
    · exact .inl hrest

theorem mono (h : Settled orders pairs stack brackets)
    (hsub : ∀ r, Frame.round r ∈ stack → Frame.round r ∈ stack') :
    Settled orders pairs stack' brackets :=
  h.restack fun r hr _ ha => .inl ⟨r, hsub r hr, rfl, ha⟩

/-- Only the pairs of one key have moved, and the key is accounted for. -/
theorem move (h : Settled orders pairs stack brackets)
    (hdisjoint : ∀ k k' a, a ∈ orders k → a ∈ orders k' → k = k') {key : K}
    (hout : ∀ b, b ∉ orders key → pairs' b = pairs b)
    (hbrackets : ∀ b ∈ brackets, b.1 ≠ key → b ∈ brackets')
    (hstack : ∀ r, Frame.round r ∈ stack → Frame.round r ∈ stack')
    (hkey : (∃ n, (key, n) ∈ brackets') ∨
      ∃ r, Frame.round r ∈ stack' ∧ r.key = key ∧ orders key ⊆ r.pending) :
    Settled orders pairs' stack' brackets' := by
  intro k a ha
  by_cases hk : k = key
  · subst hk
    exact .inr (hkey.imp_right fun ⟨r, hr, hrkey, hall⟩ => ⟨r, hr, hrkey, hall ha⟩)
  · have hsame : pairs' a = pairs a := hout a fun hin => hk (hdisjoint k key a ha hin)
    rw [hsame]
    rcases h k a ha with hrest | ⟨n, hopen⟩ | ⟨r, hr, hrkey, hin⟩
    · exact .inl hrest
    · exact .inr (.inl ⟨n, hbrackets _ hopen hk⟩)
    · exact .inr (.inr ⟨r, hstack r hr, hrkey, hin⟩)

/-- The turn of one pair begins, and the pair stays ahead, or ends, and the pair is at rest. -/
theorem turn {r r' : Round K} {rest : List (Frame K)}
    (h : Settled orders pairs (.round r :: rest) brackets)
    (hordered : Ordered orders pairs (.round r :: rest)) {a : Nat} {p : KVOPair O V}
    (hkey : r'.key = r.key) (ha : a ∈ r.pending) (hpending : ∀ b ∈ r.pending, b ≠ a → b ∈ r'.pending)
    (hturn : a ∈ r'.pending ∨ p.AtRest) :
    Settled orders (Function.update pairs a (some p)) (.round r' :: rest) brackets := by
  intro k b hb
  by_cases hba : b = a
  · subst hba
    rcases hturn with hahead | hrest
    · have hown := ((hordered.rounds r List.mem_cons_self).2 b ha).2 k hb
      exact .inr (.inr ⟨r', List.mem_cons_self, hkey.trans hown.symm, hahead⟩)
    · refine .inl fun q hq => ?_
      rw [Function.update_self] at hq
      cases hq
      exact hrest
  · rw [Function.update_of_ne hba]
    rcases h k b hb with hrest | hopen | ⟨r'', hr'', hrkey, hin⟩
    · exact .inl hrest
    · exact .inr (.inl hopen)
    · rcases Frame.round_mem_cons.mp hr'' with rfl | hr''
      · exact .inr (.inr ⟨r', List.mem_cons_self, hkey.trans hrkey, hpending b hin hba⟩)
      · exact .inr (.inr ⟨r'', List.mem_cons_of_mem _ hr'', hrkey, hin⟩)

end Settled

/-! ## Steps -/

section steps

variable [DecidableEq K] [DecidableEq O] {keyPaths : K → List K} {s : Subject K O V}
  {brackets brackets' : List (K × Nat)}

omit [DecidableEq O] in
/-- The round of a `did`, if anybody is registered, makes up for the bracket it closes. -/
theorem Settled.enter (h : Ordered s.orders s.pairs s.stack)
    (hsettled : Settled s.orders s.pairs s.stack brackets) {key : K} {kind : Kind} {doCall : Bool}
    {pairs : Pairs O V} (hout : ∀ b, b ∉ s.orders key → pairs b = s.pairs b)
    (hbrackets : ∀ b ∈ brackets, b.1 ≠ key → b ∈ brackets') {s' : Subject K O V}
    (hs' : s.observersInfo.entries.isEmpty = true ∧ s' = { s with pairs } ∨
      s' = { s with
        pairs, stack := .round (s.entered keyPaths key kind doCall) :: s.stack }) :
    Settled s'.orders s'.pairs s'.stack brackets' := by
  rcases hs' with ⟨hempty, rfl⟩ | rfl
  · exact .of_nil (Subject.orders_of_isEmpty hempty)
  · exact hsettled.move h.disjoint hout hbrackets (fun _ => List.mem_cons_of_mem _)
      (.inr ⟨_, List.mem_cons_self, rfl, List.Subset.refl _⟩)

omit [DecidableEq O] in
theorem Subject.KeyPathWilled.outside {kind : Kind} {keyPath : K} {pairs : Pairs O V}
    (h : s.KeyPathWilled kind keyPath pairs) : ∀ b, b ∉ s.orders keyPath → pairs b = s.pairs b := by
  rcases h with ⟨-, hwilled⟩ | ⟨-, rfl⟩
  · exact hwilled.1
  · exact fun _ _ => rfl

theorem addObserver_settled (h : Ordered s.orders s.pairs s.stack)
    (hsettled : Settled s.orders s.pairs s.stack brackets) (o : O) (k : K) (n : BitVec 64)
    (context : Any V) {address : Nat} (hfresh : s.pairs address = none) :
    Ends anyFault (s.addObserver keyPaths o k n context address) fun s' =>
      Settled s'.orders s'.pairs s'.stack brackets := by
  refine (Subject.addObserver_ends keyPaths h o k n context hfresh).mono fun s' hs' => ?_
  obtain ⟨s₀, s₁, pairs, -, hreg, hwilled, rfl⟩ := hs'
  have hregistered : Settled s₁.orders s₁.pairs s₁.stack brackets := by
    intro k' a ha
    by_cases hnew : a = address
    · subst hnew
      refine .inl fun p hp => ?_
      rw [hreg.pairs, Function.update_self] at hp
      cases hp
      exact KVOPair.atRest_make ..
    · obtain ⟨hin, hsame⟩ := hreg.old h hnew ha
      rw [hsame, hreg.stack]
      exact hsettled k' a hin
  exact hregistered.move hreg.ordered.disjoint hwilled.1 (fun _ hb _ => hb)
    (fun _ => List.mem_cons_of_mem _) (.inr ⟨_, List.mem_cons_self, rfl, List.Subset.refl _⟩)

variable [BEq V]

omit [DecidableEq O] in
theorem advance_settled (h : Ordered s.orders s.pairs s.stack)
    (hsettled : Settled s.orders s.pairs s.stack brackets) :
    Ends anyFault (s.advance keyPaths) fun s' =>
      Settled s'.orders s'.pairs s'.stack brackets := by
  rw [Subject.advance]
  split
  next r rest hstack =>
    rw [hstack] at h hsettled
    cases hcurrent : r.current with
    | some a =>
        rw [Subject.advanceRound_of_current keyPaths hcurrent]
        refine (s.endTurn_ends r a rest).mono ?_
        rintro s' ⟨p, -, rfl⟩
        have hpending : r.pending = a :: r.observers := by rw [Round.pending, hcurrent]; rfl
        refine hsettled.turn h rfl (hpending ▸ List.mem_cons_self) (fun b hb hba => ?_)
          (.inr p.atRest_didChangeDone)
        rw [hpending] at hb
        exact (List.mem_cons.mp hb).resolve_left hba
    | none =>
        have hpending : r.pending = r.observers := by rw [Round.pending, hcurrent]; rfl
        refine (Subject.advanceRound_ends keyPaths h).mono fun s' hadvanced => ?_
        cases hadvanced with
        | endTurn a p hcurrent' _ _ => cases hcurrent.symm.trans hcurrent'
        | beginTurn a observers p _ hobservers _ hs' =>
            subst hs'
            rw [hobservers] at hpending
            have hnext : Settled s.orders (Function.update s.pairs a
                (some (p.didChange (s.value r.key) r.kind r.doCall).1))
                (.round { r with current := some a, observers } :: rest) brackets :=
              hsettled.turn h rfl (hpending ▸ List.mem_cons_self)
                (fun b hb _ => (hpending ▸ hb : b ∈ a :: observers)) (.inl List.mem_cons_self)
            exact Subject.afterTurn_holds
              (fun orders pairs stack => Settled orders pairs stack brackets) hnext
              (hnext.mono fun _ => List.mem_cons_of_mem _)
        | keyPath keyPath more pairs _ _ _ hwilled hs' =>
            have hordered : Ordered s.orders s.pairs (.round { r with keyPaths := more } :: rest) :=
              h.proceed rfl rfl (List.Subset.refl _)
            have hnext : Settled s.orders s.pairs (.round { r with keyPaths := more } :: rest)
                brackets := by
              refine hsettled.restack fun r' hr' a ha => .inl ?_
              rcases Frame.round_mem_cons.mp hr' with rfl | hr'
              · exact ⟨_, List.mem_cons_self, rfl, ha⟩
              · exact ⟨r', List.mem_cons_of_mem _ hr', rfl, ha⟩
            exact Settled.enter (s := { s with stack := .round { r with keyPaths := more } :: rest })
              hordered hnext hwilled.outside (fun _ hb _ => hb) hs'
        | finish hobservers _ hs' =>
            subst hs'
            rw [hobservers] at hpending
            refine hsettled.restack fun r' hr' a ha => .inl ?_
            rcases Frame.round_mem_cons.mp hr' with rfl | hr'
            · rw [hpending] at ha
              cases ha
            · exact ⟨r', hr', rfl, ha⟩
  next => exact hsettled

/-- Every step of a session settles what it leaves. -/
theorem step_settled {c : Session K O V}
    (h : Ordered c.subject.orders c.subject.pairs c.subject.stack)
    (hsettled : Settled c.subject.orders c.subject.pairs c.subject.stack c.brackets)
    {a : Action K O V} (hen : enabled c.subject a) (hbrackets : c.Brackets a) :
    Ends anyFault (step keyPaths c.subject a) fun s' =>
      Settled s'.orders s'.pairs s'.stack (c.bracketsAfter a) := by
  cases a with
  | addObserver o k n context address => exact addObserver_settled h hsettled o k n context hen.2.1
  | removeObserver o k =>
      refine (Subject.removeObserver_removed h o k).bind fun s' ⟨hs', hremoved⟩ k' a ha => ?_
      have hold := hremoved.old h ha
      show (∀ p, s'.pairs a = some p → p.AtRest) ∨ _
      rw [hold.2]
      exact (hsettled.mono fun r hr => hremoved.stack ▸ hr) k' a hold.1
  | willChangeValueForKey k =>
      refine (Subject.willChange_ends h k Kind.new_valid).mono fun s' hs' => ?_
      obtain ⟨pairs, rfl, hwilled⟩ := hs'
      exact hsettled.move h.disjoint hwilled.1 (fun _ hb _ => List.mem_cons_of_mem _ hb)
        (fun _ hr => hr) (.inl ⟨_, List.mem_cons_self⟩)
  | didChangeValueForKey k =>
      refine (Subject.enterDidChange_ends keyPaths h k Kind.new_valid true).mono fun s' hs' => ?_
      refine hsettled.enter h (fun _ _ => rfl) (fun bracket hin hne => ?_) hs'
      -- the bracket that is closed is one of this key
      have hhead : c.brackets.head? = some (k, c.subject.stack.length) := hbrackets
      obtain ⟨rest, hrest⟩ := List.head?_eq_some_iff.mp hhead
      show bracket ∈ c.brackets.tail
      rw [hrest] at hin ⊢
      refine (List.mem_cons.mp hin).resolve_left fun heq => hne ?_
      rw [heq]
  | setValue k value => exact hsettled
  | returns =>
      obtain ⟨rest, hstack⟩ := stack_of_returns hen
      show Settled _ _ c.subject.stack.tail _
      rw [hstack] at hsettled ⊢
      refine hsettled.mono fun r hr => ?_
      exact (List.mem_cons.mp hr).resolve_left fun h => nomatch h
  | advance => exact advance_settled h hsettled

/-- Every session is settled, and its orders are right. -/
theorem settled_of_reachable {c : Session K O V} (h : (bracketed keyPaths).Reachable c) :
    Ordered c.subject.orders c.subject.pairs c.subject.stack ∧
      Settled c.subject.orders c.subject.pairs c.subject.stack c.brackets := by
  refine h.invariant (I := fun c => Ordered c.subject.orders c.subject.pairs c.subject.stack ∧
      Settled c.subject.orders c.subject.pairs c.subject.stack c.brackets)
    ⟨ordered_start rfl, .of_nil fun _ => rfl⟩ fun c a c' ⟨hordered, hsettled⟩ hen hstep => ?_
  obtain ⟨s', hs', hc'⟩ := bind_eq_ok.mp hstep
  cases hc'
  exact ⟨Ends.of_ok (P := fun s => Ordered s.orders s.pairs s.stack) hs'
      (step_ordered hordered hen.1),
    Ends.of_ok (P := fun s => Settled s.orders s.pairs s.stack (c.bracketsAfter a)) hs'
      (step_settled hordered hsettled hen.1 hen.2)⟩

omit [DecidableEq K] [DecidableEq O] [BEq V] in
theorem destroyOrder_eq {observers : List Nat}
    (h : ∀ a ∈ observers, ∃ p, s.pairs a = some p ∧ p.AtRest) :
    s.destroyOrder observers = .ok () := by
  induction observers with
  | nil => rfl
  | cons a observers ih =>
      obtain ⟨p, hp, hrest⟩ := h a List.mem_cons_self
      rw [Subject.destroyOrder, Subject.pairAt, hp]
      exact (if_pos hrest.1).trans (ih fun b hb => h b (List.mem_cons_of_mem a hb))

/-- Every registered pair is in `KVOCallState::Default`, with an empty change record. -/
def Subject.Quiescent (s : Subject K O V) : Prop :=
  ∀ key order, s.observersInfo.lookup key = some order → ∀ address ∈ order.array,
    ∃ pair, s.pairs address = some pair ∧ pair.callState = .default ∧
      pair.change.kind = Kind.invalid ∧ pair.change.oldValue = none ∧ pair.change.newValue = none

/-- What an ordered set may fail with when it is asked where it begins. -/
def sizeCheck : Fault := .assertion "size == _set.size()"

theorem size_ends (order : OrderedSet Nat) : Ends (· = sizeCheck) order.size fun _ => True := by
  rw [OrderedSet.size]
  split
  · trivial
  · rfl

omit [DecidableEq O] [BEq V] in
/-- The destructor finds every pair in `KVOCallState::Default`. -/
theorem Subject.Quiescent.destroy_ends (h : s.Quiescent) :
    Ends (· = sizeCheck) s.destroy fun _ => True := by
  refine Ends.forM fun ⟨key, order⟩ hentry => ?_
  have horder : ∀ a ∈ order.array, ∃ p, s.pairs a = some p ∧ p.AtRest := by
    intro a ha
    obtain ⟨p, hp, hrest⟩ := h key order (AList.mem_lookup_iff.mpr hentry) a ha
    exact ⟨p, hp, p.atRest_iff.mpr hrest⟩
  refine (size_ends order).bind fun _ _ => ?_
  rw [destroyOrder_eq horder]
  trivial

/-- Outside every call and every bracket each registered pair is at rest, and the
assertion of the destructor holds. -/
theorem quiescent_outside_brackets {c : Session K O V} (hreach : (bracketed keyPaths).Reachable c)
    (hidle : c.subject.stack = []) (hclosed : c.brackets = []) :
    c.subject.Quiescent ∧ Ends (· = sizeCheck) c.subject.destroy fun _ => True := by
  obtain ⟨hordered, hsettled⟩ := settled_of_reachable hreach
  have hquiescent : c.subject.Quiescent := by
    intro key order hlook a ha
    have hin : a ∈ c.subject.orders key := by
      rw [Subject.orders, ordersOf_eq hlook]
      exact ha
    obtain ⟨p, hp, -⟩ := hordered.live key a hin
    rw [hidle, hclosed] at hsettled
    rcases hsettled key a hin with hrest | ⟨_, hopen⟩ | ⟨_, hr, -⟩
    · exact ⟨p, hp, p.atRest_iff.mp (hrest p hp)⟩
    · cases hopen
    · cases hr
  exact ⟨hquiescent, hquiescent.destroy_ends⟩

end steps

/-- `"d"` depends on `"k"`. -/
def dependsOnK (key : String) : List String := if key = "k" then ["d"] else []

theorem dependsOnK_follows {a b : String} (h : GraphWalk.Follows dependsOnK a b) :
    a = "k" ∧ b = "d" := by
  by_cases hk : a = "k"
  · rw [GraphWalk.Follows, dependsOnK, if_pos hk] at h
    exact ⟨hk, List.mem_singleton.mp h⟩
  · rw [GraphWalk.Follows, dependsOnK, if_neg hk] at h
    cases h

theorem dependsOnK_leads {a b : String} (h : Relation.TransGen (GraphWalk.Follows dependsOnK) a b) :
    a = "k" ∧ b = "d" := by
  induction h with
  | single hab => exact dependsOnK_follows hab
  | tail _ hbc ih => exact ⟨ih.1, (dependsOnK_follows hbc).2⟩

theorem dependsOnK_acyclic (k : String) :
    ¬ Relation.TransGen (GraphWalk.Follows dependsOnK) k k := by
  intro h
  exact absurd ((dependsOnK_leads h).1.symm.trans (dependsOnK_leads h).2) (by decide)

/-- Two observers, and a change of `"d"` inside the callback of a change of `"k"`. -/
def nestedChange : List (Action String Nat Nat) :=
  .addObserver 1 "k" 3 none 10 :: List.replicate 5 .advance ++
    .addObserver 2 "d" 3 none 20 :: List.replicate 3 .advance ++
    [.willChangeValueForKey "k", .setValue "k" (some 7), .didChangeValueForKey "k", .advance,
      .willChangeValueForKey "d", .setValue "d" (some 9), .didChangeValueForKey "d", .advance,
      .returns, .advance, .advance, .returns, .advance, .advance, .advance, .returns, .advance,
      .advance, .advance]

theorem quiescent_outside_brackets_nested :
    ∃ c, (bracketed dependsOnK).Run Machine.anyAction nestedChange c ∧ c.subject.Quiescent ∧
      Ends (· = sizeCheck) c.subject.destroy fun _ => True := by
  obtain ⟨c, hexec, hidle, hclosed⟩ :
      ∃ c, (bracketed dependsOnK).exec Machine.anyAction ⟨.init, []⟩ nestedChange = some c ∧
        c.subject.stack = [] ∧ c.brackets = [] := ⟨_, rfl, rfl, rfl⟩
  have hrun := Machine.run_of_exec hexec
  exact ⟨c, hrun, quiescent_outside_brackets ⟨_, hrun⟩ hidle hclosed⟩

end KeyValueObserverInterface

end Rx
