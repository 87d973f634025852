/-
# `RxFoundation.KeyValueObserverChanges` — what an observer hears of a change

An `Exchange` is one `willChangeValueForKey(k)` with the `didChangeValueForKey(k)`
that answers it; an `Alternation` is a run made of exchanges that do not overlap,
while anything else that is not about `k` may happen: between the two calls, between
exchanges, and in the callbacks of the `did` round.

In an exchange a pair is called if the new value differs from the old value in its
change record.  `will` fills that old value only for a pair that asked for old values;
for the others it is null, since `setKVOCallState(Default)` resets the record before
the line that should carry the last new value over.  So an observer that asked for old
values hears of each change and of nothing else, and one that did not hears of each
exchange that leaves a value (`hears_each_change_iff`).
-/
import CrashRealm.RxFoundation.KeyValueObserverSpec
import CrashRealm.RxFoundation.KeyValueObserverSteps

namespace Rx

namespace KeyValueObserverInterface

variable {K O V : Type}

/-! ## One pair -/

namespace KVOPair

/-- The old value a pair compares with, after a `will` at this value. -/
def heldValue (pair : KVOPair O V) (before : Any V) : Any V :=
  if pair.asksFor Kind.old then before else none

/-- What `will` and `did` make of a pair that asks for new values and has had its
first round. -/
theorem didChange_willChange [BEq V] {pair : KVOPair O V} (hnew : pair.asksFor Kind.new = true)
    (hrecorded : pair.Recorded)
    (hfirst : pair.asksFor Kind.initialise = true → pair.initialized = true)
    (hen : pair.enabled = true) (before after : Any V) :
    ((pair.willChange before).didChange after Kind.new true).2
        = (after != pair.heldValue before) ∧
      ((pair.willChange before).didChange after Kind.new true).1.change
        = ⟨Kind.new, pair.heldValue before, after⟩ := by
  have hheld : (if pair.asksFor Kind.old then before else pair.change.oldValue)
      = pair.heldValue before := by
    rw [heldValue]
    cases hold : pair.asksFor Kind.old with
    | true => rfl
    | false => exact hrecorded hold
  have hround : (pair.willChange before).first = false := by
    rw [willChange_eq]
    show (pair.asksFor Kind.initialise && !pair.initialized) = false
    cases hinit : pair.asksFor Kind.initialise with
    | true => rw [hfirst hinit]; rfl
    | false => rfl
  have hfill : (pair.willChange before).filled after = after := by
    rw [willChange_eq]
    exact if_pos (Bool.or_eq_true_iff.mpr (.inl hnew))
  rw [didChange_eq, hround, hfill, willChange_eq, hheld]
  refine ⟨?_, rfl⟩
  show (((false || after != pair.heldValue before) && true) && pair.enabled) = _
  rw [hen, Bool.false_or, Bool.and_true, Bool.and_true]

end KVOPair

theorem KVOPair.initialized_didChange [BEq V] (pair : KVOPair O V) (value : Any V) (kind : Kind)
    (doCall : Bool) (hinit : pair.asksFor Kind.initialise = true) :
    (pair.didChange value kind doCall).1.initialized = true := by
  rw [didChange_eq]
  show (pair.first || pair.initialized) = true
  rw [first, hinit]
  cases pair.initialized <;> rfl

/-! ## First rounds -/

/-- A pair in an order that asked for a first round has had it, or stands in a round. -/
def Begun (orders : K → List Nat) (pairs : Pairs O V) (stack : List (Frame K)) : Prop :=
  ∀ k, ∀ a ∈ orders k, ∀ p, pairs a = some p → p.asksFor Kind.initialise = true →
    p.initialized = true ∨ ∃ r, Frame.round r ∈ stack ∧ r.key = k ∧ a ∈ r.observers

namespace Begun

variable {orders : K → List Nat} {pairs pairs' : Pairs O V} {stack stack' : List (Frame K)}

theorem grow (h : Begun orders pairs stack) (hgrow : Grow pairs pairs') :
    Begun orders pairs' stack := by
  intro k a ha p' hp' hinit
  obtain ⟨p, hp, hs⟩ := hgrow.back hp'
  have hinit' : p.asksFor Kind.initialise = true := by
    rw [KVOPair.asksFor, ← hs.notifyKind]
    exact hinit
  exact (h k a ha p hp hinit').imp_left hs.initialized

/-- A round may change if whom it loses has had the first round. -/
theorem restack (h : Begun orders pairs stack)
    (hstack : ∀ r, Frame.round r ∈ stack → ∀ a ∈ r.observers,
      (∃ r', Frame.round r' ∈ stack' ∧ r'.key = r.key ∧ a ∈ r'.observers) ∨
        ∀ p, pairs a = some p → p.asksFor Kind.initialise = true → p.initialized = true) :
    Begun orders pairs stack' := by
  intro k a ha p hp hinit
  obtain hdone | ⟨r, hr, hkey, hin⟩ := h k a ha p hp hinit
  · exact .inl hdone
  · obtain ⟨r', hr', hkey', hin'⟩ | hdone := hstack r hr a hin
    · exact .inr ⟨r', hr', hkey'.trans hkey, hin'⟩
    · exact .inl (hdone p hp hinit)

theorem mono (h : Begun orders pairs stack) (hsub : stack ⊆ stack') : Begun orders pairs stack' :=
  h.restack fun r hr _ ha => .inl ⟨r, hsub hr, rfl, ha⟩

end Begun

section steps

variable [DecidableEq K] [DecidableEq O] [BEq V] {keyPaths : K → List K} {s : Subject K O V}

omit [DecidableEq O] in
theorem advance_begun (h : Ordered s.orders s.pairs s.stack)
    (hbegun : Begun s.orders s.pairs s.stack) :
    Ends anyFault (s.advance keyPaths) fun s' => Begun s'.orders s'.pairs s'.stack := by
  rw [Subject.advance]
  split
  next r rest hstack =>
    rw [hstack] at h hbegun
    -- a round with the same observers takes the place of `r`
    have hreplace : ∀ r' : Round K, r'.key = r.key → r'.observers = r.observers →
        Begun s.orders s.pairs (.round r' :: rest) := by
      intro r' hkey hobservers
      refine hbegun.restack fun r'' hr'' a ha => .inl ?_
      rcases Frame.round_mem_cons.mp hr'' with rfl | hr''
      · exact ⟨r', List.mem_cons_self, hkey, hobservers ▸ ha⟩
      · exact ⟨r'', List.mem_cons_of_mem _ hr'', rfl, ha⟩
    refine (Subject.advanceRound_ends keyPaths h).mono fun s' hadvanced => ?_
    cases hadvanced with
    | endTurn a p _ hp hs' =>
        subst hs'
        exact (hreplace { r with current := none } rfl rfl).grow (.update hp p.succeeds_didChangeDone)
    | beginTurn a observers p _ hobservers hp hs' =>
        subst hs'
        have hturn := p.succeeds_didChange (s.value r.key) r.kind r.doCall
        have hnext : Begun s.orders (Function.update s.pairs a
            (some (p.didChange (s.value r.key) r.kind r.doCall).1))
            (.round { r with current := some a, observers } :: rest) := by
          refine (hbegun.grow (.update hp hturn)).restack fun r' hr' b hb => ?_
          rcases Frame.round_mem_cons.mp hr' with rfl | hr'
          · rw [hobservers] at hb
            rcases List.mem_cons.mp hb with rfl | hb
            · -- its turn is its first round
              refine .inr fun q hq hinit => ?_
              rw [Function.update_self] at hq
              cases hq
              refine p.initialized_didChange _ _ _ ?_
              rw [KVOPair.asksFor, ← hturn.notifyKind]
              exact hinit
            · exact .inl ⟨_, List.mem_cons_self, rfl, hb⟩
          · exact .inl ⟨r', List.mem_cons_of_mem _ hr', rfl, hb⟩
        exact Subject.afterTurn_holds Begun hnext (hnext.mono (List.subset_cons_self _ _))
    | keyPath keyPath more pairs _ _ _ hwilled hs' =>
        have hnext := (hreplace { r with keyPaths := more } rfl rfl).grow hwilled.grow
        rcases hs' with ⟨-, rfl⟩ | rfl
        · exact hnext
        · exact hnext.mono (List.subset_cons_self _ _)
    | finish hobservers _ hs' =>
        subst hs'
        refine hbegun.restack fun r' hr' a ha => ?_
        rcases Frame.round_mem_cons.mp hr' with rfl | hr'
        · rw [hobservers] at ha
          cases ha
        · exact .inl ⟨r', hr', rfl, ha⟩
  next => exact hbegun

omit [BEq V] in
/-- A new pair stands in the round its registration starts. -/
theorem addObserver_begun (h : Ordered s.orders s.pairs s.stack)
    (hbegun : Begun s.orders s.pairs s.stack) (o : O) (k : K) (n : BitVec 64) (context : Any V)
    {address : Nat} (hfresh : s.pairs address = none) :
    Ends anyFault (s.addObserver keyPaths o k n context address) fun s' =>
      Begun s'.orders s'.pairs s'.stack := by
  refine (Subject.addObserver_ends keyPaths h o k n context hfresh).mono fun s' hs' => ?_
  obtain ⟨s₀, s₁, pairs, -, hreg, hwilled, rfl⟩ := hs'
  intro j b hj p' hp' hinit
  by_cases hb : b = address
  · subst hb
    have hjk : j = k := hreg.ordered.disjoint j k b hj hreg.mem
    exact .inr ⟨_, List.mem_cons_self, hjk.symm, hreg.mem⟩
  · obtain ⟨hin, hsame⟩ := hreg.old h hb hj
    obtain ⟨p, hp, hs⟩ := hwilled.grow.back hp'
    have hinit' : p.asksFor Kind.initialise = true := by
      rw [KVOPair.asksFor, ← hs.notifyKind]
      exact hinit
    refine (hbegun j b hin p (hsame.symm.trans hp) hinit').imp hs.initialized ?_
    rintro ⟨r, hr, hkey, hmem⟩
    exact ⟨r, List.mem_cons_of_mem _ (hreg.stack.symm ▸ hr), hkey, hmem⟩

theorem step_begun (h : Ordered s.orders s.pairs s.stack)
    (hbegun : Begun s.orders s.pairs s.stack) {a : Action K O V} (hen : enabled s a) :
    Ends anyFault (step keyPaths s a) fun s' => Begun s'.orders s'.pairs s'.stack := by
  cases a with
  | addObserver o k n context address => exact addObserver_begun h hbegun o k n context hen.2.1
  | removeObserver o k =>
      refine (Subject.removeObserver_removed h o k).bind fun s' ⟨_, hremoved⟩ => ?_
      intro j b hj p hp hinit
      have hin : b ∈ s.orders j ∧ s'.pairs b = s.pairs b := by
        by_cases hjk : j = k
        · subst hjk
          exact ⟨hremoved.sublist.subset hj, hremoved.inside b hj⟩
        · have hj' : b ∈ s.orders j := hremoved.elsewhere j hjk ▸ hj
          exact ⟨hj', hremoved.outside b fun hk => hjk (h.disjoint j k b hj' hk)⟩
      have hstack : s'.stack = s.stack := hremoved.stack
      show _ ∨ ∃ r, Frame.round r ∈ s'.stack ∧ _
      rw [hstack]
      exact hbegun j b hin.1 p (hin.2.symm.trans hp) hinit
  | willChangeValueForKey k =>
      refine (Subject.willChange_ends h k Kind.new_valid).mono fun s' hs' => ?_
      obtain ⟨pairs, rfl, hwilled⟩ := hs'
      exact hbegun.grow hwilled.grow
  | didChangeValueForKey k =>
      refine (Subject.enterDidChange_ends keyPaths h k Kind.new_valid
        true).mono fun s' hs' => ?_
      rcases hs' with ⟨-, rfl⟩ | rfl
      · exact hbegun
      · exact hbegun.mono (List.subset_cons_self _ _)
  | setValue k value => exact hbegun
  | returns =>
      obtain ⟨rest, hstack⟩ := stack_of_returns hen
      refine hbegun.restack fun r hr a ha => .inl ⟨r, ?_, rfl, ha⟩
      rw [hstack] at hr ⊢
      exact (List.mem_cons.mp hr).resolve_left fun h => nomatch h
  | advance => exact advance_begun h hbegun

/-- After every run each pair has had its first round or stands in one. -/
theorem begun_of_reachable (h : (machine keyPaths).Reachable s) :
    Begun s.orders s.pairs s.stack := by
  have hstart : ∀ k a, a ∉ (Subject.init : Subject K O V).orders k := fun _ _ ha => nomatch ha
  have hboth : Ordered s.orders s.pairs s.stack ∧ Begun s.orders s.pairs s.stack := by
    refine h.invariant (I := fun s => Ordered s.orders s.pairs s.stack ∧
      Begun s.orders s.pairs s.stack) ⟨ordered_start rfl, fun k a ha => absurd ha (hstart k a)⟩
      fun s a s' ⟨hs, hbegun⟩ hen hstep => ⟨?_, ?_⟩
    · exact Ends.of_ok (P := fun s => Ordered s.orders s.pairs s.stack) hstep (step_ordered hs hen)
    · exact Ends.of_ok (P := fun s => Begun s.orders s.pairs s.stack) hstep
        (step_begun hs hbegun hen)
  exact hboth.2

end steps

/-! ## What is not about a key -/

/-- Following dependent keys from `k` one comes to `k'`. -/
def Leads (keyPaths : K → List K) : K → K → Prop :=
  Relation.ReflTransGen fun k k' => k' ∈ keyPaths k

/-- No `did` of this key is open, or ahead in a round. -/
def Apart (keyPaths : K → List K) (key : K) (stack : List (Frame K)) : Prop :=
  ∀ r, Frame.round r ∈ stack → r.key ≠ key ∧ ∀ keyPath ∈ r.keyPaths, ¬ Leads keyPaths keyPath key

/-- An action that is not about this key. -/
def Elsewhere (keyPaths : K → List K) (key : K) : Action K O V → Prop
  | .addObserver _ k _ _ _ | .didChangeValueForKey k => ¬ Leads keyPaths k key
  | .removeObserver _ k | .willChangeValueForKey k | .setValue k _ => k ≠ key
  | .returns | .advance => True

def Event.key : Event K O V → K
  | .added _ key _ _ | .removed _ key | .notified _ key _ _ => key

/-- Nothing that has to do with this key has changed but its value. -/
structure Untouched [DecidableEq K] (key : K) (s s' : Subject K O V) : Prop where
  orders : s'.orders key = s.orders key
  pairs : ∀ b ∈ s.orders key, s'.pairs b = s.pairs b
  log : ∃ events, s'.log = events ++ s.log ∧ ∀ e ∈ events, e.key ≠ key

theorem Leads.refl {keyPaths : K → List K} {k k' : K} (h : ¬ Leads keyPaths k k') : k ≠ k' := by
  rintro rfl
  exact h Relation.ReflTransGen.refl

theorem Leads.next {keyPaths : K → List K} {k k' : K} (h : ¬ Leads keyPaths k k') {keyPath : K}
    (hin : keyPath ∈ keyPaths k) : ¬ Leads keyPaths keyPath k' :=
  fun hleads => h (Relation.ReflTransGen.head hin hleads)

namespace Apart

variable {keyPaths : K → List K} {key : K} {stack : List (Frame K)}

theorem nil : Apart keyPaths key [] := fun _ hr => nomatch hr

theorem push (h : Apart keyPaths key stack) {r : Round K} (hkey : r.key ≠ key)
    (hpaths : ∀ keyPath ∈ r.keyPaths, ¬ Leads keyPaths keyPath key) :
    Apart keyPaths key (.round r :: stack) :=
  Frame.forall_round_cons ⟨hkey, hpaths⟩ h

theorem callback (h : Apart keyPaths key stack) : Apart keyPaths key (.callback :: stack) :=
  fun r hr => h r ((List.mem_cons.mp hr).resolve_left fun h => nomatch h)

theorem tail (h : Apart keyPaths key stack) : Apart keyPaths key stack.tail :=
  fun r hr => h r (List.mem_of_mem_tail hr)

end Apart

namespace Untouched

variable [DecidableEq K] {key : K} {s s' : Subject K O V}

theorem refl (key : K) (s : Subject K O V) : Untouched key s s :=
  ⟨rfl, fun _ _ => rfl, [], rfl, fun _ he => nomatch he⟩

theorem trans {s'' : Subject K O V} (h : Untouched key s s') (h' : Untouched key s' s'') :
    Untouched key s s'' := by
  refine ⟨h'.orders.trans h.orders, fun b hb => ?_, ?_⟩
  · exact (h'.pairs b (h.orders ▸ hb)).trans (h.pairs b hb)
  · obtain ⟨events, hlog, hevents⟩ := h.log
    obtain ⟨events', hlog', hevents'⟩ := h'.log
    refine ⟨events' ++ events, by rw [hlog', hlog, List.append_assoc], fun e he => ?_⟩
    exact (List.mem_append.mp he).elim (hevents' e) (hevents e)

/-- A change of pairs that are in no order of the key. -/
theorem of_pairs (horders : s'.orders key = s.orders key)
    (hpairs : ∀ b ∈ s.orders key, s'.pairs b = s.pairs b) (hlog : s'.log = s.log) :
    Untouched key s s' :=
  ⟨horders, hpairs, [], hlog, fun _ he => nomatch he⟩

end Untouched

section elsewhere

variable [DecidableEq K] {keyPaths : K → List K} {key : K} {s : Subject K O V}

/-- A `will` of another key. -/
theorem Subject.Willed.untouched (h : Ordered s.orders s.pairs s.stack) {k : K}
    {pairs : Pairs O V} (hwilled : s.Willed k pairs) (hk : k ≠ key) :
    ∀ b ∈ s.orders key, pairs b = s.pairs b :=
  fun b hb => hwilled.1 b fun hin => hk (h.disjoint k key b hin hb)

theorem Subject.KeyPathWilled.untouched (h : Ordered s.orders s.pairs s.stack) {kind : Kind}
    {k : K} {pairs : Pairs O V} (hwilled : s.KeyPathWilled kind k pairs) (hk : k ≠ key) :
    ∀ b ∈ s.orders key, pairs b = s.pairs b := by
  rcases hwilled with ⟨-, hwilled⟩ | ⟨-, rfl⟩
  · exact hwilled.untouched h hk
  · exact fun _ _ => rfl

variable [BEq V]

/-- A round of another key goes on. -/
theorem advanceRound_elsewhere (h : Ordered s.orders s.pairs s.stack) {r : Round K}
    {rest pre below : List (Frame K)} (hstack : s.stack = .round r :: rest)
    (hrest : rest = pre ++ below) (hapart : Apart keyPaths key (.round r :: pre)) :
    Ends anyFault (s.advanceRound keyPaths r rest) fun s' =>
      Untouched key s s' ∧ s'.value = s.value ∧
        ∃ pre', s'.stack = pre' ++ below ∧ Apart keyPaths key pre' := by
  subst hrest
  have hround : Ordered s.orders s.pairs (.round r :: (pre ++ below)) := hstack ▸ h
  obtain ⟨-, hpending⟩ := hround.rounds r List.mem_cons_self
  obtain ⟨hkey, hpaths⟩ := hapart r List.mem_cons_self
  have hpre : Apart keyPaths key pre := hapart.tail
  have hother : ∀ a ∈ r.pending, ∀ p : KVOPair O V, ∀ b ∈ s.orders key,
      Function.update s.pairs a (some p) b = s.pairs b := by
    intro a ha p b hb
    refine Function.update_of_ne (fun hba => ?_) ..
    subst hba
    exact hkey ((hpending b ha).2 key hb).symm
  refine (Subject.advanceRound_ends keyPaths hround).mono fun s' hadvanced => ?_
  cases hadvanced with
  | endTurn a p hcurrent _ hs' =>
      subst hs'
      have ha : a ∈ r.pending := by
        rw [Round.pending, hcurrent]
        exact List.mem_cons_self
      exact ⟨.of_pairs rfl (hother a ha _) rfl, rfl, .round { r with current := none } :: pre, rfl,
        hpre.push hkey hpaths⟩
  | beginTurn a observers p _ hobservers _ hs' =>
      subst hs'
      have ha : a ∈ r.pending := by
        rw [Round.pending, hobservers]
        exact List.mem_append_right _ List.mem_cons_self
      have hnext : Apart keyPaths key (.round { r with current := some a, observers } :: pre) :=
        hpre.push hkey hpaths
      cases hcall : (p.didChange (s.value r.key) r.kind r.doCall).2 with
      | true =>
          rw [Subject.afterTurn_of_call observers _ hcall]
          refine ⟨⟨rfl, hother a ha _, [_], rfl, fun e he => ?_⟩, rfl, _, rfl, hnext.callback⟩
          rw [List.mem_singleton.mp he]
          exact hkey
      | false =>
          rw [Subject.afterTurn_of_silent observers _ hcall]
          exact ⟨.of_pairs rfl (hother a ha _) rfl, rfl, _, rfl, hnext⟩
  | keyPath keyPath more pairs _ _ hmore hwilled hs' =>
      rw [hmore] at hpaths
      have hpath := hpaths keyPath List.mem_cons_self
      have hnext : Apart keyPaths key (.round { r with keyPaths := more } :: pre) :=
        hpre.push hkey fun k hk => hpaths k (List.mem_cons_of_mem _ hk)
      have hsame := hwilled.untouched h (Leads.refl hpath)
      rcases hs' with ⟨-, rfl⟩ | rfl
      · exact ⟨.of_pairs rfl hsame rfl, rfl, _, rfl, hnext⟩
      · exact ⟨.of_pairs rfl hsame rfl, rfl, _, rfl,
          hnext.push (Leads.refl hpath) fun k hk => Leads.next hpath hk⟩
  | finish _ _ hs' =>
      subst hs'
      exact ⟨.of_pairs rfl (fun _ _ => rfl) rfl, rfl, pre, rfl, hpre⟩

variable [DecidableEq O]

omit [BEq V] in
theorem addObserver_elsewhere (h : Ordered s.orders s.pairs s.stack) {o : O} {k : K}
    (n : BitVec 64) (context : Any V) {address : Nat} (hfresh : s.pairs address = none)
    (hk : ¬ Leads keyPaths k key) {pre below : List (Frame K)} (hstack : s.stack = pre ++ below)
    (hpre : Apart keyPaths key pre) :
    Ends anyFault (s.addObserver keyPaths o k n context address) fun s' =>
      Untouched key s s' ∧ s'.value = s.value ∧
        ∃ pre', s'.stack = pre' ++ below ∧ Apart keyPaths key pre' := by
  have hne : k ≠ key := Leads.refl hk
  refine (Subject.addObserver_ends keyPaths h o k n context hfresh).mono fun s' hs' => ?_
  obtain ⟨s₀, s₁, pairs, -, hreg, hwilled, rfl⟩ := hs'
  have horder : s₁.orders key = s.orders key := hreg.elsewhere hne.symm
  refine ⟨⟨horder, fun b hb => ?_, [_], congrArg _ hreg.log, fun e he => ?_⟩, hreg.value, _,
    congrArg _ (hreg.stack.trans hstack), hpre.push hne fun _ hin => Leads.next hk hin⟩
  · obtain ⟨p, hp, -⟩ := h.live key b hb
    have hba : b ≠ address := by
      rintro rfl
      cases hfresh.symm.trans hp
    have hb₁ : b ∈ s₁.orders key := horder.symm ▸ hb
    exact (hwilled.untouched hreg.ordered hne b hb₁).trans (hreg.old h hba hb₁).2
  · rw [List.mem_singleton.mp he]
    exact hne

/-- A step that is not about the key, made by what stands above `below`. -/
theorem step_elsewhere (h : Ordered s.orders s.pairs s.stack) {a : Action K O V}
    (ha : Elsewhere keyPaths key a ∨ ∃ v, a = .setValue key v) (hen : enabled s a)
    {pre below : List (Frame K)} (hstack : s.stack = pre ++ below)
    (hpre : Apart keyPaths key pre) (htop : pre = [] → below = []) :
    Ends anyFault (step keyPaths s a) fun s' =>
      Untouched key s s' ∧ (Elsewhere keyPaths key a → s'.value key = s.value key) ∧
        ∃ pre', s'.stack = pre' ++ below ∧ Apart keyPaths key pre' := by
  -- what runs is above `below`
  have htop' : ∀ frame rest, s.stack = frame :: rest → ∃ pre', pre = frame :: pre' ∧
      rest = pre' ++ below := by
    intro frame rest hcons
    rw [hstack] at hcons
    cases pre with
    | nil =>
        rw [htop rfl] at hcons
        cases hcons
    | cons frame' pre' =>
        cases hcons
        exact ⟨pre', rfl, rfl⟩
  cases a with
  | addObserver o k n context address =>
      have hk : ¬ Leads keyPaths k key := ha.resolve_right fun ⟨_, h⟩ => nomatch h
      refine (addObserver_elsewhere h n context hen.2.1 hk hstack hpre).mono fun s' hs' => ?_
      exact ⟨hs'.1, fun _ => congrFun hs'.2.1 key, hs'.2.2⟩
  | removeObserver o k =>
      have hne : k ≠ key := ha.resolve_right fun ⟨_, h⟩ => nomatch h
      refine (Subject.removeObserver_removed h o k).bind fun s' ⟨_, hremoved⟩ => ?_
      refine ⟨⟨hremoved.elsewhere key hne.symm, fun b hb => ?_, [_], congrArg _ hremoved.log,
        fun e he => ?_⟩, fun _ => congrFun hremoved.value key, pre,
        hremoved.stack.trans hstack, hpre⟩
      · exact hremoved.outside b fun hin => hne (h.disjoint k key b hin hb)
      · rw [List.mem_singleton.mp he]
        exact hne
  | willChangeValueForKey k =>
      have hne : k ≠ key := ha.resolve_right fun ⟨_, h⟩ => nomatch h
      refine (Subject.willChange_ends h k Kind.new_valid).mono fun s' hs' => ?_
      obtain ⟨pairs, rfl, hwilled⟩ := hs'
      exact ⟨.of_pairs rfl (hwilled.untouched h hne) rfl, fun _ => rfl, pre, hstack, hpre⟩
  | didChangeValueForKey k =>
      have hk : ¬ Leads keyPaths k key := ha.resolve_right fun ⟨_, h⟩ => nomatch h
      refine (Subject.enterDidChange_ends keyPaths h k Kind.new_valid
        true).mono fun s' hs' => ?_
      rcases hs' with ⟨-, rfl⟩ | rfl
      · exact ⟨.refl key s', fun _ => rfl, pre, hstack, hpre⟩
      · exact ⟨.of_pairs rfl (fun _ _ => rfl) rfl, fun _ => rfl, _, congrArg _ hstack,
          hpre.push (Leads.refl hk) fun _ hin => Leads.next hk hin⟩
  | setValue k value =>
      exact ⟨.of_pairs rfl (fun _ _ => rfl) rfl,
        fun hne => Function.update_of_ne (Ne.symm hne) .., pre, hstack, hpre⟩
  | returns =>
      obtain ⟨hclient, hne⟩ := hen
      obtain ⟨frame, rest, hcons⟩ := List.exists_cons_of_ne_nil hne
      obtain ⟨pre', hpre', hrest⟩ := htop' frame rest hcons
      subst hpre'
      refine ⟨.of_pairs rfl (fun _ _ => rfl) rfl, fun _ => rfl, pre', ?_, hpre.tail⟩
      show s.stack.tail = _
      rw [hcons, hrest]
      rfl
  | advance =>
      show Ends anyFault (s.advance keyPaths) _
      rw [Subject.advance]
      split
      next r rest hcons =>
        obtain ⟨pre', hpre', hrest⟩ := htop' _ rest hcons
        subst hpre'
        exact (advanceRound_elsewhere h hcons hrest hpre).mono fun s' hs' =>
          ⟨hs'.1, fun _ => congrFun hs'.2.1 key, hs'.2.2⟩
      next => exact ⟨.refl key s, fun _ => rfl, pre, hstack, hpre⟩

end elsewhere

/-! ## Exchanges -/

section exchanges

variable [DecidableEq K] [DecidableEq O] [BEq V] (keyPaths : K → List K) (key : K)

/-- One step by an action with this property. -/
def Moves (P : Action K O V → Prop) (s s' : Subject K O V) : Prop :=
  ∃ a, enabled s a ∧ P a ∧ step keyPaths s a = .ok s'

/-- The value before and after, and what was logged. -/
structure Exchange (K O V : Type) where
  before : Any V
  after : Any V
  events : List (Event K O V)

/-- A `will` and the `did` that answers it, until no `did` of the key is open. -/
def Exchanged (s : Subject K O V) (x : Exchange K O V) (s' : Subject K O V) : Prop :=
  ∃ s₁ s₂ s₃, Moves keyPaths (· = .willChangeValueForKey key) s s₁ ∧
    Relation.ReflTransGen (Moves keyPaths fun a =>
      Elsewhere keyPaths key a ∨ ∃ v, a = .setValue key v) s₁ s₂ ∧
    Moves keyPaths (· = .didChangeValueForKey key) s₂ s₃ ∧
    Relation.ReflTransGen (Moves keyPaths (Elsewhere keyPaths key)) s₃ s' ∧
    Apart keyPaths key s'.stack ∧
    x.before = s.value key ∧ x.after = s₂.value key ∧ s'.log = x.events ++ s.log

/-- Exchanges of a key that do not overlap, with anything else in between. -/
inductive Alternation : Subject K O V → List (Exchange K O V) → Subject K O V → Prop where
  | start (s : Subject K O V) : Alternation s [] s
  | other {s s₁ s₂ : Subject K O V} {xs : List (Exchange K O V)} : Alternation s xs s₁ →
      Moves keyPaths (fun a => Elsewhere keyPaths key a ∨ ∃ v, a = .setValue key v) s₁ s₂ →
      Alternation s xs s₂
  | exchange {s s₁ s₂ : Subject K O V} {xs : List (Exchange K O V)} {x : Exchange K O V} :
      Alternation s xs s₁ → Exchanged keyPaths key s₁ x s₂ → Alternation s (xs ++ [x]) s₂

/-- What an observer hears of a key, newest first. -/
def heard (observer : O) (events : List (Event K O V)) : List (Change V) :=
  events.filterMap fun
    | .notified o k _ change => if o = observer ∧ k = key then some change else none
    | _ => none

/-- The observer is called once if the value differs, with both values as far as it
asked for them, and else not at all. -/
def Exchange.Meets (x : Exchange K O V) (observer : O) (withOld : Bool) : Prop :=
  ((x.after != x.before) = true → ∃ change, heard key observer x.events = [change] ∧
      change.newValue = x.after ∧ (withOld = true → change.oldValue = x.before)) ∧
    ((x.after != x.before) = false → heard key observer x.events = [])

variable {keyPaths key} {observer : O}

omit [BEq V] in
theorem heard_append (events events' : List (Event K O V)) :
    heard key observer (events ++ events') = heard key observer events ++ heard key observer events' :=
  List.filterMap_append

omit [BEq V] in
theorem heard_elsewhere {events : List (Event K O V)} (h : ∀ e ∈ events, e.key ≠ key) :
    heard key observer events = [] := by
  refine List.filterMap_eq_nil_iff.mpr fun e he => ?_
  cases e with
  | added => rfl
  | removed => rfl
  | notified o k context change => exact if_neg fun hboth => h _ he hboth.2

omit [BEq V] in
theorem heard_self (context : Any V) (change : Change V) :
    heard key observer [.notified observer key context change] = [change] :=
  List.filterMap_cons_some (if_pos ⟨rfl, rfl⟩)

omit [BEq V] in
theorem heard_other {o : O} (ho : o ≠ observer) (k : K) (context : Any V) (change : Change V) :
    heard key observer [.notified o k context change] = [] :=
  List.filterMap_cons_none (if_neg fun h => ho h.1)

/-- A property kept by such steps is kept by any number of them. -/
theorem moves_induction {P : Action K O V → Prop} {I : Subject K O V → Prop}
    (hstep : ∀ s a, Ordered s.orders s.pairs s.stack → I s → enabled s a → P a →
      Ends anyFault (step keyPaths s a) I)
    {s s' : Subject K O V} (hmoves : Relation.ReflTransGen (Moves keyPaths P) s s')
    (h : Ordered s.orders s.pairs s.stack) (hs : I s) :
    Ordered s'.orders s'.pairs s'.stack ∧ I s' := by
  induction hmoves with
  | refl => exact ⟨h, hs⟩
  | tail _ hmove ih =>
      obtain ⟨a, hen, ha, hrun⟩ := hmove
      obtain ⟨h₁, hs₁⟩ := ih
      exact ⟨Ends.of_ok (P := fun s => Ordered s.orders s.pairs s.stack) hrun (step_ordered h₁ hen),
        Ends.of_ok (P := I) hrun (hstep _ a h₁ hs₁ hen ha)⟩

/-! ### A round that leads back to its own key never ends -/

/-- A round still has a dependent key ahead that leads to the key. -/
def Returning (keyPaths : K → List K) (key : K) (stack : List (Frame K)) : Prop :=
  ∃ r, Frame.round r ∈ stack ∧ ∃ keyPath ∈ r.keyPaths, Leads keyPaths keyPath key

omit [DecidableEq K] [DecidableEq O] [BEq V] in
theorem Returning.mono {stack stack' : List (Frame K)} (h : Returning keyPaths key stack)
    (hsub : ∀ r, Frame.round r ∈ stack → Frame.round r ∈ stack') :
    Returning keyPaths key stack' := by
  obtain ⟨r, hr, hpaths⟩ := h
  exact ⟨r, hsub r hr, hpaths⟩

omit [DecidableEq O] in
theorem advance_returning {s : Subject K O V} (h : Ordered s.orders s.pairs s.stack)
    (hcycle : ∃ keyPath ∈ keyPaths key, Leads keyPaths keyPath key) (hne : s.orders key ≠ [])
    (hret : Returning keyPaths key s.stack) :
    Ends anyFault (s.advance keyPaths) fun s' =>
      s'.orders key ≠ [] ∧ Returning keyPaths key s'.stack := by
  have hnonempty : s.observersInfo.entries.isEmpty ≠ true :=
    fun hempty => hne (Subject.orders_of_isEmpty hempty key)
  rw [Subject.advance]
  split
  next r rest hstack =>
    rw [hstack] at h hret
    -- what has the dependent keys of `r` ahead is as good as `r`
    have hreplace : ∀ r' : Round K, r'.keyPaths = r.keyPaths →
        Returning keyPaths key (.round r' :: rest) := by
      intro r' hpaths
      obtain ⟨r'', hr'', hlead⟩ := hret
      rcases Frame.round_mem_cons.mp hr'' with rfl | hr''
      · exact ⟨r', List.mem_cons_self, hpaths ▸ hlead⟩
      · exact ⟨r'', List.mem_cons_of_mem _ hr'', hlead⟩
    refine (Subject.advanceRound_ends keyPaths h).mono fun s' hadvanced => ?_
    cases hadvanced with
    | endTurn a p _ _ hs' =>
        subst hs'
        exact ⟨hne, hreplace { r with current := none } rfl⟩
    | beginTurn a observers p _ _ _ hs' =>
        subst hs'
        have hnext := hreplace { r with current := some a, observers } rfl
        exact Subject.afterTurn_holds
          (fun orders _ stack => orders key ≠ [] ∧ Returning keyPaths key stack)
          ⟨hne, hnext⟩ ⟨hne, hnext.mono fun _ => List.mem_cons_of_mem _⟩
    | keyPath keyPath more pairs _ _ hmore _ hs' =>
        rcases hs' with ⟨hempty, -⟩ | rfl
        · exact absurd hempty hnonempty
        refine ⟨hne, ?_⟩
        obtain ⟨r', hr', path, hpath, hleads⟩ := hret
        rcases Frame.round_mem_cons.mp hr' with rfl | hr'
        · rw [hmore] at hpath
          rcases List.mem_cons.mp hpath with rfl | hpath
          · -- the new round has the next key of the way ahead
            refine ⟨_, List.mem_cons_self, ?_⟩
            obtain rfl | ⟨next, hnext, hleads'⟩ := Relation.ReflTransGen.cases_head hleads
            · exact hcycle
            · exact ⟨next, hnext, hleads'⟩
          · exact ⟨{ r with keyPaths := more }, List.mem_cons_of_mem _ List.mem_cons_self, path,
              hpath, hleads⟩
        · exact ⟨r', List.mem_cons_of_mem _ (List.mem_cons_of_mem _ hr'), path, hpath, hleads⟩
    | finish _ hnil hs' =>
        subst hs'
        obtain ⟨r', hr', path, hpath, hleads⟩ := hret
        rcases Frame.round_mem_cons.mp hr' with rfl | hr'
        · rw [hnil] at hpath
          cases hpath
        · exact ⟨hne, r', hr', path, hpath, hleads⟩
  next => exact ⟨hne, hret⟩

theorem step_returning {s : Subject K O V} (h : Ordered s.orders s.pairs s.stack)
    (hcycle : ∃ keyPath ∈ keyPaths key, Leads keyPaths keyPath key) (hne : s.orders key ≠ [])
    (hret : Returning keyPaths key s.stack) {a : Action K O V} (hen : enabled s a)
    (ha : Elsewhere keyPaths key a) :
    Ends anyFault (step keyPaths s a) fun s' =>
      s'.orders key ≠ [] ∧ Returning keyPaths key s'.stack := by
  cases a with
  | addObserver o k n context address =>
      have hk : k ≠ key := Leads.refl ha
      refine (Subject.addObserver_ends keyPaths h o k n context hen.2.1).mono fun s' hs' => ?_
      obtain ⟨s₀, s₁, pairs, -, hreg, -, rfl⟩ := hs'
      refine ⟨?_, hret.mono fun r hr => List.mem_cons_of_mem _ (hreg.stack.symm ▸ hr)⟩
      show s₁.orders key ≠ []
      rw [hreg.elsewhere hk.symm]
      exact hne
  | removeObserver o k =>
      refine (Subject.removeObserver_removed h o k).bind fun s' ⟨_, hremoved⟩ => ⟨?_, ?_⟩
      · show s'.orders key ≠ []
        rw [hremoved.elsewhere key (Ne.symm ha)]
        exact hne
      · exact hret.mono fun r hr => hremoved.stack.symm ▸ hr
  | willChangeValueForKey k =>
      refine (Subject.willChange_ends h k Kind.new_valid).mono fun s' hs' => ?_
      obtain ⟨pairs, rfl, -⟩ := hs'
      exact ⟨hne, hret⟩
  | didChangeValueForKey k =>
      refine (Subject.enterDidChange_ends keyPaths h k Kind.new_valid
        true).mono fun s' hs' => ?_
      rcases hs' with ⟨-, rfl⟩ | rfl
      · exact ⟨hne, hret⟩
      · exact ⟨hne, hret.mono fun _ => List.mem_cons_of_mem _⟩
  | setValue k value => exact ⟨hne, hret⟩
  | returns =>
      obtain ⟨rest, hstack⟩ := stack_of_returns hen
      refine ⟨hne, hret.mono fun r hr => ?_⟩
      show Frame.round r ∈ s.stack.tail
      rw [hstack] at hr ⊢
      exact (List.mem_cons.mp hr).resolve_left fun h => nomatch h
  | advance => exact advance_returning h hcycle hne hret

/-- If the `did` of a key comes to an end, its dependent keys do not lead back to it. -/
theorem not_leads_of_apart {s s' : Subject K O V} (h : Ordered s.orders s.pairs s.stack)
    (hne : s.orders key ≠ []) {r : Round K} {rest : List (Frame K)}
    (hstack : s.stack = .round r :: rest) (hpaths : r.keyPaths = keyPaths key)
    (hmoves : Relation.ReflTransGen (Moves keyPaths (Elsewhere keyPaths key)) s s')
    (hapart : Apart keyPaths key s'.stack) :
    ∀ keyPath ∈ keyPaths key, ¬ Leads keyPaths keyPath key := by
  intro keyPath hin hleads
  have hcycle : ∃ keyPath ∈ keyPaths key, Leads keyPaths keyPath key := ⟨keyPath, hin, hleads⟩
  have hret : Returning keyPaths key s.stack := by
    rw [hstack]
    exact ⟨r, List.mem_cons_self, keyPath, hpaths ▸ hin, hleads⟩
  obtain ⟨-, -, r', hr', path, hpath, hleads'⟩ := moves_induction
    (I := fun s => s.orders key ≠ [] ∧ Returning keyPaths key s.stack)
    (fun s a hs hI hen ha => step_returning hs hcycle hI.1 hI.2 hen ha) hmoves h ⟨hne, hret⟩
  exact (hapart r' hr').2 path hpath hleads'

/-! ### The round of a `did` -/

/-- The pairs in the order of a key, each succeeded. -/
structure Followed (key : K) (s s' : Subject K O V) : Prop where
  orders : s'.orders key = s.orders key
  pairs : ∀ b ∈ s.orders key, ∀ p, s.pairs b = some p →
    ∃ p', s'.pairs b = some p' ∧ p.Succeeds p'

namespace Followed

variable {s s' s'' : Subject K O V}

omit [DecidableEq O] [BEq V]

theorem trans (h : Followed key s s') (h' : Followed key s' s'') : Followed key s s'' := by
  refine ⟨h'.orders.trans h.orders, fun b hb p hp => ?_⟩
  obtain ⟨p', hp', hs⟩ := h.pairs b hb p hp
  obtain ⟨p'', hp'', hs'⟩ := h'.pairs b (h.orders ▸ hb) p' hp'
  exact ⟨p'', hp'', hs.trans hs'⟩

theorem of_untouched (h : Untouched key s s') : Followed key s s' :=
  ⟨h.orders, fun b hb p hp => ⟨p, (h.pairs b hb).trans hp, .refl p⟩⟩

theorem of_grow (horders : s'.orders key = s.orders key) (h : Grow s.pairs s'.pairs) :
    Followed key s s' :=
  ⟨horders, fun b _ p hp => h.2 b p hp⟩

end Followed

/-- What the turn of a pair adds to what its observer hears. -/
def outcome (pair : KVOPair O V) (value : Any V) : List (Change V) :=
  if (pair.didChange value Kind.new true).2 then [(pair.didChange value Kind.new true).1.change]
  else []

/-- The `did` of the key is open: `m` is its round, and the pair at `address` waits for
its turn or has had it. -/
structure Open (keyPaths : K → List K) (key : K) (observer : O) (address : Nat)
    (pair : KVOPair O V) (value : Any V) (s : Subject K O V) (calls : List (Change V))
    (m : Round K) (pre rest : List (Frame K)) : Prop where
  stack : s.stack = pre ++ .round m :: rest
  above : Apart keyPaths key pre
  below : Apart keyPaths key rest
  ofKey : m.key = key
  kind : m.kind = Kind.new
  doCall : m.doCall = true
  paths : ∀ keyPath ∈ m.keyPaths, ¬ Leads keyPaths keyPath key
  nodup : m.pending.Nodup
  pending : ∀ b ∈ m.pending, b ∈ s.orders key
  others : ∀ b ∈ m.pending, b ≠ address → ∀ p, s.pairs b = some p → p.observer ≠ observer
  turn : address ∈ m.observers ∧ s.pairs address = some pair ∧ calls = [] ∨
    address ∉ m.observers ∧ calls = outcome pair value

/-- The `did` is open, or over. -/
def During (keyPaths : K → List K) (key : K) (observer : O) (address : Nat)
    (pair : KVOPair O V) (value : Any V) (s : Subject K O V) (calls : List (Change V)) : Prop :=
  (∃ m pre rest, Open keyPaths key observer address pair value s calls m pre rest) ∨
    Apart keyPaths key s.stack ∧ calls = outcome pair value

section during

variable {address : Nat} {pair : KVOPair O V} {value : Any V} {s : Subject K O V}
  {calls : List (Change V)}

omit [DecidableEq O] in
/-- While something else runs, the round stays as it is. -/
theorem Open.elsewhere {m : Round K} {pre rest pre' : List (Frame K)}
    (h : Open keyPaths key observer address pair value s calls m pre rest) {s' : Subject K O V}
    (huntouched : Untouched key s s') (hstack : s'.stack = pre' ++ .round m :: rest)
    (habove : Apart keyPaths key pre') :
    Open keyPaths key observer address pair value s' calls m pre' rest where
  stack := hstack
  above := habove
  below := h.below
  ofKey := h.ofKey
  kind := h.kind
  doCall := h.doCall
  paths := h.paths
  nodup := h.nodup
  pending := fun b hb => huntouched.orders.symm ▸ h.pending b hb
  others := fun b hb hne p hp =>
    h.others b hb hne p ((huntouched.pairs b (h.pending b hb)).symm.trans hp)
  turn := by
    refine h.turn.imp_left fun ⟨hin, hpair, hcalls⟩ => ⟨hin, ?_, hcalls⟩
    have hmem : address ∈ m.pending := List.mem_append_right _ hin
    exact (huntouched.pairs address (h.pending address hmem)).trans hpair

/-- What a step in the `did` of a key does: it goes on, and says what was heard. -/
def Goes (keyPaths : K → List K) (key : K) (observer : O) (address : Nat) (pair : KVOPair O V)
    (value : Any V) (s : Subject K O V) (calls : List (Change V)) (s' : Subject K O V) : Prop :=
  (∃ events, s'.log = events ++ s.log ∧
      During keyPaths key observer address pair value s' (heard key observer events ++ calls)) ∧
    Followed key s s' ∧ s'.value key = s.value key

omit [DecidableEq O] in
/-- The turn that comes next is that of the pair, or of another one. -/
theorem Open.turn_next {m : Round K} {rest : List (Frame K)} {a : Nat} {observers : List Nat}
    (h : Open keyPaths key observer address pair value s calls m [] rest)
    (hobservers : m.observers = a :: observers) {p : KVOPair O V} (hp : s.pairs a = some p) :
    address = a ∧ p = pair ∧ calls = [] ∨ address ≠ a ∧
      (address ∈ observers ∧ s.pairs address = some pair ∧ calls = [] ∨
        address ∉ observers ∧ calls = outcome pair value) := by
  have hturn := h.turn
  rw [hobservers] at hturn
  by_cases ha : address = a
  · subst ha
    refine .inl ⟨rfl, ?_⟩
    obtain ⟨-, haddress, hnil⟩ | ⟨hout, -⟩ := hturn
    · cases hp.symm.trans haddress
      exact ⟨rfl, hnil⟩
    · exact absurd List.mem_cons_self hout
  · refine .inr ⟨ha, hturn.imp (And.imp_left fun hin => ?_) (And.imp_left fun hout hin => ?_)⟩
    · exact (List.mem_cons.mp hin).resolve_left ha
    · exact hout (List.mem_cons_of_mem _ hin)

/-- The round begins the turn of a pair. -/
theorem Open.beginTurn {m : Round K} {rest : List (Frame K)} {a : Nat} {observers : List Nat}
    (h : Open keyPaths key observer address pair value s calls m [] rest)
    (hvalue : s.value key = value) (hpair : pair.observer = observer)
    (hcurrent : m.current = none) (hobservers : m.observers = a :: observers) {p : KVOPair O V}
    (hp : s.pairs a = some p) :
    Goes keyPaths key observer address pair value s calls (s.afterTurn m a observers rest p) := by
  have hpending : m.pending = a :: observers := by
    rw [Round.pending, hcurrent, hobservers]
    rfl
  have hnodup := h.nodup
  rw [hpending, List.nodup_cons] at hnodup
  have hturn := p.succeeds_didChange (s.value m.key) m.kind m.doCall
  -- the round with this turn begun, whatever stands above it
  have hopen : ∀ s'' : Subject K O V, s''.orders key = s.orders key →
      s''.pairs = Function.update s.pairs a
        (some (p.didChange (s.value m.key) m.kind m.doCall).1) → ∀ pre, Apart keyPaths key pre →
      s''.stack = pre ++ .round { m with current := some a, observers } :: rest →
      ∀ calls', (address ∈ observers ∧ s.pairs address = some pair ∧ calls' = [] ∨
        address ∉ observers ∧ calls' = outcome pair value) →
      During keyPaths key observer address pair value s'' calls' := by
    intro s'' horders hpairs pre hpre hstack calls' hcalls
    refine .inl ⟨_, pre, rest, hstack, hpre, h.below, h.ofKey, h.kind, h.doCall, h.paths, ?_, ?_,
      ?_, ?_⟩
    · exact List.nodup_cons.mpr hnodup
    · intro b hb
      rw [horders]
      exact h.pending b (hpending ▸ hb)
    · intro b hb hne q hq
      rw [hpairs] at hq
      by_cases hba : b = a
      · subst hba
        rw [Function.update_self] at hq
        cases hq
        rw [hturn.observer]
        exact h.others b (hpending ▸ hb) hne p hp
      · rw [Function.update_of_ne hba] at hq
        exact h.others b (hpending ▸ hb) hne q hq
    · refine hcalls.imp_left ?_
      rintro ⟨hin, haddress, hnil⟩
      refine ⟨hin, ?_, hnil⟩
      have hba : address ≠ a := by
        rintro rfl
        exact hnodup.1 hin
      rw [hpairs]
      exact (Function.update_of_ne hba ..).trans haddress
  have hfollowed : ∀ s'' : Subject K O V, s''.orders key = s.orders key →
      s''.pairs = Function.update s.pairs a
        (some (p.didChange (s.value m.key) m.kind m.doCall).1) → Followed key s s'' :=
    fun s'' horders hpairs => .of_grow horders (hpairs ▸ .update hp hturn)
  have hnext := h.turn_next hobservers hp
  have hargs : p.didChange (s.value m.key) m.kind m.doCall = p.didChange value Kind.new true := by
    rw [h.ofKey, hvalue, h.kind, h.doCall]
  cases hcall : (p.didChange (s.value m.key) m.kind m.doCall).2 with
  | true =>
      rw [Subject.afterTurn_of_call observers rest hcall]
      refine ⟨⟨[_], rfl, ?_⟩, hfollowed _ rfl rfl, rfl⟩
      refine hopen _ ?_ ?_ [.callback] (fun _ hr => ?_) ?_ _ ?_
      · rfl
      · rfl
      · cases List.mem_singleton.mp hr
      · rfl
      obtain ⟨rfl, rfl, rfl⟩ | ⟨hne, hturn'⟩ := hnext
      · refine .inr ⟨hnodup.1, ?_⟩
        rw [hargs] at hcall hturn ⊢
        rw [hturn.observer, hpair, h.ofKey, heard_self, outcome, if_pos hcall, List.append_nil]
      · have hother : p.observer ≠ observer :=
          h.others a (hpending ▸ List.mem_cons_self) hne.symm p hp
        rw [heard_other (by rw [hturn.observer]; exact hother), List.nil_append]
        exact hturn'
  | false =>
      rw [Subject.afterTurn_of_silent observers rest hcall]
      refine ⟨⟨[], rfl, ?_⟩, hfollowed _ rfl rfl, rfl⟩
      refine hopen _ ?_ ?_ [] .nil ?_ _ ?_
      · rfl
      · rfl
      · rfl
      obtain ⟨rfl, rfl, rfl⟩ | ⟨-, hturn'⟩ := hnext
      · refine .inr ⟨hnodup.1, ?_⟩
        rw [hargs] at hcall
        rw [outcome, if_neg fun h => absurd (hcall.symm.trans h) (by decide)]
        rfl
      · exact hturn'

omit [DecidableEq O] in
/-- The round ends the turn of a pair. -/
theorem Open.endTurn {m : Round K} {rest : List (Frame K)} {a : Nat}
    (h : Open keyPaths key observer address pair value s calls m [] rest)
    (hcurrent : m.current = some a) {p : KVOPair O V} (hp : s.pairs a = some p) :
    During keyPaths key observer address pair value { s.setPair a p.didChangeDone with
      stack := .round { m with current := none } :: rest } calls := by
  have hpending : m.pending = a :: m.observers := by
    rw [Round.pending, hcurrent]
    rfl
  have hnodup := h.nodup
  rw [hpending, List.nodup_cons] at hnodup
  have hgrow : Grow s.pairs (Function.update s.pairs a (some p.didChangeDone)) :=
    .update hp p.succeeds_didChangeDone
  have hsub : ∀ b ∈ m.observers, b ∈ m.pending := fun b hb => hpending ▸ List.mem_cons_of_mem a hb
  refine .inl ⟨{ m with current := none }, [], rest, rfl, h.above, h.below, h.ofKey, h.kind,
    h.doCall, h.paths, hnodup.2, fun b hb => h.pending b (hsub b hb), fun b hb hne q hq => ?_, ?_⟩
  · obtain ⟨q', hq', hs⟩ := hgrow.back hq
    rw [hs.observer]
    exact h.others b (hsub b hb) hne q' hq'
  · refine h.turn.imp_left ?_
    rintro ⟨hin, hpair, hcalls⟩
    refine ⟨hin, ?_, hcalls⟩
    have hba : address ≠ a := by
      rintro rfl
      exact hnodup.1 hin
    exact (Function.update_of_ne hba ..).trans hpair

/-- The round of the key goes on. -/
theorem Open.advance (hordered : Ordered s.orders s.pairs s.stack) {m : Round K}
    {rest : List (Frame K)}
    (h : Open keyPaths key observer address pair value s calls m [] rest)
    (hvalue : s.value key = value) (hpair : pair.observer = observer) :
    Ends anyFault (s.advanceRound keyPaths m rest)
      (Goes keyPaths key observer address pair value s calls) := by
  have hsilent : ∀ s' : Subject K O V, s'.log = s.log →
      During keyPaths key observer address pair value s' calls → Followed key s s' →
      s'.value = s.value → Goes keyPaths key observer address pair value s calls s' :=
    fun s' hlog hduring hfollowed hval =>
      ⟨⟨[], hlog, hduring⟩, hfollowed, congrFun hval key⟩
  have hstack : s.stack = .round m :: rest := h.stack
  have hround : Ordered s.orders s.pairs (.round m :: rest) := hstack ▸ hordered
  refine (Subject.advanceRound_ends keyPaths hround).mono fun s' hadvanced => ?_
  cases hadvanced with
  | endTurn a p hcurrent hp hs' =>
      subst hs'
      exact hsilent _ rfl (h.endTurn hcurrent hp)
        (.of_grow rfl (.update hp p.succeeds_didChangeDone)) rfl
  | beginTurn a observers p hcurrent hobservers hp hs' =>
      subst hs'
      exact h.beginTurn hvalue hpair hcurrent hobservers hp
  | keyPath keyPath more pairs _ _ hmore hwilled hs' =>
      have hpath : ¬ Leads keyPaths keyPath key := h.paths keyPath (hmore ▸ List.mem_cons_self)
      have hsame := hwilled.untouched hordered (Leads.refl hpath)
      -- the round with one dependent key less, under what it starts
      have hnext : ∀ pre stack, stack = pre ++ .round { m with keyPaths := more } :: rest →
          Apart keyPaths key pre → Goes keyPaths key observer address pair value s calls
            { s with pairs, stack } := by
        intro pre stack heq hpre
        have huntouched : Untouched key s { s with pairs, stack } := .of_pairs rfl hsame rfl
        have hshorter : Open keyPaths key observer address pair value
            { s with stack := .round { m with keyPaths := more } :: rest } calls
            { m with keyPaths := more } [] rest :=
          ⟨rfl, h.above, h.below, h.ofKey, h.kind, h.doCall,
            fun k hk => h.paths k (hmore ▸ List.mem_cons_of_mem _ hk), h.nodup, h.pending, h.others,
            h.turn⟩
        refine hsilent _ rfl (.inl ⟨_, pre, rest, hshorter.elsewhere ?_ heq hpre⟩)
          (.of_untouched huntouched) rfl
        exact .of_pairs rfl hsame rfl
      rcases hs' with ⟨-, rfl⟩ | rfl
      · exact hnext [] _ rfl h.above
      · exact hnext [_] _ rfl (h.above.push (Leads.refl hpath) fun _ hk => Leads.next hpath hk)
  | finish hobservers _ hs' =>
      subst hs'
      refine hsilent _ rfl (.inr ⟨h.below, ?_⟩)
        (.of_untouched (.of_pairs rfl (fun _ _ => rfl) rfl)) rfl
      obtain ⟨hin, -⟩ | ⟨-, hcalls⟩ := h.turn
      · rw [hobservers] at hin
        cases hin
      · exact hcalls

/-- While the `did` is open, a step that is not about the key keeps the account of
what its observer hears. -/
theorem During.step (hordered : Ordered s.orders s.pairs s.stack)
    (h : During keyPaths key observer address pair value s calls) (hvalue : s.value key = value)
    (hpair : pair.observer = observer) {a : Action K O V} (hen : enabled s a)
    (ha : Elsewhere keyPaths key a) :
    Ends anyFault (step keyPaths s a) (Goes keyPaths key observer address pair value s calls) := by
  have hquiet : ∀ s' : Subject K O V, Untouched key s s' → s'.value key = s.value key →
      During keyPaths key observer address pair value s' calls →
      Goes keyPaths key observer address pair value s calls s' := by
    intro s' huntouched hval hduring
    obtain ⟨events, hlog, hevents⟩ := huntouched.log
    refine ⟨⟨events, hlog, ?_⟩, .of_untouched huntouched, hval⟩
    rw [heard_elsewhere hevents]
    exact hduring
  obtain ⟨m, pre, rest, hopen⟩ | ⟨hapart, hcalls⟩ := h
  · by_cases hpre : pre = []
    · -- the round of the key is on top
      subst hpre
      have hclient : s.clientRuns = false := by
        rw [Subject.clientRuns, hopen.stack]
        rfl
      cases a with
      | advance =>
          show Ends anyFault (s.advance keyPaths) _
          rw [Subject.advance, hopen.stack]
          exact hopen.advance hordered hvalue hpair
      | addObserver => exact absurd (hclient.symm.trans hen.1) (by decide)
      | returns => exact absurd (hclient.symm.trans hen.1) (by decide)
      | removeObserver | willChangeValueForKey | didChangeValueForKey | setValue =>
          exact absurd (hclient.symm.trans hen) (by decide)
    · refine (step_elsewhere hordered (.inl ha) hen hopen.stack hopen.above
        fun h => absurd h hpre).mono ?_
      rintro s' ⟨huntouched, hval, pre', hstack, hapart⟩
      exact hquiet s' huntouched (hval ha)
        (.inl ⟨m, pre', rest, hopen.elsewhere huntouched hstack hapart⟩)
  · refine (step_elsewhere hordered (.inl ha) hen (List.append_nil _).symm hapart
      fun _ => rfl).mono ?_
    rintro s' ⟨huntouched, hval, pre', hstack, hapart'⟩
    refine hquiet s' huntouched (hval ha) (.inr ⟨?_, hcalls⟩)
    rw [hstack, List.append_nil]
    exact hapart'

end during

/-! ### What is heard of an exchange -/

/-- The observer has one pair for the key, which has had its first round, and no `did`
of the key is open. -/
structure Listening (keyPaths : K → List K) (key : K) (observer : O) (address : Nat)
    (s : Subject K O V) (p : KVOPair O V) : Prop where
  ordered : Ordered s.orders s.pairs s.stack
  registered : s.registered observer key = [address]
  pair : s.pairs address = some p
  apart : Apart keyPaths key s.stack
  first : p.asksFor Kind.initialise = true → p.initialized = true

section listening

variable {address : Nat} {s s' : Subject K O V} {p : KVOPair O V}

omit [BEq V]

theorem mem_registered {a : Nat} : a ∈ s.registered observer key ↔
    a ∈ s.orders key ∧ ∃ p, s.pairs a = some p ∧ p.observer = observer := by
  rw [Subject.registered, List.mem_filter, decide_eq_true_iff, Option.map_eq_some_iff]
  rfl

theorem Followed.registered (h : Ordered s.orders s.pairs s.stack) (hfollowed : Followed key s s') :
    s'.registered observer key = s.registered observer key := by
  have horders : ordersOf s'.observersInfo key = s.orders key := hfollowed.orders
  rw [Subject.registered, horders]
  refine List.filter_congr fun a ha => ?_
  obtain ⟨p, hp, -⟩ := h.live key a ha
  obtain ⟨p', hp', hs⟩ := hfollowed.pairs a ha p hp
  rw [hp, hp', Option.map_some, Option.map_some, hs.observer]

namespace Listening

theorem mem (h : Listening keyPaths key observer address s p) :
    address ∈ s.orders key ∧ p.observer = observer := by
  have hself : address ∈ s.registered observer key := h.registered ▸ List.mem_singleton_self address
  obtain ⟨hin, q, hq, hobs⟩ := mem_registered.mp hself
  cases h.pair.symm.trans hq
  exact ⟨hin, hobs⟩

theorem others (h : Listening keyPaths key observer address s p) {b : Nat}
    (hb : b ∈ s.orders key) (hne : b ≠ address) {q : KVOPair O V} (hq : s.pairs b = some q) :
    q.observer ≠ observer := by
  intro hobs
  have hmem : b ∈ s.registered observer key := mem_registered.mpr ⟨hb, q, hq, hobs⟩
  rw [h.registered] at hmem
  exact hne (List.mem_singleton.mp hmem)

/-- The pair moves on with the state. -/
theorem follow (h : Listening keyPaths key observer address s p)
    (hordered : Ordered s'.orders s'.pairs s'.stack) (hfollowed : Followed key s s')
    (hapart : Apart keyPaths key s'.stack) :
    ∃ p', Listening keyPaths key observer address s' p' ∧ p.Succeeds p' := by
  obtain ⟨p', hp', hs⟩ := hfollowed.pairs address h.mem.1 p h.pair
  refine ⟨p', ⟨hordered, (hfollowed.registered h.ordered).trans h.registered, hp', hapart,
    fun hinit => hs.initialized (h.first ?_)⟩, hs⟩
  rw [KVOPair.asksFor, ← hs.notifyKind]
  exact hinit

end Listening

end listening

section exchange

variable {address : Nat} {s s' : Subject K O V} {p : KVOPair O V} {x : Exchange K O V}

/-- Steps between the calls touch nothing that has to do with the key. -/
theorem between_untouched (hordered : Ordered s.orders s.pairs s.stack)
    (hapart : Apart keyPaths key s.stack)
    (hmoves : Relation.ReflTransGen (Moves keyPaths fun a =>
      Elsewhere keyPaths key a ∨ ∃ v, a = .setValue key v) s s') :
    Ordered s'.orders s'.pairs s'.stack ∧ Untouched key s s' ∧ Apart keyPaths key s'.stack := by
  refine moves_induction (I := fun t => Untouched key s t ∧ Apart keyPaths key t.stack)
    (fun t a ht ⟨huntouched, htapart⟩ hen ha => ?_) hmoves hordered ⟨.refl key s, hapart⟩
  refine (step_elsewhere ht ha hen (List.append_nil _).symm htapart fun _ => rfl).mono
    fun t' ⟨huntouched', _, pre, hstack, hpre⟩ => ⟨huntouched.trans huntouched', ?_⟩
  rw [hstack, List.append_nil]
  exact hpre

/-- The round of a `did`, once it is over. -/
theorem round_heard (hlisten : Listening keyPaths key observer address s p)
    {value : Any V} (hvalue : s.value key = value) {s₁ : Subject K O V}
    (hdid : Moves keyPaths (· = .didChangeValueForKey key) s s₁)
    (hmoves : Relation.ReflTransGen (Moves keyPaths (Elsewhere keyPaths key)) s₁ s')
    (hapart : Apart keyPaths key s'.stack) :
    Ordered s'.orders s'.pairs s'.stack ∧ Followed key s s' ∧
      ∃ events, s'.log = events ++ s.log ∧ heard key observer events = outcome p value := by
  obtain ⟨a, hen, rfl, hrun⟩ := hdid
  have hne : s.orders key ≠ [] := List.ne_nil_of_mem hlisten.mem.1
  have hentered := Ends.of_ok hrun (Subject.enterDidChange_ends keyPaths hlisten.ordered key
    Kind.new_valid true)
  obtain ⟨hempty, -⟩ | rfl := hentered
  · exact absurd (Subject.orders_of_isEmpty hempty key) hne
  have h₁ := Ends.of_ok (P := fun s => Ordered s.orders s.pairs s.stack) hrun
    (step_ordered hlisten.ordered hen)
  have hpaths := not_leads_of_apart h₁ hne rfl rfl hmoves hapart
  have hopen : Open keyPaths key observer address p value
      { s with stack := .round (s.entered keyPaths key Kind.new true) :: s.stack } []
      (s.entered keyPaths key Kind.new true) [] s.stack :=
    ⟨rfl, .nil, hlisten.apart, rfl, rfl, rfl, hpaths,
      hlisten.ordered.nodup key, fun _ hb => hb, fun _ hb hne _ hq => hlisten.others hb hne hq,
      .inl ⟨hlisten.mem.1, hlisten.pair, rfl⟩⟩
  obtain ⟨hordered, ⟨events, hlog, hduring⟩, hfollowed, -⟩ := moves_induction
    (I := fun t => (∃ events, t.log = events ++ s.log ∧ During keyPaths key observer address p value
      t (heard key observer events)) ∧ Followed key s t ∧ t.value key = value)
    (fun t a ht ⟨⟨events, hlog, hduring⟩, hfollowed, hval⟩ hen ha => by
      refine (hduring.step ht hval hlisten.mem.2 hen ha).mono
        fun t' ⟨⟨events', hlog', hduring'⟩, hfollowed', hval'⟩ =>
          ⟨⟨events' ++ events, ?_, ?_⟩, hfollowed.trans hfollowed', hval'.trans hval⟩
      · rw [hlog', hlog, List.append_assoc]
      · rw [heard_append]
        exact hduring')
    hmoves h₁ ⟨⟨[], rfl, .inl ⟨_, _, _, hopen⟩⟩, .of_untouched (.of_pairs rfl (fun _ _ => rfl) rfl),
      hvalue⟩
  refine ⟨hordered, hfollowed, events, hlog, ?_⟩
  obtain ⟨m, pre, rest, hstill⟩ | ⟨-, hcalls⟩ := hduring
  · refine absurd hstill.ofKey (hapart m ?_).1
    rw [hstill.stack]
    exact List.mem_append_right _ List.mem_cons_self
  · exact hcalls

/-- What the observer hears of one exchange. -/
theorem exchange_heard (hlisten : Listening keyPaths key observer address s p)
    (hnew : p.asksFor Kind.new = true) (hx : Exchanged keyPaths key s x s') :
    heard key observer x.events = (if x.after != p.heldValue x.before then
        [⟨Kind.new, p.heldValue x.before, x.after⟩] else []) ∧
      ∃ p', Listening keyPaths key observer address s' p' ∧ p.Succeeds p' := by
  obtain ⟨s₁, s₂, s₃, ⟨a, hen, rfl, hrun⟩, hbetween, hdid, hmoves, hapart, hbefore, hafter, hlog⟩ := hx
  -- the `will`
  obtain ⟨pairs, rfl, hwilled⟩ := Ends.of_ok hrun
    (Subject.willChange_ends hlisten.ordered key Kind.new_valid)
  obtain ⟨q, hq, hpair₁⟩ := hwilled.2 address hlisten.mem.1
  cases hlisten.pair.symm.trans hq
  have h₁ : Ordered s.orders pairs s.stack := hlisten.ordered.grow hwilled.grow
  have hfollowed₁ : Followed key s { s with pairs } := .of_grow rfl hwilled.grow
  -- what happens before the `did`
  obtain ⟨h₂, huntouched, hapart₂⟩ := between_untouched (s := { s with pairs }) h₁ hlisten.apart
    hbetween
  have hfollowed₂ := hfollowed₁.trans (.of_untouched huntouched)
  obtain ⟨p₂, hlisten₂, -⟩ := hlisten.follow h₂ hfollowed₂ hapart₂
  have hp₂ : p₂ = p.willChange x.before := by
    have hsame : s₂.pairs address = pairs address := huntouched.pairs address hlisten.mem.1
    rw [hlisten₂.pair, hpair₁, ← hbefore] at hsame
    exact Option.some.inj hsame
  subst hp₂
  -- the `did`
  obtain ⟨h', hfollowed, events, hlog', hheard⟩ := round_heard hlisten₂ hafter.symm hdid hmoves hapart
  refine ⟨?_, hlisten.follow h' (hfollowed₂.trans hfollowed) hapart⟩
  obtain ⟨events₂, hlog₂, hevents₂⟩ := huntouched.log
  have hevents : x.events = events ++ events₂ := by
    refine List.append_cancel_right (?_ : x.events ++ s.log = (events ++ events₂) ++ s.log)
    rw [← hlog, hlog', hlog₂, List.append_assoc]
  obtain ⟨r, hr, hlive⟩ := hlisten.ordered.live key address hlisten.mem.1
  cases hlisten.pair.symm.trans hr
  obtain ⟨hcall, hchange⟩ := KVOPair.didChange_willChange hnew
    (hlisten.ordered.recorded address p hlisten.pair) hlisten.first hlive x.before x.after
  rw [hevents, heard_append, heard_elsewhere hevents₂, List.append_nil, hheard, outcome, hcall,
    hchange]

omit [DecidableEq K] [DecidableEq O] [BEq V] in
theorem KVOPair.asksFor_eq {p p' : KVOPair O V} (h : p.Succeeds p') (bit : Kind) :
    p'.asksFor bit = p.asksFor bit := by
  rw [KVOPair.asksFor, KVOPair.asksFor, h.notifyKind]

/-- After an alternation the observer is still listening, and has heard of each exchange. -/
theorem alternation_heard (hlisten : Listening keyPaths key observer address s p)
    (hnew : p.asksFor Kind.new = true) {xs : List (Exchange K O V)}
    (hrun : Alternation keyPaths key s xs s') :
    (∀ x ∈ xs, heard key observer x.events = if x.after != p.heldValue x.before then
        [⟨Kind.new, p.heldValue x.before, x.after⟩] else []) ∧
      ∃ p', Listening keyPaths key observer address s' p' ∧ p.Succeeds p' := by
  induction hrun with
  | start => exact ⟨fun _ hx => (nomatch hx), p, hlisten, .refl p⟩
  | other _ hmove ih =>
      obtain ⟨hxs, p₁, hlisten₁, hs₁⟩ := ih
      obtain ⟨h₂, huntouched, hapart⟩ :=
        between_untouched hlisten₁.ordered hlisten₁.apart (.single hmove)
      obtain ⟨p₂, hlisten₂, hs₂⟩ := hlisten₁.follow h₂ (.of_untouched huntouched) hapart
      exact ⟨hxs, p₂, hlisten₂, hs₁.trans hs₂⟩
  | exchange _ hx ih =>
      obtain ⟨hxs, p₁, hlisten₁, hs₁⟩ := ih
      have hheld : ∀ before, p₁.heldValue before = p.heldValue before := by
        intro before
        rw [KVOPair.heldValue, KVOPair.asksFor_eq hs₁, KVOPair.heldValue]
      obtain ⟨hheard, p₂, hlisten₂, hs₂⟩ :=
        exchange_heard hlisten₁ ((KVOPair.asksFor_eq hs₁ _).trans hnew) hx
      refine ⟨fun y hy => ?_, p₂, hlisten₂, hs₁.trans hs₂⟩
      rcases List.mem_append.mp hy with hy | hy
      · exact hxs y hy
      · cases List.mem_singleton.mp hy
        rw [hheard, hheld]

omit [DecidableEq O] [DecidableEq K] in
/-- Comparing with null instead of the value before is right exactly if both comparisons agree. -/
theorem null_agrees_iff (before after : Any V) :
    (after != none) = (after != before) ↔ (after == none) = (after == before) := by
  rw [bne, bne, Bool.not_inj_iff]

theorem meets_iff (hheard : heard key observer x.events = if x.after != p.heldValue x.before then
    [⟨Kind.new, p.heldValue x.before, x.after⟩] else []) :
    x.Meets key observer (p.asksFor Kind.old) ↔
      p.asksFor Kind.old = true ∨ (x.after == none) = (x.after == x.before) := by
  rw [Exchange.Meets, hheard, KVOPair.heldValue, ← null_agrees_iff]
  cases p.asksFor Kind.old with
  | true =>
      refine iff_of_true ⟨fun hdiffers => ?_, fun hsame => ?_⟩ (.inl rfl)
      · exact ⟨_, if_pos hdiffers, rfl, fun _ => rfl⟩
      · exact if_neg fun h => absurd (hsame.symm.trans h) (by decide)
  | false =>
      simp only [Bool.false_eq_true, if_false, false_or]
      constructor
      · rintro ⟨hcall, hnone⟩
        cases hdiffers : x.after != x.before with
        | true =>
            obtain ⟨change, hchange, -⟩ := hcall hdiffers
            by_contra hnull
            rw [if_neg hnull] at hchange
            cases hchange
        | false =>
            have hnil := hnone hdiffers
            by_contra hvalue
            rw [if_pos (Bool.eq_true_of_not_eq_false hvalue)] at hnil
            cases hnil
      · intro hsame
        rw [hsame]
        exact ⟨fun hdiffers => ⟨_, if_pos hdiffers, rfl, fun hfalse => nomatch hfalse⟩,
          fun hequal => if_neg fun h => absurd (hequal.symm.trans h) (by decide)⟩

/-- An observer that asks for new values hears of each change of the key, and of
nothing else, if it asks for old values too; and if not, exactly if in each exchange the
value is null afterwards when, and only when, it is what it was before. -/
theorem hears_each_change_iff (hreach : (machine keyPaths).Reachable s)
    (hregistered : s.registered observer key = [address]) (hpair : s.pairs address = some p)
    (hnew : p.asksFor Kind.new = true) (hapart : Apart keyPaths key s.stack)
    {xs : List (Exchange K O V)} (hrun : Alternation keyPaths key s xs s') :
    (∀ x ∈ xs, x.Meets key observer (p.asksFor Kind.old)) ↔
      p.asksFor Kind.old = true ∨ ∀ x ∈ xs, (x.after == none) = (x.after == x.before) := by
  have hmem : address ∈ s.orders key :=
    (mem_registered.mp (hregistered ▸ List.mem_singleton_self address)).1
  have hfirst : p.asksFor Kind.initialise = true → p.initialized = true := by
    intro hinit
    refine (begun_of_reachable hreach key address hmem p hpair hinit).resolve_right ?_
    rintro ⟨r, hr, hkey, -⟩
    exact (hapart r hr).1 hkey
  have hlisten : Listening keyPaths key observer address s p :=
    ⟨ordered_of_reachable hreach, hregistered, hpair, hapart, hfirst⟩
  have hmeets : ∀ x ∈ xs, x.Meets key observer (p.asksFor Kind.old) ↔
      p.asksFor Kind.old = true ∨ (x.after == none) = (x.after == x.before) :=
    fun x hx => meets_iff ((alternation_heard hlisten hnew hrun).1 x hx)
  constructor
  · intro hall
    by_cases hold : p.asksFor Kind.old = true
    · exact .inl hold
    · exact .inr fun x hx => ((hmeets x hx).mp (hall x hx)).resolve_left hold
  · rintro (hold | hvalues) x hx
    · exact (hmeets x hx).mpr (.inl hold)
    · exact (hmeets x hx).mpr (.inr (hvalues x hx))

theorem exec_cons {a : Action K O V} {as : List (Action K O V)}
    (hexec : (machine keyPaths).exec Machine.anyAction s (a :: as) = some s') :
    ∃ s₁, enabled s a ∧ step keyPaths s a = .ok s₁ ∧
      (machine keyPaths).exec Machine.anyAction s₁ as = some s' := by
  rw [Machine.exec] at hexec
  split at hexec
  next hok =>
    split at hexec
    next s₁ hstep => exact ⟨s₁, hok.1, hstep, hexec⟩
    next => cases hexec
  next => cases hexec

/-- A computed run is made of such steps. -/
theorem moves_of_exec {P : Action K O V → Prop} (as : List (Action K O V)) :
    ∀ {s s' : Subject K O V}, (∀ a ∈ as, P a) →
      (machine keyPaths).exec Machine.anyAction s as = some s' →
        Relation.ReflTransGen (Moves keyPaths P) s s' := by
  induction as with
  | nil =>
      intro s s' _ hexec
      cases hexec
      exact .refl
  | cons a as ih =>
      intro s s' hall hexec
      obtain ⟨s₁, hen, hstep, hrest⟩ := exec_cons hexec
      exact .head ⟨a, hen, hall a List.mem_cons_self, hstep⟩
        (ih (fun b hb => hall b (List.mem_cons_of_mem a hb)) hrest)

/-- A computed exchange. -/
theorem exchanged_of_exec (between during : List (Action K O V)) {s₂ : Subject K O V}
    (hbetween : ∀ a ∈ between, Elsewhere keyPaths key a ∨ ∃ v, a = .setValue key v)
    (hduring : ∀ a ∈ during, Elsewhere keyPaths key a)
    (hwill : (machine keyPaths).exec Machine.anyAction s
      (.willChangeValueForKey key :: between) = some s₂)
    (hdid : (machine keyPaths).exec Machine.anyAction s₂
      (.didChangeValueForKey key :: during) = some s')
    (hapart : Apart keyPaths key s'.stack) (hbefore : x.before = s.value key)
    (hafter : x.after = s₂.value key) (hlog : s'.log = x.events ++ s.log) :
    Exchanged keyPaths key s x s' := by
  obtain ⟨s₁, hen, hstep, hrest⟩ := exec_cons hwill
  obtain ⟨s₃, hen', hstep', hrest'⟩ := exec_cons hdid
  exact ⟨s₁, s₂, s₃, ⟨_, hen, rfl, hstep⟩, moves_of_exec between hbetween hrest,
    ⟨_, hen', rfl, hstep'⟩, moves_of_exec during hduring hrest', hapart, hbefore, hafter, hlog⟩

end exchange

end exchanges

/-- The round of a `did` that calls its one observer. -/
def roundWithCall : List (Action String Nat Nat) := [.advance, .returns, .advance, .advance]

theorem roundWithCall_elsewhere (keyPaths : String → List String) (key : String) :
    ∀ a ∈ roundWithCall, Elsewhere keyPaths key a := by
  intro a ha
  simp only [roundWithCall, List.mem_cons, List.not_mem_nil, or_false] at ha
  rcases ha with rfl | rfl | rfl | rfl <;> trivial

theorem hears_each_change_iff_first :
    (⟨none, some 7, [.notified 1 "k" none ⟨Kind.new, none, some 7⟩]⟩ :
      Exchange String Nat Nat).Meets "k" 1 false := by
  obtain ⟨s, s', p, hreach, hregistered, hpair, hnew, hold, hapart, hx⟩ :
      ∃ (s s' : Subject String Nat Nat) (p : KVOPair Nat Nat),
        (machine fun _ => []).Reachable s ∧ s.registered 1 "k" = [10] ∧ s.pairs 10 = some p ∧
          p.asksFor Kind.new = true ∧ p.asksFor Kind.old = false ∧
          Apart (fun _ => []) "k" s.stack ∧ Exchanged (fun _ => []) "k" s
            ⟨none, some 7, [.notified 1 "k" none ⟨Kind.new, none, some 7⟩]⟩ s' :=
    ⟨_, _, _, ⟨oneObserver none, Machine.run_of_exec rfl⟩, rfl, rfl, rfl, rfl, .nil,
      exchanged_of_exec [.setValue "k" (some 7)] roundWithCall
        (fun a ha => .inr ⟨_, List.mem_singleton.mp ha⟩) (roundWithCall_elsewhere _ _) rfl rfl .nil
        rfl rfl rfl⟩
  have hmeets := (hears_each_change_iff hreach hregistered hpair hnew hapart
    (.exchange (.start s) hx)).mpr (.inr fun x hx => by cases List.mem_singleton.mp hx; rfl)
  exact hold ▸ hmeets _ (List.mem_singleton_self _)

/-- A value that stays what it is, and is not null, is heard of. -/
theorem unchanged_is_heard :
    ∃ (s s' : Subject String Nat Nat) (x : Exchange String Nat Nat),
      (machine fun _ => []).Reachable s ∧ s.registered 1 "k" = [10] ∧
        ((s.pairs 10).map fun p => p.asksFor Kind.new) = some true ∧
        Apart (fun _ => []) "k" s.stack ∧ Alternation (fun _ => []) "k" s [x] s' ∧
        x.after = x.before ∧ heard "k" 1 x.events ≠ [] :=
  ⟨_, _, ⟨some 7, some 7, [.notified 1 "k" none ⟨Kind.new, none, some 7⟩]⟩,
    ⟨oneObserver (some 7), Machine.run_of_exec rfl⟩, rfl, rfl, .nil,
    .exchange (.start _) (exchanged_of_exec [] roundWithCall (fun _ ha => nomatch ha)
      (roundWithCall_elsewhere _ _) rfl rfl .nil rfl rfl rfl), rfl, by decide⟩

end KeyValueObserverInterface

end Rx
