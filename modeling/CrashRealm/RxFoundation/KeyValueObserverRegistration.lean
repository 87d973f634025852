/-
# `RxFoundation.KeyValueObserverRegistration` — whom a registration calls

`addObserver` plays a `will` and a `did` of kind `Initialize` through the code that
notifies everybody.  An `Activation` follows one call of it: the rounds it started, and
the observers these rounds called; inside such a callback anything may happen, and is
not counted.

A pair `speaks` in such a round if it has not had the first round it asked for, or if
the new value differs from the old value in its change record, which is not only so
when the value of the key has changed: without `Old` the old value is null, and with
`Old` and without `New` the new one is.  Where nobody else speaks the registration
calls its own observer at most once, and nobody otherwise (`registration_calls`).  A
dependent key is played with `doCall` set, whatever the observer asked for.
-/
import CrashRealm.RxFoundation.KeyValueObserverSteps

namespace Rx

namespace KeyValueObserverInterface

variable {K O V : Type}

/-! ## Who speaks -/

namespace KVOPair

variable [BEq V]

/-- A registration round with this value calls the observer, if it calls anybody. -/
def speaks (pair : KVOPair O V) (value : Any V) : Bool :=
  let newValue := if pair.asksFor Kind.new || !pair.initialized then value else pair.change.newValue
  let oldValue := if pair.asksFor Kind.old then value else pair.change.oldValue
  pair.asksFor Kind.initialise && !pair.initialized || newValue != oldValue

/-- What the two halves of a registration round make of a pair. -/
theorem didChange_speaks (pair : KVOPair O V) (value : Any V) (doCall : Bool) :
    ((pair.willChange value).didChange value Kind.initialise doCall).2
      = (pair.speaks value && doCall && pair.enabled) := by
  rw [didChange_eq, willChange_eq]
  rfl

end KVOPair

/-! ## Activations -/

section activations

variable [DecidableEq K] [DecidableEq O] [BEq V]

/-- Nobody in the order of this key speaks. -/
def Subject.Silent (s : Subject K O V) (key : K) : Prop :=
  ∀ b ∈ s.orders key, ∀ p, s.pairs b = some p → p.speaks (s.value key) = false

/-- A registration that calls back finds nobody else who speaks, and so does a
registration round that goes on to a dependent key. -/
def OnlySelfSpeaks (s : Subject K O V) : Action K O V → Prop
  | .addObserver o k n _ _ => (n &&& 0x4) = 0x4 →
      ∀ s₀, (s.findOrInsert k).removeObserver o k = .ok s₀ → s₀.Silent k
  | .advance =>
      match s.stack with
      | .round r :: _ => r.kind = Kind.initialise → r.current = none → r.observers = [] →
          ∀ keyPath ∈ r.keyPaths.head?, s.Silent keyPath
      | _ => True
  | _ => True

/-- The observer an event notifies. -/
def Event.notifies : Event K O V → Option O
  | .notified observer _ _ _ => some observer
  | _ => none

/-- The observers notified between two states, newest first. -/
def notifiedBetween (s s' : Subject K O V) : List O :=
  (s'.log.take (s'.log.length - s.log.length)).filterMap Event.notifies

variable {keyPaths : K → List K} {s : Subject K O V}

omit [DecidableEq K] [DecidableEq O] in
theorem afterTurn_above (r : Round K) (address : Nat) (observers : List Nat)
    (rest : List (Frame K)) (p : KVOPair O V) :
    ∃ above, (s.afterTurn r address observers rest p).stack = above ++ rest := by
  rcases s.afterTurn_stack r address observers rest p with hstack | hstack
  · exact ⟨[_], hstack⟩
  · exact ⟨[_, _], hstack⟩

omit [DecidableEq O] in
theorem advanced_above {r : Round K} {rest : List (Frame K)} {s' : Subject K O V}
    (hadvanced : s.Advanced keyPaths r rest s') : ∃ above, s'.stack = above ++ rest := by
  cases hadvanced with
  | endTurn a p _ _ hs' => exact ⟨[_], congrArg Subject.stack hs'⟩
  | beginTurn a observers p _ _ _ hs' =>
      rw [hs']
      exact afterTurn_above r a observers rest p
  | keyPath keyPath more pairs _ _ _ _ hs' =>
      rcases hs' with ⟨-, hs'⟩ | hs'
      · exact ⟨[_], congrArg Subject.stack hs'⟩
      · exact ⟨[_, _], congrArg Subject.stack hs'⟩
  | finish _ _ hs' => exact ⟨[], congrArg Subject.stack hs'⟩

/-- Under an open callback nothing moves until it returns. -/
theorem step_above (h : Ordered s.orders s.pairs s.stack) {a : Action K O V} (hen : enabled s a)
    {above rest : List (Frame K)} (hstack : s.stack = above ++ .callback :: rest) :
    Ends anyFault (step keyPaths s a) fun s' =>
      (∃ above', s'.stack = above' ++ .callback :: rest) ∨ s'.stack = rest := by
  cases a with
  | addObserver o k n context address =>
      refine (Subject.addObserver_ends keyPaths h o k n context hen.2.1).mono fun s' hs' => ?_
      obtain ⟨s₀, s₁, pairs, -, hreg, -, rfl⟩ := hs'
      exact .inl ⟨.round _ :: above, congrArg _ (hreg.stack.trans hstack)⟩
  | removeObserver o k =>
      exact (Subject.removeObserver_removed h o k).bind fun s' ⟨_, hremoved⟩ =>
        .inl ⟨above, hremoved.stack.trans hstack⟩
  | willChangeValueForKey k =>
      refine (Subject.willChange_ends h k Kind.new_valid).mono fun s' hs' => ?_
      obtain ⟨pairs, rfl, -⟩ := hs'
      exact .inl ⟨above, hstack⟩
  | didChangeValueForKey k =>
      refine (Subject.enterDidChange_ends keyPaths h k Kind.new_valid true).mono fun s' hs' => ?_
      rcases hs' with ⟨-, rfl⟩ | rfl
      · exact .inl ⟨above, hstack⟩
      · exact .inl ⟨.round _ :: above, congrArg _ hstack⟩
  | setValue k value => exact .inl ⟨above, hstack⟩
  | returns =>
      cases above with
      | nil => exact .inr (congrArg List.tail hstack)
      | cons frame above => exact .inl ⟨above, congrArg List.tail hstack⟩
  | advance =>
      show Ends anyFault (s.advance keyPaths) _
      rw [Subject.advance]
      split
      next r rest' hround =>
        rw [hround] at hstack
        cases above with
        | nil => cases hstack
        | cons frame above =>
            obtain ⟨-, hrest⟩ := List.cons.inj hstack
            have h₁ : Ordered s.orders s.pairs (.round r :: rest') := hround ▸ h
            refine (Subject.advanceRound_ends keyPaths h₁).mono fun s' hadvanced => ?_
            obtain ⟨above', hs'⟩ := advanced_above hadvanced
            refine .inl ⟨above' ++ above, ?_⟩
            rw [hs', hrest, List.append_assoc]
            rfl
      next => exact .inl ⟨above, hstack⟩

/-! ## The rounds of one registration -/

/-- None of these is called at its turn. -/
def Round.Quiet (r : Round K) (s : Subject K O V) (observers : List Nat) : Prop :=
  ∀ b ∈ observers, ∀ p, s.pairs b = some p →
    (p.didChange (s.value r.key) r.kind r.doCall).2 = false

/-- Where one registration stands: before the turn of its own pair; in the callback of
its observer; after, with nobody left to call; over. -/
inductive Stage (base : List (Frame K)) (o : O) (doCall : Bool) (address : Nat)
    (s : Subject K O V) (calls : List O) : Prop where
  | before (r : Round K) (waiting : List Nat) : s.stack = .round r :: base →
      r.kind = Kind.initialise → r.doCall = doCall → r.pending.Nodup →
      r.observers = waiting ++ [address] → r.Quiet s waiting →
      (∀ p, s.pairs address = some p → p.observer = o) → calls = [] → Stage base o doCall address s calls
  | calling (r : Round K) (above : List (Frame K)) :
      s.stack = above ++ .callback :: .round r :: base → r.kind = Kind.initialise →
      r.observers = [] → doCall = true → calls = [o] → Stage base o doCall address s calls
  | after (r : Round K) (rounds : List (Round K)) :
      s.stack = .round r :: (rounds.map .round ++ base) → r.kind = Kind.initialise →
      r.pending.Nodup → r.Quiet s r.observers →
      (∀ r' ∈ rounds, r'.kind = Kind.initialise ∧ r'.observers = []) →
      (calls = [] ∨ doCall = true ∧ calls = [o]) → Stage base o doCall address s calls
  | finished : s.stack = base → (calls = [] ∨ doCall = true ∧ calls = [o]) →
      Stage base o doCall address s calls

namespace Round

variable {s : Subject K O V} {r : Round K}

omit [DecidableEq K] [DecidableEq O] in
/-- A turn of another pair leaves the others quiet. -/
theorem Quiet.update {observers : List Nat} (h : r.Quiet s observers) {a : Nat}
    (ha : a ∉ observers) (p : KVOPair O V) {s' : Subject K O V}
    (hpairs : s'.pairs = Function.update s.pairs a (some p)) (hvalue : s'.value = s.value)
    {r' : Round K} (hkey : r'.key = r.key) (hkind : r'.kind = r.kind)
    (hdoCall : r'.doCall = r.doCall) : r'.Quiet s' observers := by
  intro b hb q hq
  have hba : b ≠ a := by
    rintro rfl
    exact ha hb
  rw [hpairs, Function.update_of_ne hba] at hq
  rw [hvalue, hkey, hkind, hdoCall]
  exact h b hb q hq

omit [DecidableEq K] [DecidableEq O] in
theorem quiet_nil : r.Quiet s [] := fun _ hb => nomatch hb

omit [DecidableEq K] [DecidableEq O] [BEq V] in
theorem nodup_of_done {r : Round K} (h : r.observers = []) : r.pending.Nodup := by
  rw [pending, h, List.append_nil]
  cases r.current with
  | none => exact List.nodup_nil
  | some a => exact List.nodup_singleton a

end Round

omit [DecidableEq O] in
/-- In a registration round of a key where nobody speaks nobody is called. -/
theorem Subject.Silent.quiet {keyPath : K} (h : s.Silent keyPath) {pairs : Pairs O V}
    (hwilled : s.Willed keyPath pairs) (doCall : Bool) {s' : Subject K O V}
    (hpairs : s'.pairs = pairs) (hvalue : s'.value = s.value) :
    (s.entered keyPaths keyPath Kind.initialise doCall).Quiet s' (s.orders keyPath) := by
  intro b hb q hq
  obtain ⟨p, hp, hp'⟩ := hwilled.2 b hb
  rw [hpairs] at hq
  cases hp'.symm.trans hq
  rw [hvalue]
  show ((p.willChange (s.value keyPath)).didChange (s.value keyPath) Kind.initialise doCall).2
    = false
  rw [KVOPair.didChange_speaks, h b hb p hp]
  rfl

omit [DecidableEq K] [DecidableEq O] [BEq V] in
/-- Nothing was logged. -/
theorem notifiedBetween_same {s s' : Subject K O V} (h : s'.log = s.log) :
    notifiedBetween s s' = [] := by
  rw [notifiedBetween, h, Nat.sub_self]
  rfl

omit [DecidableEq K] [DecidableEq O] [BEq V] in
theorem notifiedBetween_notified {s s' : Subject K O V} {o : O} {k : K} {context : Any V}
    {change : Change V} (h : s'.log = .notified o k context change :: s.log) :
    notifiedBetween s s' = [o] := by
  rw [notifiedBetween, h, List.length_cons, Nat.add_sub_cancel_left]
  rfl

omit [DecidableEq K] [DecidableEq O] in
theorem KVOPair.didChange_doCall {p : KVOPair O V} {value : Any V} {kind : Kind} {doCall : Bool}
    (h : (p.didChange value kind doCall).2 = true) : doCall = true := by
  rw [didChange_eq] at h
  exact (Bool.and_eq_true_iff.mp (Bool.and_eq_true_iff.mp h).1).2

namespace Stage

variable {base : List (Frame K)} {o : O} {doCall : Bool} {address : Nat} {s : Subject K O V}
  {calls : List O} {r : Round K}

omit [DecidableEq O] in
/-- The turns before the registration's own, and that one. -/
theorem before_advance {waiting : List Nat} {s' : Subject K O V}
    (hadvanced : s.Advanced keyPaths r base s') (hkind : r.kind = Kind.initialise)
    (hdoCall : r.doCall = doCall) (hnodup : r.pending.Nodup)
    (hobservers : r.observers = waiting ++ [address]) (hquiet : r.Quiet s waiting)
    (hobserver : ∀ p, s.pairs address = some p → p.observer = o) :
    Stage base o doCall address s' (notifiedBetween s s') := by
  have hsome : r.observers ≠ [] := by
    rw [hobservers]
    exact List.append_ne_nil_of_right_ne_nil _ (List.cons_ne_nil _ _)
  -- the turn of another pair leaves the one at `address`
  have hkeep : ∀ a, a ∉ waiting ++ [address] → ∀ p q : KVOPair O V,
      Function.update s.pairs a (some p) address = some q → q.observer = o := by
    intro a ha p q hq
    have hne : address ≠ a := by
      rintro rfl
      exact ha (List.mem_append_right waiting (List.mem_singleton_self address))
    exact hobserver q ((Function.update_of_ne hne ..).symm.trans hq)
  cases hadvanced with
  | endTurn a p hcurrent hp hs' =>
      rw [notifiedBetween_same (s := s) (congrArg Subject.log hs' :)]
      subst hs'
      rw [Round.pending, hcurrent] at hnodup
      obtain ⟨ha, hrest⟩ := List.nodup_cons.mp hnodup
      have hother : a ∉ waiting ++ [address] := hobservers ▸ ha
      refine .before { r with current := none } waiting rfl hkind hdoCall hrest hobservers ?_
        (hkeep a hother p.didChangeDone) rfl
      refine hquiet.update (fun h => hother (List.mem_append_left _ h)) p.didChangeDone ?_ ?_ ?_ ?_
        ?_ <;> rfl
  | beginTurn a observers p hcurrent hcons hp hs' =>
      rw [Round.pending, hcurrent, hcons] at hnodup
      obtain ⟨ha, -⟩ := List.nodup_cons.mp hnodup
      have hsucc := p.succeeds_didChange (s.value r.key) r.kind r.doCall
      cases waiting with
      | nil =>
          -- its own turn
          obtain ⟨rfl, rfl⟩ := List.cons.inj (hcons.symm.trans hobservers)
          cases hcall : (p.didChange (s.value r.key) r.kind r.doCall).2 with
          | true =>
              rw [Subject.afterTurn_of_call [] base hcall, hsucc.observer, hobserver p hp] at hs'
              rw [notifiedBetween_notified (s := s) (congrArg Subject.log hs' :)]
              subst hs'
              exact .calling { r with current := some a, observers := [] } [] rfl hkind rfl
                (hdoCall.symm.trans (KVOPair.didChange_doCall hcall)) rfl
          | false =>
              rw [Subject.afterTurn_of_silent [] base hcall] at hs'
              rw [notifiedBetween_same (s := s) (congrArg Subject.log hs' :)]
              subst hs'
              refine .after { r with current := some a, observers := [] } [] rfl hkind
                (Round.nodup_of_done rfl) Round.quiet_nil (fun r' hr' => ?_) (.inl rfl)
              cases hr'
      | cons b waiting =>
          obtain ⟨rfl, rfl⟩ := List.cons.inj (hcons.symm.trans hobservers)
          rw [Subject.afterTurn_of_silent _ base (hquiet a List.mem_cons_self p hp)] at hs'
          rw [notifiedBetween_same (s := s) (congrArg Subject.log hs' :)]
          subst hs'
          have hrest : r.Quiet s waiting := fun b hb => hquiet b (List.mem_cons_of_mem a hb)
          have hother : address ≠ a := by
            rintro rfl
            exact ha (List.mem_append_right waiting (List.mem_singleton_self address))
          refine .before { r with current := some a, observers := waiting ++ [address] } waiting rfl
            hkind hdoCall hnodup rfl ?_
            (fun q hq => hobserver q ((Function.update_of_ne hother ..).symm.trans hq)) rfl
          refine hrest.update (fun h => ha (List.mem_append_left _ h))
            (p.didChange (s.value r.key) r.kind r.doCall).1 ?_ ?_ ?_ ?_ ?_ <;> rfl
  | keyPath _ _ _ _ hnil => exact absurd hnil hsome
  | finish hnil => exact absurd hnil hsome

/-- The turns after it, and the dependent keys. -/
theorem after_advance (h : Ordered s.orders s.pairs s.stack) {rounds : List (Round K)}
    {s' : Subject K O V} (hstack : s.stack = .round r :: (rounds.map .round ++ base))
    (hadvanced : s.Advanced keyPaths r (rounds.map .round ++ base) s')
    (hkind : r.kind = Kind.initialise) (hnodup : r.pending.Nodup) (hquiet : r.Quiet s r.observers)
    (hrounds : ∀ r' ∈ rounds, r'.kind = Kind.initialise ∧ r'.observers = [])
    (hcalls : calls = [] ∨ doCall = true ∧ calls = [o]) (hgood : OnlySelfSpeaks s .advance) :
    Stage base o doCall address s' (notifiedBetween s s' ++ calls) := by
  cases hadvanced with
  | endTurn a p hcurrent hp hs' =>
      rw [notifiedBetween_same (s := s) (congrArg Subject.log hs' :)]
      subst hs'
      rw [Round.pending, hcurrent] at hnodup
      obtain ⟨ha, hrest⟩ := List.nodup_cons.mp hnodup
      refine .after { r with current := none } rounds rfl hkind hrest ?_ hrounds hcalls
      refine hquiet.update ha p.didChangeDone ?_ ?_ ?_ ?_ ?_ <;> rfl
  | beginTurn a observers p hcurrent hcons hp hs' =>
      rw [Round.pending, hcurrent, hcons] at hnodup
      rw [hcons] at hquiet
      obtain ⟨ha, -⟩ := List.nodup_cons.mp hnodup
      rw [Subject.afterTurn_of_silent _ _ (hquiet a List.mem_cons_self p hp)] at hs'
      rw [notifiedBetween_same (s := s) (congrArg Subject.log hs' :)]
      subst hs'
      have hrest : r.Quiet s observers := fun b hb => hquiet b (List.mem_cons_of_mem a hb)
      refine .after { r with current := some a, observers } rounds rfl hkind hnodup ?_ hrounds hcalls
      refine hrest.update ha (p.didChange (s.value r.key) r.kind r.doCall).1 ?_ ?_ ?_ ?_ ?_ <;> rfl
  | keyPath keyPath more pairs hcurrent hobservers hmore hwilled hs' =>
      have hsilent : s.Silent keyPath := by
        rw [OnlySelfSpeaks, hstack] at hgood
        exact hgood hkind hcurrent hobservers keyPath (by rw [hmore]; rfl)
      rcases hs' with ⟨-, hs'⟩ | hs'
      · rw [notifiedBetween_same (s := s) (congrArg Subject.log hs' :)]
        subst hs'
        exact .after { r with keyPaths := more } rounds rfl hkind hnodup
          (by rw [hobservers]; exact Round.quiet_nil) hrounds hcalls
      · rw [notifiedBetween_same (s := s) (congrArg Subject.log hs' :)]
        subst hs'
        refine .after _ ({ r with keyPaths := more } :: rounds) rfl hkind (h.nodup keyPath) ?_
          (fun r' hr' => ?_) hcalls
        · rw [hkind] at hwilled ⊢
          exact hsilent.quiet (hwilled.resolve_right fun hnot => hnot.1 rfl).2 true rfl rfl
        · rcases List.mem_cons.mp hr' with rfl | hr'
          · exact ⟨hkind, hobservers⟩
          · exact hrounds r' hr'
  | finish _ _ hs' =>
      rw [notifiedBetween_same (s := s) (congrArg Subject.log hs' :)]
      subst hs'
      cases rounds with
      | nil => exact .finished rfl hcalls
      | cons r' rounds =>
          obtain ⟨hkind', hobservers'⟩ := hrounds r' List.mem_cons_self
          exact .after r' rounds rfl hkind' (Round.nodup_of_done hobservers')
            (by rw [hobservers']; exact Round.quiet_nil)
            (fun r'' hr'' => hrounds r'' (List.mem_cons_of_mem _ hr'')) hcalls

end Stage

/-! ## Whole activations -/

omit [DecidableEq K] [DecidableEq O] [BEq V] in
/-- A stack of rounds has no callback open. -/
theorem rounds_ne_callback (rounds : List (Round K)) (above inner base : List (Frame K)) :
    rounds.map .round ++ base ≠ above ++ .callback :: (inner ++ base) := by
  intro h
  rw [← List.cons_append, ← List.append_assoc] at h
  have hmem : Frame.callback ∈ rounds.map .round := by
    rw [List.append_cancel_right h]
    exact List.mem_append_right _ List.mem_cons_self
  obtain ⟨r, -, hr⟩ := List.mem_map.mp hmem
  cases hr

/-- A step of one of the registration's own rounds. -/
theorem Stage.own {base : List (Frame K)} {o : O} {doCall : Bool} {address : Nat} {calls : List O}
    (h : Ordered s.orders s.pairs s.stack) (hstage : Stage base o doCall address s calls)
    {rounds : List (Round K)} (hrounds : rounds ≠ []) (hstack : s.stack = rounds.map .round ++ base)
    (hgood : OnlySelfSpeaks s .advance) :
    Ends anyFault (step keyPaths s .advance) fun s' =>
      Stage base o doCall address s' (notifiedBetween s s' ++ calls) := by
  show Ends anyFault (s.advance keyPaths) _
  rw [Subject.advance]
  cases hstage with
  | before r waiting hround hkind hdoCall hnodup hobservers hquiet hobserver hcalls =>
      rw [hround, hcalls]
      refine (Subject.advanceRound_ends keyPaths (hround ▸ h)).mono fun s' hadvanced => ?_
      rw [List.append_nil]
      exact before_advance hadvanced hkind hdoCall hnodup hobservers hquiet hobserver
  | calling r above hround => exact absurd (hstack.symm.trans hround) (rounds_ne_callback _ _ [_] _)
  | after r rounds' hround hkind hnodup hquiet hrounds' hcalls =>
      rw [hround]
      exact (Subject.advanceRound_ends keyPaths (hround ▸ h)).mono fun s' hadvanced =>
        after_advance h hround hadvanced hkind hnodup hquiet hrounds' hcalls hgood
  | finished hfinished =>
      have hnil := List.self_eq_append_left.mp (hfinished.symm.trans hstack)
      exact absurd (List.map_eq_nil_iff.mp hnil) hrounds

/-- A step under one of its callbacks. -/
theorem Stage.inner {base : List (Frame K)} {o : O} {doCall : Bool} {address : Nat}
    {calls : List O} (h : Ordered s.orders s.pairs s.stack)
    (hstage : Stage base o doCall address s calls) {above : List (Frame K)}
    {rounds : List (Round K)} (hstack : s.stack = above ++ .callback :: (rounds.map .round ++ base))
    {a : Action K O V} (hen : enabled s a) :
    Ends anyFault (step keyPaths s a) fun s' => Stage base o doCall address s' calls := by
  cases hstage with
  | before r waiting hround =>
      exact absurd (hround.symm.trans hstack) (rounds_ne_callback [r] above _ base)
  | calling r above' hround hkind hobservers hdoCall hcalls =>
      refine (step_above h hen hround).mono fun s' hs' => ?_
      rcases hs' with ⟨above'', hs'⟩ | hs'
      · exact .calling r above'' hs' hkind hobservers hdoCall hcalls
      · exact .after r [] hs' hkind (Round.nodup_of_done hobservers)
          (by rw [hobservers]; exact Round.quiet_nil) (fun _ h => nomatch h) (.inr ⟨hdoCall, hcalls⟩)
  | after r rounds' hround =>
      exact absurd (hround.symm.trans hstack) (rounds_ne_callback (r :: rounds') above _ base)
  | finished hfinished => exact absurd (hfinished.symm.trans hstack) (rounds_ne_callback [] above _ base)

end activations

end KeyValueObserverInterface

end Rx
