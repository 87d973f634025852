/-
# `RxFoundation.KeyValueObserverSpec` — what the calls promise over whole runs

In a run in which nobody is removed from the middle of an order, and nobody who
is alone in one registers again (`StepOk`), the registry is the map of the last
calls (`registry_follows_calls`), and an observer that was removed hears nothing
until it is added again (`no_late_notification`), also when the removal happens
inside a notification.

The invariant has three parts: the registry stands for the map of the calls so
far; a pair in the snapshot of a running round is in the order of its key as
long as it is enabled; and each notification so far went to an observer that was
registered.  Rounds change pairs only where the registry does not look, and a
call from inside a round disables the pairs it removes, so each step keeps all
three.
-/
import CrashRealm.RxFoundation.KeyValueObserverRegistry

namespace Rx

namespace KeyValueObserverInterface

variable {K O V : Type} [DecidableEq K] [DecidableEq O]

/-! ## The calls so far -/

/-- The registrations a log leaves. -/
def lastNaming : List (Event K O V) → Registrations K O V
  | [] => fun _ => none
  | .added observer key notifyKind context :: log =>
      Function.update (lastNaming log) (observer, key) (some (notifyKind, context))
  | .removed observer key :: log => Function.update (lastNaming log) (observer, key) none
  | .notified _ _ _ _ :: log => lastNaming log

/-- What a call does to the registrations. -/
def record (last : Registrations K O V) : Action K O V → Registrations K O V
  | .addObserver observer key notifyKind context _ =>
      Function.update last (observer, key) (some (notifyKind, context))
  | .removeObserver observer key => Function.update last (observer, key) none
  | _ => last

/-- The registrations a history of calls leaves. -/
def lastCall (as : List (Action K O V)) : Registrations K O V := as.foldl record fun _ => none

/-- Every notification so far went to an observer registered at the time. -/
def Timely : List (Event K O V) → Prop
  | [] => True
  | .notified observer key _ _ :: log => (lastNaming log (observer, key)).isSome = true ∧ Timely log
  | _ :: log => Timely log

/-- A notification in the log found its observer registered. -/
theorem Timely.registered {log : List (Event K O V)} {o : O} {k : K} {context : Any V}
    {change : Change V} {after : List (Event K O V)} :
    Timely (after ++ .notified o k context change :: log) →
      (lastNaming log (o, k)).isSome = true := by
  induction after with
  | nil => exact fun h => h.1
  | cons e after ih =>
      intro h
      cases e with
      | added => exact ih h
      | removed => exact ih h
      | notified => exact ih h.2

/-- Who is registered after being removed was added in between. -/
theorem added_of_registered {o : O} {k : K} {before : List (Event K O V)} :
    ∀ {between : List (Event K O V)},
      (lastNaming (between ++ .removed o k :: before) (o, k)).isSome = true →
        ∃ n context, Event.added o k n context ∈ between := by
  intro between
  induction between with
  | nil =>
      intro h
      rw [List.nil_append, lastNaming, Function.update_self] at h
      cases h
  | cons e between ih =>
      intro h
      -- the newest event names the observer and the key, or says nothing about them
      have hrest : (∃ n context, Event.added o k n context ∈ between) →
          ∃ n context, Event.added o k n context ∈ e :: between :=
        fun ⟨n, context, hin⟩ => ⟨n, context, List.mem_cons_of_mem e hin⟩
      cases e with
      | added o' k' n context =>
          by_cases heq : (o, k) = (o', k')
          · obtain ⟨rfl, rfl⟩ := Prod.mk.inj heq
            exact ⟨n, context, List.mem_cons_self⟩
          · rw [List.cons_append, lastNaming, Function.update_of_ne heq] at h
            exact hrest (ih h)
      | removed o' k' =>
          by_cases heq : (o, k) = (o', k')
          · obtain ⟨rfl, rfl⟩ := Prod.mk.inj heq
            rw [List.cons_append, lastNaming, Function.update_self] at h
            cases h
          · rw [List.cons_append, lastNaming, Function.update_of_ne heq] at h
            exact hrest (ih h)
      | notified o' k' context change => exact hrest (ih h)

/-! ## The invariant -/

structure Invariant (s : Subject K O V) : Prop where
  consistent : AllConsistent s.observersInfo
  registry : Registry (ordersOf s.observersInfo) s.pairs (lastNaming s.log)
  rounds : ∀ r, Frame.round r ∈ s.stack → r.kind ≠ Kind.invalid ∧
    ∀ a ∈ r.pending, Tracked (ordersOf s.observersInfo) s.pairs r.key a
  timely : Timely s.log

omit [DecidableEq K] [DecidableEq O] in
theorem Tracked.congr {orders : K → List Nat} {pairs pairs' : Pairs O V} {k : K} {a : Nat}
    (h : Tracked orders pairs k a) (hsame : SameFaces pairs pairs') : Tracked orders pairs' k a := by
  obtain ⟨p, hp, hin⟩ := h
  obtain ⟨p', hp', hface⟩ := hsame.exists hp
  refine ⟨p', hp', fun hen => hin ?_⟩
  rw [← (KVOPair.face_eq_iff.mp hface).2.2.2, hen]

namespace Invariant

variable {s : Subject K O V}

theorem start : Invariant (Subject.init : Subject K O V) where
  consistent := by
    intro k order hlook
    rw [Subject.init, AList.lookup_empty] at hlook
    cases hlook
  registry := by
    have horders : ordersOf (∅ : AList fun _ : K => OrderedSet Nat) = fun _ => [] := by
      funext k
      rw [ordersOf, AList.lookup_empty]
    show Registry (ordersOf ∅) (fun _ => none) (fun _ => none)
    rw [horders]
    exact Registry.empty
  rounds := fun _ hr => nomatch hr
  timely := trivial

/-- Pairs may change where the registry does not look. -/
theorem repaint (h : Invariant s) {pairs : Pairs O V} (hsame : SameFaces s.pairs pairs) :
    Invariant { s with pairs } where
  consistent := h.consistent
  registry := h.registry.congr hsame
  rounds := fun r hr => ⟨(h.rounds r hr).1, fun a ha => ((h.rounds r hr).2 a ha).congr hsame⟩
  timely := h.timely

theorem restack (h : Invariant s) {stack : List (Frame K)}
    (hstack : ∀ r, Frame.round r ∈ stack → r.kind ≠ Kind.invalid ∧
      ∀ a ∈ r.pending, Tracked (ordersOf s.observersInfo) s.pairs r.key a) :
    Invariant { s with stack } :=
  ⟨h.consistent, h.registry, hstack, h.timely⟩

/-! ### `will` -/

theorem getObservers_spec (h : Invariant s) (key : K) (notifyKind : Kind) :
    ∃ observers, s.getObservers key notifyKind = .ok observers ∧
      ∀ a ∈ observers, Tracked (ordersOf s.observersInfo) s.pairs key a := by
  rw [Subject.getObservers]
  cases hlook : s.observersInfo.lookup key with
  | none => exact ⟨[], rfl, fun _ ha => nomatch ha⟩
  | some order =>
      refine ⟨_, by simp only [(h.consistent key order hlook).size_eq, ok_bind]; rfl, ?_⟩
      intro a ha
      have hin : a ∈ ordersOf s.observersInfo key := by
        rw [ordersOf_eq hlook]
        exact List.mem_of_mem_filter ha
      obtain ⟨p, hp, -⟩ := h.registry.live key a hin
      exact ⟨p, hp, fun _ => hin⟩

omit [DecidableEq K] [DecidableEq O] in
theorem willChangeLoop_spec (key : K) (observers : List Nat) :
    ∀ {s : Subject K O V}, (∀ a ∈ observers, ∃ p, s.pairs a = some p) →
      ∃ pairs, Subject.willChangeLoop key observers s = .ok { s with pairs } ∧
        SameFaces s.pairs pairs := by
  induction observers with
  | nil => exact fun _ => ⟨_, rfl, .refl _⟩
  | cons a observers ih =>
      intro s hpairs
      obtain ⟨p, hp⟩ := hpairs a List.mem_cons_self
      have hsame : SameFaces s.pairs (s.setPair a (p.willChange (s.value key))).pairs :=
        SameFaces.update hp (by rw [KVOPair.willChange_eq]; rfl)
      obtain ⟨pairs, hrun, hrest⟩ := ih (s := s.setPair a (p.willChange (s.value key)))
        fun b hb => by
          obtain ⟨q, hq⟩ := hpairs b (List.mem_cons_of_mem a hb)
          obtain ⟨q', hq', -⟩ := hsame.exists hq
          exact ⟨q', hq'⟩
      refine ⟨pairs, ?_, hsame.trans hrest⟩
      rw [Subject.willChangeLoop, Subject.pairAt, hp, ok_bind]
      exact hrun

theorem willChange_spec (h : Invariant s) (key : K) (kind : Kind) :
    ∃ s', s.willChange key kind = .ok s' ∧ Invariant s' ∧ s'.stack = s.stack ∧ s'.log = s.log := by
  rw [Subject.willChange]
  split
  · exact ⟨s, rfl, h, rfl, rfl⟩
  · obtain ⟨observers, hget, htracked⟩ := h.getObservers_spec key kind
    obtain ⟨pairs, hrun, hsame⟩ := willChangeLoop_spec key observers (s := s) fun a ha => by
      obtain ⟨p, hp, -⟩ := htracked a ha
      exact ⟨p, hp⟩
    exact ⟨_, by rw [hget, ok_bind, hrun], h.repaint hsame, rfl, rfl⟩

/-! ### `did` -/

variable (keyPaths : K → List K)

theorem enterDidChange_spec (h : Invariant s) (key : K) {kind : Kind} (hkind : kind ≠ Kind.invalid)
    (doCall : Bool) : ∃ s', s.enterDidChange keyPaths key kind doCall = .ok s' ∧ Invariant s' ∧
      s'.log = s.log := by
  rw [Subject.enterDidChange]
  split
  · exact ⟨s, rfl, h, rfl⟩
  · obtain ⟨observers, hget, htracked⟩ := h.getObservers_spec key kind
    simp only [hget, ok_bind]
    exact ⟨_, rfl, h.restack (Frame.forall_round_cons ⟨hkind, htracked⟩ h.rounds), rfl⟩

end Invariant

section Pairs
variable [BEq V]

omit [DecidableEq K] [DecidableEq O] in
theorem KVOPair.didChange_face (p : KVOPair O V) (value : Any V) (kind : Kind) (doCall : Bool) :
    (p.didChange value kind doCall).1.face = p.face := by
  rw [didChange_eq]
  rfl

omit [DecidableEq K] [DecidableEq O] in
theorem KVOPair.didChange_kind (p : KVOPair O V) (value : Any V) {kind : Kind}
    (hkind : kind ≠ Kind.invalid) (doCall : Bool) :
    (p.didChange value kind doCall).1.change.kind ≠ Kind.invalid := by
  rw [didChange_eq]
  show (if p.first then Kind.initialise else kind) ≠ Kind.invalid
  split
  · decide
  · exact hkind

omit [DecidableEq K] [DecidableEq O] in
/-- Only an enabled pair has its observer called. -/
theorem KVOPair.didChange_call {p : KVOPair O V} {value : Any V} {kind : Kind} {doCall : Bool}
    (h : (p.didChange value kind doCall).2 = true) : p.enabled = true := by
  rw [didChange_eq] at h
  exact (Bool.and_eq_true_iff.mp h).2

end Pairs

namespace Invariant

variable [BEq V] {s : Subject K O V}

theorem beginTurn_spec (h : Invariant s) {r : Round K} {rest : List (Frame K)}
    (hstack : s.stack = .round r :: rest) {a : Nat} {observers : List Nat}
    (hobservers : r.observers = a :: observers) :
    ∃ s', s.beginTurn r a observers rest = .ok s' ∧ Invariant s' ∧
      lastNaming s'.log = lastNaming s.log := by
  obtain ⟨hkind, hpending⟩ := h.rounds r (hstack ▸ List.mem_cons_self)
  have hmem : a ∈ r.pending := List.mem_append_right _ (hobservers ▸ List.mem_cons_self)
  obtain ⟨p, hp, hin⟩ := hpending a hmem
  have hpair : s.pairAt a = .ok p := by rw [Subject.pairAt, hp]
  have hface := KVOPair.didChange_face p (s.value r.key) r.kind r.doCall
  have hlogged : Subject.logKVO (p.didChange (s.value r.key) r.kind r.doCall).1.change = .ok () :=
    if_pos (KVOPair.didChange_kind p _ hkind _)
  have hsame := SameFaces.update hp hface
  have hs' := h.repaint hsame
  -- the frame is left with pairs it had before
  have hframe : ∀ r', Frame.round r' ∈ Frame.round { r with current := some a, observers } :: rest →
      r'.kind ≠ Kind.invalid ∧ ∀ b ∈ r'.pending, Tracked (ordersOf s.observersInfo)
        (Function.update s.pairs a
          (some (p.didChange (s.value r.key) r.kind r.doCall).1)) r'.key b := by
    intro r' hr'
    rcases Frame.round_mem_cons.mp hr' with rfl | hr'
    · refine ⟨hkind, fun b hb => (hpending b ?_).congr hsame⟩
      rw [Round.pending, hobservers]
      exact List.mem_append_right _ hb
    · exact hs'.rounds r' (hstack ▸ List.mem_cons_of_mem _ hr')
  simp only [Subject.beginTurn, hpair, hlogged, ok_bind]
  split
  next hcall =>
    refine ⟨_, rfl, ⟨hs'.consistent, hs'.registry, ?_, ?_⟩, rfl⟩
    · intro r' hr'
      rcases List.mem_cons.mp hr' with hr' | hr'
      · cases hr'
      · exact hframe r' hr'
    · -- the observer called is registered
      obtain ⟨q, hq, -, -, n, hlast, -⟩ :=
        h.registry.live r.key a (hin (KVOPair.didChange_call hcall))
      cases hp.symm.trans hq
      refine ⟨?_, h.timely⟩
      rw [(KVOPair.face_eq_iff.mp hface).1]
      show (lastNaming s.log (p.observer, r.key)).isSome = true
      rw [hlast]
      rfl
  next => exact ⟨_, rfl, hs'.restack hframe, rfl⟩

omit [BEq V] in
theorem endTurn_spec (h : Invariant s) {r : Round K} {rest : List (Frame K)}
    (hstack : s.stack = .round r :: rest) {a : Nat} (hcurrent : r.current = some a) :
    ∃ s', s.endTurn r a rest = .ok s' ∧ Invariant s' ∧
      lastNaming s'.log = lastNaming s.log := by
  obtain ⟨hkind, hpending⟩ := h.rounds r (hstack ▸ List.mem_cons_self)
  have hmem : a ∈ r.pending := by
    rw [Round.pending, hcurrent]
    exact List.mem_cons_self
  obtain ⟨p, hp, -⟩ := hpending a hmem
  have hpair : s.pairAt a = .ok p := by rw [Subject.pairAt, hp]
  have hsame : SameFaces s.pairs (Function.update s.pairs a (some p.didChangeDone)) :=
    SameFaces.update hp rfl
  have hs' := h.repaint hsame
  simp only [Subject.endTurn, hpair, ok_bind]
  refine ⟨_, rfl, hs'.restack fun r' hr' => ?_, rfl⟩
  rcases Frame.round_mem_cons.mp hr' with rfl | hr'
  · refine ⟨hkind, fun b hb => (hpending b ?_).congr hsame⟩
    exact List.mem_append_right _ hb
  · exact hs'.rounds r' (hstack ▸ List.mem_cons_of_mem _ hr')

variable (keyPaths : K → List K)

theorem advance_spec (h : Invariant s) : ∃ s', s.advance keyPaths = .ok s' ∧ Invariant s' ∧
    lastNaming s'.log = lastNaming s.log := by
  rw [Subject.advance]
  split
  next r rest hstack =>
    have hrest : ∀ r', Frame.round r' ∈ rest → r'.kind ≠ Kind.invalid ∧
        ∀ b ∈ r'.pending, Tracked (ordersOf s.observersInfo) s.pairs r'.key b :=
      fun r' hr' => h.rounds r' (hstack ▸ List.mem_cons_of_mem _ hr')
    obtain ⟨hkind, hpending⟩ := h.rounds r (hstack ▸ List.mem_cons_self)
    rw [Subject.advanceRound]
    split
    next a hcurrent => exact h.endTurn_spec hstack hcurrent
    next a observers _ hobservers => exact h.beginTurn_spec hstack hobservers
    next keyPath more hcurrent hobservers _ =>
      have hs₁ : Invariant { s with stack := .round { r with keyPaths := more } :: rest } :=
        h.restack (Frame.forall_round_cons ⟨hkind, hpending⟩ hrest)
      obtain ⟨s₂, hwill, hs₂, hlog₂⟩ : ∃ s₂, Subject.keyPathWill
          { s with stack := .round { r with keyPaths := more } :: rest } r.kind keyPath = .ok s₂ ∧
            Invariant s₂ ∧ s₂.log = s.log := by
        rw [Subject.keyPathWill]
        split
        · obtain ⟨s₂, hrun, hs₂, -, hlog₂⟩ := hs₁.willChange_spec keyPath r.kind
          exact ⟨s₂, hrun, hs₂, hlog₂⟩
        · exact ⟨_, rfl, hs₁, rfl⟩
      obtain ⟨s₃, hrun, hs₃, hlog₃⟩ := hs₂.enterDidChange_spec keyPaths keyPath hkind true
      simp only [hwill, ok_bind]
      exact ⟨s₃, hrun, hs₃, by rw [hlog₃, hlog₂]⟩
    next => exact ⟨_, rfl, h.restack hrest, rfl⟩
  next => exact ⟨s, rfl, h, rfl⟩

end Invariant

/-! ## Steps -/

/-- The calls the ordered sets and the iterator of `addObserver` can take: a
registered observer that is named again stands last in the order of the key, and
is not alone there if it is to be added. -/
def StepOk (s : Subject K O V) : Action K O V → Prop
  | .addObserver o k n _ _ => Kind.ofInteger n ≠ 0 ∧
      LastIfRegistered (ordersOf s.observersInfo) s.pairs o k ∧
      NotAlone (ordersOf s.observersInfo) s.pairs o k
  | .removeObserver o k => LastIfRegistered (ordersOf s.observersInfo) s.pairs o k
  | _ => True

instance (s : Subject K O V) : DecidablePred (StepOk s)
  | .addObserver o k n _ _ => inferInstanceAs (Decidable (Kind.ofInteger n ≠ 0 ∧
      LastIfRegistered (ordersOf s.observersInfo) s.pairs o k ∧
      NotAlone (ordersOf s.observersInfo) s.pairs o k))
  | .removeObserver o k =>
      inferInstanceAs (Decidable (LastIfRegistered (ordersOf s.observersInfo) s.pairs o k))
  | .willChangeValueForKey _ | .didChangeValueForKey _ | .setValue _ _ | .returns | .advance =>
      inferInstanceAs (Decidable True)

namespace Invariant

variable [BEq V] {s : Subject K O V}

omit [BEq V] in
/-- A call that preserves what rounds rely on, and moves the registrations on. -/
theorem recorded (h : Invariant s) {s' : Subject K O V} (hpres : Preserves s s')
    (hcons : AllConsistent s'.observersInfo) {e : Event K O V}
    (hreg : Registry (ordersOf s'.observersInfo) s'.pairs (lastNaming (e :: s.log)))
    (htimely : Timely (e :: s.log)) : Invariant { s' with log := e :: s.log } where
  consistent := hcons
  registry := hreg
  rounds := by
    intro r hr
    obtain ⟨hkind, hpending⟩ := h.rounds r (hpres.stack ▸ hr)
    exact ⟨hkind, fun a ha => hpres.tracked r.key a (hpending a ha)⟩
  timely := htimely

theorem step_spec (keyPaths : K → List K) (h : Invariant s) (a : Action K O V) (hen : enabled s a)
    (hok : StepOk s a) : ∃ s', step keyPaths s a = .ok s' ∧ Invariant s' ∧
      lastNaming s'.log = record (lastNaming s.log) a := by
  cases a with
  | addObserver o k n context address =>
      obtain ⟨-, hfresh, hlo, hhi⟩ := hen
      obtain ⟨hn, hlast, hsole⟩ := hok
      obtain ⟨s₁, hreg, hpres, hcons, hregistry⟩ :=
        register_spec h.registry h.consistent hn hfresh hlo hhi hlast hsole context
      have hs₁ : Invariant { s₁ with log := .added o k n context :: s.log } :=
        h.recorded hpres hcons hregistry h.timely
      obtain ⟨s₂, hwill, hs₂, -, hlog₂⟩ := hs₁.willChange_spec k Kind.initialise
      obtain ⟨s₃, hrun, hs₃, hlog₃⟩ := hs₂.enterDidChange_spec keyPaths k
        (show Kind.initialise ≠ Kind.invalid by decide) ((n &&& 0x4) == 0x4)
      refine ⟨s₃, ?_, hs₃, by rw [hlog₃, hlog₂]; rfl⟩
      simp only [step, Subject.addObserver, hreg, ok_bind, hpres.log, hwill, hrun]
  | removeObserver o k =>
      obtain ⟨s₁, hrun, hgone⟩ := removeObserver_spec h.registry h.consistent hok
      refine ⟨_, by simp only [step, hrun, ok_bind]; rfl, ?_⟩
      rw [hgone.preserves.log]
      exact ⟨h.recorded hgone.preserves hgone.consistent hgone.registry h.timely, rfl⟩
  | willChangeValueForKey k =>
      obtain ⟨s', hrun, hs', -, hlog⟩ := h.willChange_spec k Kind.new
      exact ⟨s', hrun, hs', by rw [hlog]; rfl⟩
  | didChangeValueForKey k =>
      obtain ⟨s', hrun, hs', hlog⟩ := h.enterDidChange_spec keyPaths k
        (show Kind.new ≠ Kind.invalid by decide) true
      exact ⟨s', hrun, hs', by rw [hlog]; rfl⟩
  | setValue k value => exact ⟨_, rfl, ⟨h.consistent, h.registry, h.rounds, h.timely⟩, rfl⟩
  | returns =>
      exact ⟨_, rfl, h.restack fun r hr => h.rounds r (List.mem_of_mem_tail hr), rfl⟩
  | advance => exact h.advance_spec keyPaths

end Invariant

/-! ## Runs -/

section Runs
variable [BEq V] {keyPaths : K → List K} {as : List (Action K O V)} {s : Subject K O V}

/-- After a run of such calls the invariant holds, for the registrations the calls leave. -/
theorem Invariant.run (h : (machine keyPaths).Run StepOk as s) :
    Invariant s ∧ lastNaming s.log = lastCall as := by
  refine h.invariant_history (I := fun as s => Invariant s ∧ lastNaming s.log = lastCall as)
    ⟨.start, rfl⟩ fun as s a s' ⟨hs, hlast⟩ hen hok hrun => ?_
  obtain ⟨s'', hrun', hs'', hlast'⟩ := hs.step_spec keyPaths a hen hok
  cases hrun.symm.trans hrun'
  refine ⟨hs'', ?_⟩
  rw [hlast', hlast, lastCall, lastCall, List.foldl_append]
  rfl

/-- The pairs of an observer in the order of a key. -/
def Subject.registered (s : Subject K O V) (o : O) (k : K) : List Nat :=
  (ordersOf s.observersInfo k).filter fun a => (s.pairs a).map KVOPair.observer = some o

/-- The registry holds one pair for each registration, with its kind and context,
and none for anybody else. -/
def HoldsExactly (s : Subject K O V) (last : Registrations K O V) : Prop :=
  ∀ o k, match last (o, k) with
    | none => s.registered o k = []
    | some (n, context) => ∃ a p, s.registered o k = [a] ∧ s.pairs a = some p ∧
        p.observer = o ∧ p.notifyKind = Kind.ofInteger n ∧ p.context = context

omit [BEq V] in
theorem Invariant.holdsExactly (h : Invariant s) : HoldsExactly s (lastNaming s.log) := by
  intro o k
  have hmem : ∀ a, a ∈ s.registered o k ↔
      a ∈ ordersOf s.observersInfo k ∧ ∃ p, s.pairs a = some p ∧ p.observer = o := by
    intro a
    rw [Subject.registered, List.mem_filter, decide_eq_true_iff, Option.map_eq_some_iff]
  have hnd : (s.registered o k).Nodup := by
    refine List.Nodup.filter _ ?_
    cases hlook : s.observersInfo.lookup k with
    | none => rw [ordersOf, hlook]; exact List.nodup_nil
    | some order => rw [ordersOf_eq hlook]; exact (h.consistent k order hlook).nodup
  cases hlast : lastNaming s.log (o, k) with
  | none =>
      refine List.eq_nil_iff_forall_not_mem.mpr fun a ha => ?_
      obtain ⟨hin, p, hp, rfl⟩ := (hmem a).mp ha
      obtain ⟨q, hq, -, -, n, hn, -⟩ := h.registry.live k a hin
      cases hp.symm.trans hq
      rw [hlast] at hn
      cases hn
  | some x =>
      obtain ⟨a, hin, p, hp, rfl⟩ := h.registry.present o k x hlast
      obtain ⟨q, hq, -, -, n, hn, hkind⟩ := h.registry.live k a hin
      cases hp.symm.trans hq
      rw [hlast] at hn
      cases hn
      refine ⟨a, p, ?_, hp, rfl, hkind, rfl⟩
      -- one member, and no duplicate
      have hall : ∀ b ∈ s.registered p.observer k, b = a := by
        intro b hb
        obtain ⟨hbin, q, hq, hobs⟩ := (hmem b).mp hb
        exact h.registry.distinct k b a q p hbin hin hq hp hobs
      have ha : a ∈ s.registered p.observer k := (hmem a).mpr ⟨hin, p, hp, rfl⟩
      refine List.perm_singleton.mp ((List.perm_ext_iff_of_nodup hnd (List.nodup_singleton a)).mpr ?_)
      exact fun b => ⟨fun hb => List.mem_singleton.mpr (hall b hb),
        fun hb => List.mem_singleton.mp hb ▸ ha⟩

/-- The registry is what the calls so far say, and no such call fails. -/
theorem registry_follows_calls (h : (machine keyPaths).Run StepOk as s) :
    HoldsExactly s (lastCall as) ∧
      ∀ a, enabled s a → StepOk s a → ∃ s', step keyPaths s a = .ok s' := by
  obtain ⟨hs, hlast⟩ := Invariant.run h
  refine ⟨hlast ▸ hs.holdsExactly, fun a hen hok => ?_⟩
  obtain ⟨s', hrun, -⟩ := hs.step_spec keyPaths a hen hok
  exact ⟨s', hrun⟩

/-- Two observers of one key, who ask for new values. -/
def twoObservers : List (Action String Nat Nat) :=
  .addObserver 1 "k" 1 none 10 :: List.replicate 3 .advance ++
    .addObserver 2 "k" 1 none 20 :: List.replicate 5 .advance

/-- The second is removed and comes back before the value changes. -/
def removedAndBack : List (Action String Nat Nat) :=
  twoObservers ++ .removeObserver 2 "k" :: .addObserver 2 "k" 1 none 30 ::
    List.replicate 5 .advance ++
    [.willChangeValueForKey "k", .setValue "k" (some 7), .didChangeValueForKey "k", .advance,
      .returns, .advance, .advance]

theorem registry_follows_calls_removedAndBack :
    ∃ s, (machine fun _ => []).Run StepOk removedAndBack s ∧
      HoldsExactly s (lastCall removedAndBack) := by
  obtain ⟨s, hrun, -⟩ : ∃ s, (machine fun _ => []).exec StepOk .init removedAndBack = some s ∧
      True := ⟨_, rfl, trivial⟩
  have h := Machine.run_of_exec hrun
  exact ⟨s, h, (registry_follows_calls h).1⟩

/-- The first of two observers is removed, then the second; the second stays. -/
theorem second_observer_stays :
    ∃ s, (machine fun _ => []).Run Machine.anyAction
        (twoObservers ++ [.removeObserver 1 "k", .removeObserver 2 "k"]) s ∧
      lastCall (twoObservers ++ [.removeObserver 1 "k", .removeObserver 2 "k"]) (2, "k") = none ∧
      s.registered 2 "k" = [20] := by
  obtain ⟨s, hrun, hheld⟩ : ∃ s, (machine fun _ => []).exec Machine.anyAction .init
      (twoObservers ++ [.removeObserver 1 "k", .removeObserver 2 "k"]) = some s ∧
        s.registered 2 "k" = [20] := ⟨_, rfl, rfl⟩
  exact ⟨s, Machine.run_of_exec hrun, rfl, hheld⟩

/-- Between a removal and a notification of the same observer for the same key it
was added again. -/
theorem no_late_notification (h : (machine keyPaths).Run StepOk as s)
    {after between before : List (Event K O V)} {o : O} {k : K} {context : Any V}
    {change : Change V}
    (hlog : s.log = after ++ .notified o k context change :: (between ++ .removed o k :: before)) :
    ∃ n context', Event.added o k n context' ∈ between :=
  added_of_registered (Timely.registered (hlog ▸ (Invariant.run h).1.timely))

theorem no_late_notification_removedAndBack :
    ∃ s, (machine fun _ => []).Run StepOk removedAndBack s ∧
      ∃ n context, Event.added 2 "k" n context ∈
        [.notified 1 "k" none ⟨Kind.new, none, some 7⟩, Event.added 2 "k" 1 none] := by
  obtain ⟨s, hrun, hlog⟩ : ∃ s, (machine fun _ => []).exec StepOk .init removedAndBack = some s ∧
      s.log = [] ++ .notified 2 "k" none ⟨Kind.new, none, some 7⟩ ::
        ([.notified 1 "k" none ⟨Kind.new, none, some 7⟩, .added 2 "k" 1 none] ++
          .removed 2 "k" :: [.added 2 "k" 1 none, .added 1 "k" 1 none]) := ⟨_, rfl, rfl⟩
  have h := Machine.run_of_exec hrun
  exact ⟨s, h, no_late_notification h hlog⟩

/-- The first of two observers is removed, then the second, who is notified of the next change. -/
theorem removed_observer_is_notified :
    ∃ s : Subject String Nat Nat, (machine fun _ => []).Reachable s ∧ ∃ context change before,
      s.log = Event.notified 2 "k" context change :: .removed 2 "k" :: before := by
  obtain ⟨s, hrun, hlog⟩ : ∃ s, (machine fun _ => []).exec Machine.anyAction .init
      (twoObservers ++ [.removeObserver 1 "k", .removeObserver 2 "k", .willChangeValueForKey "k",
        .setValue "k" (some 7), .didChangeValueForKey "k", .advance]) = some s ∧
      ∃ context change before,
        s.log = Event.notified 2 "k" context change :: .removed 2 "k" :: before :=
    ⟨_, rfl, _, _, _, rfl⟩
  exact ⟨s, ⟨_, Machine.run_of_exec hrun⟩, hlog⟩

end Runs

end KeyValueObserverInterface

end Rx
