/-
# `RxFoundation.KeyValueObserverSteps` — what a call leaves of orders and pairs

The registry of `KeyValueObserverRegistry` is right only in runs that spare the
ordered sets.  Here is what holds in every run: each function of the observed
object is described by what it does to the order of each key, to the pairs and
to the stack, from any state in which the orders are `Ordered`.

A pair `Succeeds` another if nothing but its change record and its call state
has moved on; `will` and `did` replace pairs by successors only.  What a round can
do next is said once (`Advanced`); what holds of rounds is proved by its cases.
-/
import CrashRealm.RxFoundation.KeyValueObserverRegistry

namespace Rx

namespace KeyValueObserverInterface

variable {K O V : Type}

theorem Kind.new_valid : Kind.new ≠ Kind.invalid := by decide

theorem Kind.initialise_valid : Kind.initialise ≠ Kind.invalid := by decide

/-! ## Pairs -/

namespace KVOPair

/-- A pair that did not ask for old values has none. -/
def Recorded (pair : KVOPair O V) : Prop :=
  pair.asksFor Kind.old = false → pair.change.oldValue = none

/-- Only the change record and the call state have moved on, and a first round is
never taken back. -/
structure Succeeds (pair pair' : KVOPair O V) : Prop where
  face : pair'.face = pair.face
  initialized : pair.initialized = true → pair'.initialized = true
  recorded : pair.Recorded → pair'.Recorded

namespace Succeeds

variable {pair pair' : KVOPair O V}

theorem refl (pair : KVOPair O V) : pair.Succeeds pair := ⟨rfl, id, id⟩

theorem trans {pair'' : KVOPair O V} (h : pair.Succeeds pair') (h' : pair'.Succeeds pair'') :
    pair.Succeeds pair'' :=
  ⟨h'.face.trans h.face, h'.initialized ∘ h.initialized, h'.recorded ∘ h.recorded⟩

theorem observer (h : pair.Succeeds pair') : pair'.observer = pair.observer :=
  (face_eq_iff.mp h.face).1

theorem notifyKind (h : pair.Succeeds pair') : pair'.notifyKind = pair.notifyKind :=
  (face_eq_iff.mp h.face).2.2.1

theorem enabled (h : pair.Succeeds pair') : pair'.enabled = pair.enabled :=
  (face_eq_iff.mp h.face).2.2.2

end Succeeds

theorem succeeds_willChange (pair : KVOPair O V) (value : Any V) :
    pair.Succeeds (pair.willChange value) := by
  rw [willChange_eq]
  refine ⟨rfl, id, fun hrecorded hnot => ?_⟩
  have hnot' : pair.asksFor Kind.old = false := hnot
  show (if pair.asksFor Kind.old then value else pair.change.oldValue) = none
  rw [hnot']
  exact hrecorded hnot'

theorem succeeds_didChange [BEq V] (pair : KVOPair O V) (value : Any V) (kind : Kind)
    (doCall : Bool) : pair.Succeeds (pair.didChange value kind doCall).1 := by
  rw [didChange_eq]
  refine ⟨rfl, fun hinit => ?_, id⟩
  show (pair.first || pair.initialized) = true
  rw [hinit, Bool.or_true]

theorem succeeds_didChangeDone (pair : KVOPair O V) : pair.Succeeds pair.didChangeDone :=
  ⟨rfl, id, fun _ _ => rfl⟩

end KVOPair

/-- Every pair is succeeded, and no address gets one. -/
def Grow (pairs pairs' : Pairs O V) : Prop :=
  (∀ a, pairs a = none → pairs' a = none) ∧
    ∀ a p, pairs a = some p → ∃ p', pairs' a = some p' ∧ p.Succeeds p'

namespace Grow

variable {pairs pairs' : Pairs O V}

theorem refl (pairs : Pairs O V) : Grow pairs pairs :=
  ⟨fun _ h => h, fun _ p hp => ⟨p, hp, .refl p⟩⟩

theorem update {a : Nat} {p p' : KVOPair O V} (hp : pairs a = some p) (h : p.Succeeds p') :
    Grow pairs (Function.update pairs a (some p')) := by
  constructor
  · intro b hb
    have hba : b ≠ a := by
      rintro rfl
      cases hp.symm.trans hb
    exact (Function.update_of_ne hba ..).trans hb
  · intro b q hq
    by_cases hba : b = a
    · subst hba
      cases hp.symm.trans hq
      exact ⟨p', Function.update_self .., h⟩
    · exact ⟨q, (Function.update_of_ne hba ..).trans hq, .refl q⟩

/-- Each pair of the new state succeeds one of the old. -/
theorem back (h : Grow pairs pairs') {a : Nat} {p' : KVOPair O V} (hp' : pairs' a = some p') :
    ∃ p, pairs a = some p ∧ p.Succeeds p' := by
  cases hp : pairs a with
  | none => cases (h.1 a hp).symm.trans hp'
  | some p =>
      obtain ⟨p'', hp'', hs⟩ := h.2 a p hp
      cases hp'.symm.trans hp''
      exact ⟨p, rfl, hs⟩

end Grow

/-! ## Orders -/

/-- Each order lists enabled pairs once, each pair in one order; the pairs a round
still has to do with belong to its key. -/
structure Ordered (orders : K → List Nat) (pairs : Pairs O V) (stack : List (Frame K)) :
    Prop where
  nodup : ∀ k, (orders k).Nodup
  live : ∀ k, ∀ a ∈ orders k, ∃ p, pairs a = some p ∧ p.enabled = true
  disjoint : ∀ k k' a, a ∈ orders k → a ∈ orders k' → k = k'
  recorded : ∀ a p, pairs a = some p → p.Recorded
  rounds : ∀ r, Frame.round r ∈ stack → r.kind ≠ Kind.invalid ∧
    ∀ a ∈ r.pending, pairs a ≠ none ∧ ∀ k, a ∈ orders k → k = r.key

namespace Ordered

variable {orders : K → List Nat} {pairs pairs' : Pairs O V} {stack : List (Frame K)}

theorem grow (h : Ordered orders pairs stack) (hgrow : Grow pairs pairs') :
    Ordered orders pairs' stack where
  nodup := h.nodup
  live := by
    intro k a ha
    obtain ⟨p, hp, hen⟩ := h.live k a ha
    obtain ⟨p', hp', hs⟩ := hgrow.2 a p hp
    exact ⟨p', hp', hs.enabled.trans hen⟩
  disjoint := h.disjoint
  recorded := by
    intro a p' hp'
    obtain ⟨p, hp, hs⟩ := hgrow.back hp'
    exact hs.recorded (h.recorded a p hp)
  rounds := by
    intro r hr
    obtain ⟨hkind, hpending⟩ := h.rounds r hr
    refine ⟨hkind, fun a ha => ⟨fun hnone => ?_, (hpending a ha).2⟩⟩
    obtain ⟨p, hp⟩ := Option.ne_none_iff_exists'.mp (hpending a ha).1
    obtain ⟨p', hp', -⟩ := hgrow.2 a p hp
    cases hp'.symm.trans hnone

theorem restack (h : Ordered orders pairs stack) {stack' : List (Frame K)}
    (hrounds : ∀ r, Frame.round r ∈ stack' → Frame.round r ∈ stack ∨ (r.kind ≠ Kind.invalid ∧
      ∀ a ∈ r.pending, pairs a ≠ none ∧ ∀ k, a ∈ orders k → k = r.key)) :
    Ordered orders pairs stack' :=
  ⟨h.nodup, h.live, h.disjoint, h.recorded, fun r hr => (hrounds r hr).elim (h.rounds r) id⟩

theorem tail (h : Ordered orders pairs stack) : Ordered orders pairs stack.tail :=
  h.restack fun _ hr => .inl (List.mem_of_mem_tail hr)

/-- A round over the whole order of its key. -/
theorem push (h : Ordered orders pairs stack) {r : Round K} (hkind : r.kind ≠ Kind.invalid)
    (hcurrent : r.current = none) (hobservers : r.observers = orders r.key) :
    Ordered orders pairs (.round r :: stack) := by
  refine h.restack fun r' hr' => ?_
  rcases Frame.round_mem_cons.mp hr' with rfl | hr'
  · refine .inr ⟨hkind, fun a ha => ?_⟩
    rw [Round.pending, hcurrent, hobservers] at ha
    obtain ⟨p, hp, -⟩ := h.live r.key a ha
    exact ⟨by rw [hp]; exact Option.some_ne_none p, fun k hk => h.disjoint k r.key a hk ha⟩
  · exact .inl hr'

/-- A round goes on with pairs it had left. -/
theorem proceed {r r' : Round K} (h : Ordered orders pairs (.round r :: stack))
    (hkind : r'.kind = r.kind) (hkey : r'.key = r.key) (hpending : r'.pending ⊆ r.pending) :
    Ordered orders pairs (.round r' :: stack) := by
  obtain ⟨hvalid, hown⟩ := h.rounds r List.mem_cons_self
  refine h.restack fun r'' hr'' => ?_
  rcases Frame.round_mem_cons.mp hr'' with rfl | hr''
  · exact .inr ⟨hkind ▸ hvalid, fun a ha => hkey ▸ hown a (hpending ha)⟩
  · exact .inl (List.mem_cons_of_mem _ hr'')

theorem callback (h : Ordered orders pairs stack) : Ordered orders pairs (.callback :: stack) :=
  h.restack fun _ hr => .inl ((List.mem_cons.mp hr).resolve_left fun h => nomatch h)

variable [DecidableEq K]

/-- A pair is disabled and leaves its order. -/
theorem withdraw (h : Ordered orders pairs stack) {k : K} {a : Nat} {p : KVOPair O V}
    (ha : a ∈ orders k) (hp : pairs a = some p) :
    Ordered (Function.update orders k ((orders k).erase a))
      (Function.update pairs a (some (p.setEnabled false))) stack := by
  have hmem : ∀ k' b, b ∈ Function.update orders k ((orders k).erase a) k' →
      b ≠ a ∧ b ∈ orders k' :=
    fun _ _ => mem_update_withdraw h.disjoint ha fun b => (h.nodup k).mem_erase_iff.mp
  refine ⟨fun k' => ?_, fun k' b hb => ?_, fun k₁ k₂ b hb₁ hb₂ => ?_, fun b q hq => ?_,
    fun r hr => ?_⟩
  · by_cases hk : k' = k
    · subst hk
      rw [Function.update_self]
      exact (h.nodup k').erase a
    · rw [Function.update_of_ne hk]
      exact h.nodup k'
  · obtain ⟨hba, hb'⟩ := hmem k' b hb
    obtain ⟨q, hq, hen⟩ := h.live k' b hb'
    exact ⟨q, (Function.update_of_ne hba ..).trans hq, hen⟩
  · exact h.disjoint k₁ k₂ b (hmem k₁ b hb₁).2 (hmem k₂ b hb₂).2
  · by_cases hba : b = a
    · subst hba
      rw [Function.update_self] at hq
      cases hq
      exact h.recorded b p hp
    · rw [Function.update_of_ne hba] at hq
      exact h.recorded b q hq
  · obtain ⟨hkind, hpending⟩ := h.rounds r hr
    refine ⟨hkind, fun b hb => ⟨fun hnone => ?_, fun k' hk' => (hpending b hb).2 k' (hmem k' b hk').2⟩⟩
    by_cases hba : b = a
    · subst hba
      rw [Function.update_self] at hnone
      cases hnone
    · rw [Function.update_of_ne hba] at hnone
      exact (hpending b hb).1 hnone

/-- A fresh enabled pair goes to the end of an order. -/
theorem add (h : Ordered orders pairs stack) {k : K} {a : Nat} {p : KVOPair O V}
    (hfresh : pairs a = none) (hen : p.enabled = true) (hrecorded : p.Recorded) :
    Ordered (Function.update orders k (orders k ++ [a])) (Function.update pairs a (some p))
      stack := by
  have hold : ∀ k' b, b ∈ orders k' → b ≠ a := by
    rintro k' b hb rfl
    obtain ⟨q, hq, -⟩ := h.live k' b hb
    cases hfresh.symm.trans hq
  refine ⟨fun k' => ?_, fun k' b hb => ?_, fun _ _ _ => disjoint_update_append h.disjoint hold,
    fun b q hq => ?_, fun r hr => ?_⟩
  · by_cases hk : k' = k
    · subst hk
      rw [Function.update_self]
      rw [← List.concat_eq_append]
      exact (h.nodup k').concat fun ha => hold k' a ha rfl
    · rw [Function.update_of_ne hk]
      exact h.nodup k'
  · obtain hb | ⟨rfl, -⟩ := mem_update_append.mp hb
    · obtain ⟨q, hq, hqen⟩ := h.live k' b hb
      exact ⟨q, (Function.update_of_ne (hold k' b hb) ..).trans hq, hqen⟩
    · exact ⟨p, Function.update_self .., hen⟩
  · by_cases hba : b = a
    · subst hba
      rw [Function.update_self] at hq
      cases hq
      exact hrecorded
    · rw [Function.update_of_ne hba] at hq
      exact h.recorded b q hq
  · obtain ⟨hkind, hpending⟩ := h.rounds r hr
    have hne : ∀ b ∈ r.pending, b ≠ a := fun b hb hba => (hpending b hb).1 (hba ▸ hfresh)
    refine ⟨hkind, fun b hb => ⟨?_, fun k' hk' => ?_⟩⟩
    · rw [Function.update_of_ne (hne b hb)]
      exact (hpending b hb).1
    · obtain hk' | ⟨hba, -⟩ := mem_update_append.mp hk'
      · exact (hpending b hb).2 k' hk'
      · exact absurd hba (hne b hb)

end Ordered

/-! ## The calls -/

namespace Subject

variable [DecidableEq K] [DecidableEq O]

/-- The pairs of a key, in their order. -/
def orders (s : Subject K O V) : K → List Nat := ordersOf s.observersInfo

omit [DecidableEq O] in
theorem findOrInsert_orders (s : Subject K O V) (key : K) :
    ∃ info, s.findOrInsert key = { s with observersInfo := info } ∧
      ordersOf info = s.orders := by
  rw [findOrInsert]
  cases hlook : s.observersInfo.lookup key with
  | some order => exact ⟨s.observersInfo, rfl, rfl⟩
  | none =>
      refine ⟨_, rfl, (ordersOf_insert _ _ _).trans (Function.update_eq_self_iff.mpr ?_)⟩
      rw [ordersOf, hlook]
      rfl

/-- `removeObserver` finds nobody, or disables a pair that leaves the order. -/
theorem removeObserver_ends (s : Subject K O V) (hnodup : ∀ k, (s.orders k).Nodup)
    (observer : O) (key : K) :
    Ends anyFault (s.removeObserver observer key) fun s' => s' = s ∨
      ∃ a p info, a ∈ s.orders key ∧ s.pairs a = some p ∧
        s' = { s.setPair a (p.setEnabled false) with observersInfo := info } ∧
        ordersOf info = Function.update s.orders key ((s.orders key).erase a) := by
  rw [removeObserver]
  cases hlook : s.observersInfo.lookup key with
  | none => exact .inl rfl
  | some order =>
      have horder : s.orders key = order.array := ordersOf_eq hlook
      have hdistinct : order.array.Nodup := by
        rw [← horder]
        exact hnodup key
      show Ends anyFault (s.removeFrom order observer key) _
      refine (Ends.any _).bind fun targetPosition _ => ?_
      split
      · exact .inl rfl
      refine (order.deref_ends targetPosition).bind ?_
      rintro a ⟨hvalid, hget⟩
      rw [pairAt]
      cases hp : s.pairs a with
      | none => trivial
      | some p =>
          refine (order.eraseIterator_ends some hvalid).bind fun order' harray => ?_
          obtain ⟨hlt, rfl⟩ := List.getElem?_eq_some_iff.mp hget
          have herase : order'.array = (s.orders key).erase order.array[targetPosition] := by
            rw [harray, horder, hdistinct.erase_getElem]
          have hmem : order.array[targetPosition] ∈ s.orders key := by
            rw [horder]
            exact List.getElem_mem hlt
          refine order'.isEmpty_ends.bind fun empty hempty => ?_
          split
          next hyes =>
            have hnil : order'.array = [] :=
              List.length_eq_zero_iff.mp (beq_iff_eq.mp (hempty.symm.trans hyes))
            refine .inr ⟨_, p, _, hmem, hp, rfl, (ordersOf_erase _ _).trans ?_⟩
            rw [← herase, hnil]
            rfl
          next =>
            refine .inr ⟨_, p, _, hmem, hp, rfl, (ordersOf_insert _ _ _).trans ?_⟩
            rw [herase]
            rfl

/-- `register` withdraws the observer and adds its new pair. -/
theorem register_ends (s : Subject K O V) (observer : O) (key : K) (notifyKind : BitVec 64)
    (context : Any V) (address : Nat) :
    Ends anyFault (s.register observer key notifyKind context address) fun s' =>
      ∃ s₁ info, (s.findOrInsert key).removeObserver observer key = .ok s₁ ∧
        s' = { s₁.setPair address ((KVOPair.make observer (Kind.ofInteger notifyKind)
          context).setEnabled true) with observersInfo := info } ∧
        ordersOf info = Function.update s₁.orders key (s₁.orders key ++ [address]) := by
  rw [register]
  cases hremove : (s.findOrInsert key).removeObserver observer key with
  | error e => trivial
  | ok s₁ =>
      rw [ok_bind]
      cases hlook : s₁.observersInfo.lookup key with
      | none => trivial
      | some order =>
          refine (order.addObject_ends address).bind fun order' harray => ?_
          refine ⟨s₁, _, rfl, rfl, (ordersOf_insert _ _ _).trans ?_⟩
          rw [harray, ← ordersOf_eq hlook]
          rfl

omit [DecidableEq O] in
/-- The snapshot of a key is its whole order. -/
theorem getObservers_ends {s : Subject K O V}
    (hlive : ∀ k, ∀ a ∈ s.orders k, ∃ p, s.pairs a = some p ∧ p.enabled = true) (key : K)
    {notifyKind : Kind} (hkind : notifyKind ≠ Kind.invalid) :
    Ends anyFault (s.getObservers key notifyKind) fun observers => observers = s.orders key := by
  rw [getObservers, orders, ordersOf]
  cases hlook : s.observersInfo.lookup key with
  | none => rfl
  | some order =>
      refine (Ends.any _).bind fun _ _ => List.filter_eq_self.mpr fun a ha => ?_
      have hmem : a ∈ s.orders key := by
        rw [orders, ordersOf_eq hlook]
        exact ha
      obtain ⟨p, hp, hen⟩ := hlive key a hmem
      have hor : (p.notifyKind ||| notifyKind) ≠ 0 := fun h => hkind (BitVec.or_eq_zero_iff.mp h).2
      rw [hp]
      show (p.enabled && _) = true
      rw [hen, Bool.true_and]
      exact bne_iff_ne.mpr hor

omit [DecidableEq O] [DecidableEq K] in
theorem willChangeLoop_ends (key : K) (observers : List Nat) :
    ∀ {s : Subject K O V}, observers.Nodup →
      Ends anyFault (willChangeLoop key observers s) fun s' =>
        ∃ pairs, s' = { s with pairs } ∧ (∀ b, b ∉ observers → pairs b = s.pairs b) ∧
          ∀ b ∈ observers, ∃ p, s.pairs b = some p ∧
            pairs b = some (p.willChange (s.value key)) := by
  induction observers with
  | nil => exact fun _ => ⟨_, rfl, fun _ _ => rfl, fun b hb => absurd hb List.not_mem_nil⟩
  | cons a observers ih =>
      intro s hnodup
      obtain ⟨ha, hnodup'⟩ := List.nodup_cons.mp hnodup
      rw [willChangeLoop, pairAt]
      cases hp : s.pairs a with
      | none => trivial
      | some p =>
          show Ends anyFault (willChangeLoop key observers
            (s.setPair a (p.willChange (s.value key)))) _
          refine (ih hnodup').mono ?_
          rintro s' ⟨pairs, hs', hout, hin⟩
          refine ⟨pairs, hs', fun b hb => ?_, fun b hb => ?_⟩
          · rw [hout b fun h => hb (List.mem_cons_of_mem a h)]
            have hba : b ≠ a := by
              rintro rfl
              exact hb List.mem_cons_self
            exact Function.update_of_ne hba ..
          · rcases List.mem_cons.mp hb with rfl | hb
            · exact ⟨p, hp, (hout b ha).trans (Function.update_self ..)⟩
            · obtain ⟨q, hq, hq'⟩ := hin b hb
              have hba : b ≠ a := fun hba => ha (hba ▸ hb)
              exact ⟨q, (Function.update_of_ne hba ..).symm.trans hq, hq'⟩

/-- The pairs after a `will` of this key. -/
def Willed (s : Subject K O V) (key : K) (pairs : Pairs O V) : Prop :=
  (∀ b, b ∉ s.orders key → pairs b = s.pairs b) ∧
    ∀ b ∈ s.orders key, ∃ p, s.pairs b = some p ∧ pairs b = some (p.willChange (s.value key))

omit [DecidableEq O] in
theorem Willed.grow {s : Subject K O V} {key : K} {pairs : Pairs O V} (h : s.Willed key pairs) :
    Grow s.pairs pairs := by
  refine ⟨fun a ha => ?_, fun a p hp => ?_⟩
  · by_cases hin : a ∈ s.orders key
    · obtain ⟨q, hq, -⟩ := h.2 a hin
      cases ha.symm.trans hq
    · exact (h.1 a hin).trans ha
  · by_cases hin : a ∈ s.orders key
    · obtain ⟨q, hq, hq'⟩ := h.2 a hin
      cases hp.symm.trans hq
      exact ⟨_, hq', p.succeeds_willChange _⟩
    · exact ⟨p, (h.1 a hin).trans hp, .refl p⟩

omit [DecidableEq O] in
theorem orders_of_isEmpty {s : Subject K O V} (h : s.observersInfo.entries.isEmpty = true)
    (key : K) : s.orders key = [] := by
  have hnone : s.observersInfo.lookup key = none := by
    rw [AList.lookup_eq_none, AList.mem_keys, AList.keys, List.isEmpty_iff.mp h]
    exact List.not_mem_nil
  rw [orders, ordersOf, hnone]

omit [DecidableEq O] in
theorem willChange_ends {s : Subject K O V} (h : Ordered s.orders s.pairs s.stack) (key : K)
    {kind : Kind} (hkind : kind ≠ Kind.invalid) :
    Ends anyFault (s.willChange key kind) fun s' =>
      ∃ pairs, s' = { s with pairs } ∧ s.Willed key pairs := by
  rw [willChange]
  split
  next hempty =>
    refine ⟨s.pairs, rfl, fun _ _ => rfl, fun b hb => ?_⟩
    rw [orders_of_isEmpty hempty] at hb
    cases hb
  next =>
    refine (getObservers_ends h.live key hkind).bind fun observers hobservers => ?_
    subst hobservers
    exact willChangeLoop_ends key _ (h.nodup key)

variable (keyPaths : K → List K)

/-- The round `_didChangeValueForKey` sets out on. -/
def entered (s : Subject K O V) (key : K) (kind : Kind) (doCall : Bool) : Round K :=
  ⟨key, kind, doCall, none, s.orders key, keyPaths key⟩

omit [DecidableEq O] in
theorem enterDidChange_ends {s : Subject K O V} (h : Ordered s.orders s.pairs s.stack) (key : K)
    {kind : Kind} (hkind : kind ≠ Kind.invalid) (doCall : Bool) :
    Ends anyFault (s.enterDidChange keyPaths key kind doCall) fun s' =>
      s.observersInfo.entries.isEmpty = true ∧ s' = s ∨
        s' = { s with stack := .round (s.entered keyPaths key kind doCall) :: s.stack } := by
  rw [enterDidChange]
  split
  next hempty => exact .inl ⟨hempty, rfl⟩
  next =>
    refine (getObservers_ends h.live key hkind).bind fun observers hobservers => ?_
    subst hobservers
    exact .inr rfl

section turns
variable [BEq V]

/-- The state once the turn of this pair has begun. -/
def afterTurn (s : Subject K O V) (r : Round K) (address : Nat) (observers : List Nat)
    (rest : List (Frame K)) (pair : KVOPair O V) : Subject K O V :=
  let turn := pair.didChange (s.value r.key) r.kind r.doCall
  let s := s.setPair address turn.1
  let frame := Frame.round { r with current := some address, observers }
  if turn.2 then
    { s with
      stack := .callback :: frame :: rest
      log := .notified turn.1.observer r.key turn.1.context turn.1.change :: s.log }
  else { s with stack := frame :: rest }

omit [DecidableEq K] [DecidableEq O] in
theorem beginTurn_ends (s : Subject K O V) (r : Round K) (address : Nat) (observers : List Nat)
    (rest : List (Frame K)) :
    Ends anyFault (s.beginTurn r address observers rest) fun s' =>
      ∃ p, s.pairs address = some p ∧ s' = s.afterTurn r address observers rest p := by
  rw [beginTurn, pairAt]
  cases hp : s.pairs address with
  | none => trivial
  | some p =>
      have hafter : ∀ pair call, p.didChange (s.value r.key) r.kind r.doCall = (pair, call) →
          s.afterTurn r address observers rest p = if call then
            { s.setPair address pair with
              stack := .callback :: .round { r with current := some address, observers } :: rest
              log := .notified pair.observer r.key pair.context pair.change :: s.log }
          else { s.setPair address pair with
            stack := .round { r with current := some address, observers } :: rest } := by
        intro pair call hturn
        unfold afterTurn
        rw [hturn]
        rfl
      rw [ok_bind]
      cases hturn : p.didChange (s.value r.key) r.kind r.doCall with
      | mk pair call =>
          refine (Ends.any _).bind fun _ _ => ?_
          cases call with
          | true => exact ⟨p, rfl, (hafter pair true hturn).symm⟩
          | false => exact ⟨p, rfl, (hafter pair false hturn).symm⟩

omit [BEq V] [DecidableEq K] [DecidableEq O] in
theorem endTurn_ends (s : Subject K O V) (r : Round K) (address : Nat) (rest : List (Frame K)) :
    Ends anyFault (s.endTurn r address rest) fun s' => ∃ p, s.pairs address = some p ∧
      s' = { s.setPair address p.didChangeDone with
        stack := .round { r with current := none } :: rest } := by
  rw [endTurn, pairAt]
  cases hp : s.pairs address with
  | none => trivial
  | some p => exact ⟨p, rfl, rfl⟩

end turns

/-- The pairs after the `will` half of a dependent key. -/
def KeyPathWilled (s : Subject K O V) (kind : Kind) (keyPath : K) (pairs : Pairs O V) : Prop :=
  kind = Kind.initialise ∧ s.Willed keyPath pairs ∨ kind ≠ Kind.initialise ∧ pairs = s.pairs

omit [DecidableEq O] in
theorem KeyPathWilled.grow {s : Subject K O V} {kind : Kind} {keyPath : K} {pairs : Pairs O V}
    (h : s.KeyPathWilled kind keyPath pairs) : Grow s.pairs pairs := by
  rcases h with ⟨-, hwilled⟩ | ⟨-, rfl⟩
  · exact hwilled.grow
  · exact .refl _

omit [DecidableEq O] in
/-- A dependent key: a `will` in a registration round, then a round of its own. -/
theorem keyPath_ends {s : Subject K O V} (h : Ordered s.orders s.pairs s.stack) (keyPath : K)
    {kind : Kind} (hkind : kind ≠ Kind.invalid) :
    Ends anyFault (s.keyPathWill kind keyPath >>= fun s =>
        s.enterDidChange keyPaths keyPath kind true) fun s' =>
      ∃ pairs, s.KeyPathWilled kind keyPath pairs ∧
        (s.observersInfo.entries.isEmpty = true ∧ s' = { s with pairs } ∨
          s' = { s with
            pairs, stack := .round (s.entered keyPaths keyPath kind true) :: s.stack }) := by
  rw [keyPathWill]
  split
  next hinit =>
    refine (willChange_ends h keyPath hkind).bind fun s₁ ⟨pairs, hs₁, hwilled⟩ => ?_
    subst hs₁
    refine (enterDidChange_ends keyPaths (s := { s with pairs }) (h.grow hwilled.grow) keyPath
      hkind true).mono fun s' hs' => ?_
    exact ⟨pairs, .inl ⟨hinit, hwilled⟩, hs'⟩
  next hinit =>
    exact (enterDidChange_ends keyPaths h keyPath hkind true).mono fun s' hs' =>
      ⟨s.pairs, .inr ⟨hinit, rfl⟩, hs'⟩

section turns
variable [BEq V]

omit [DecidableEq K] [DecidableEq O] in
theorem afterTurn_of_call {s : Subject K O V} {r : Round K} {address : Nat} {p : KVOPair O V}
    (observers : List Nat) (rest : List (Frame K))
    (hcall : (p.didChange (s.value r.key) r.kind r.doCall).2 = true) :
    s.afterTurn r address observers rest p =
      { s.setPair address (p.didChange (s.value r.key) r.kind r.doCall).1 with
        stack := .callback :: .round { r with current := some address, observers } :: rest
        log := .notified (p.didChange (s.value r.key) r.kind r.doCall).1.observer r.key
          (p.didChange (s.value r.key) r.kind r.doCall).1.context
          (p.didChange (s.value r.key) r.kind r.doCall).1.change :: s.log } := if_pos hcall

omit [DecidableEq K] [DecidableEq O] in
theorem afterTurn_of_silent {s : Subject K O V} {r : Round K} {address : Nat} {p : KVOPair O V}
    (observers : List Nat) (rest : List (Frame K))
    (hcall : (p.didChange (s.value r.key) r.kind r.doCall).2 = false) :
    s.afterTurn r address observers rest p =
      { s.setPair address (p.didChange (s.value r.key) r.kind r.doCall).1 with
        stack := .round { r with current := some address, observers } :: rest } :=
  if_neg fun h => absurd (hcall.symm.trans h) (by decide)

omit [DecidableEq K] [DecidableEq O] in
theorem afterTurn_stack (s : Subject K O V) (r : Round K) (address : Nat) (observers : List Nat)
    (rest : List (Frame K)) (p : KVOPair O V) :
    (s.afterTurn r address observers rest p).stack
        = .round { r with current := some address, observers } :: rest ∨
      (s.afterTurn r address observers rest p).stack
        = .callback :: .round { r with current := some address, observers } :: rest := by
  cases hcall : (p.didChange (s.value r.key) r.kind r.doCall).2 with
  | true =>
      rw [afterTurn_of_call observers rest hcall]
      exact .inr rfl
  | false =>
      rw [afterTurn_of_silent observers rest hcall]
      exact .inl rfl

omit [DecidableEq K] [DecidableEq O] in
theorem afterTurn_pairs (s : Subject K O V) (r : Round K) (address : Nat) (observers : List Nat)
    (rest : List (Frame K)) (p : KVOPair O V) :
    (s.afterTurn r address observers rest p).pairs
      = Function.update s.pairs address (some (p.didChange (s.value r.key) r.kind r.doCall).1) := by
  cases hcall : (p.didChange (s.value r.key) r.kind r.doCall).2 with
  | true => rw [afterTurn_of_call observers rest hcall]; rfl
  | false => rw [afterTurn_of_silent observers rest hcall]; rfl

omit [DecidableEq O] in
theorem afterTurn_orders (s : Subject K O V) (r : Round K) (address : Nat) (observers : List Nat)
    (rest : List (Frame K)) (p : KVOPair O V) :
    (s.afterTurn r address observers rest p).orders = s.orders := by
  cases hcall : (p.didChange (s.value r.key) r.kind r.doCall).2 with
  | true => rw [afterTurn_of_call observers rest hcall]; rfl
  | false => rw [afterTurn_of_silent observers rest hcall]; rfl

omit [DecidableEq O] in
/-- What holds with the pair's new state, and outlives the start of the callback, holds
after the turn. -/
theorem afterTurn_holds (P : (K → List Nat) → Pairs O V → List (Frame K) → Prop)
    {s : Subject K O V} {r : Round K} {address : Nat} {observers : List Nat}
    {rest : List (Frame K)} {p : KVOPair O V}
    (h : P s.orders (Function.update s.pairs address
        (some (p.didChange (s.value r.key) r.kind r.doCall).1))
      (.round { r with current := some address, observers } :: rest))
    (hcallback : P s.orders (Function.update s.pairs address
        (some (p.didChange (s.value r.key) r.kind r.doCall).1))
      (.callback :: .round { r with current := some address, observers } :: rest)) :
    P (s.afterTurn r address observers rest p).orders
      (s.afterTurn r address observers rest p).pairs
      (s.afterTurn r address observers rest p).stack := by
  rw [afterTurn_orders, afterTurn_pairs]
  rcases s.afterTurn_stack r address observers rest p with hstack | hstack
  · rw [hstack]
    exact h
  · rw [hstack]
    exact hcallback

omit [DecidableEq O] in
theorem advanceRound_of_current {s : Subject K O V} {r : Round K} {address : Nat}
    (hcurrent : r.current = some address) (rest : List (Frame K)) :
    s.advanceRound keyPaths r rest = s.endTurn r address rest := by
  rw [advanceRound, hcurrent]

end turns

/-- What the innermost round does next: it ends a turn, begins one, starts a round of a
dependent key, or is over. -/
inductive Advanced [BEq V] (s : Subject K O V) (r : Round K) (rest : List (Frame K))
    (s' : Subject K O V) : Prop where
  | endTurn (address : Nat) (p : KVOPair O V) : r.current = some address →
      s.pairs address = some p → s' = { s.setPair address p.didChangeDone with
        stack := .round { r with current := none } :: rest } → Advanced s r rest s'
  | beginTurn (address : Nat) (observers : List Nat) (p : KVOPair O V) : r.current = none →
      r.observers = address :: observers → s.pairs address = some p →
      s' = s.afterTurn r address observers rest p → Advanced s r rest s'
  | keyPath (keyPath : K) (more : List K) (pairs : Pairs O V) : r.current = none →
      r.observers = [] → r.keyPaths = keyPath :: more → s.KeyPathWilled r.kind keyPath pairs →
      (s.observersInfo.entries.isEmpty = true ∧
          s' = { s with pairs, stack := .round { r with keyPaths := more } :: rest } ∨
        s' = { s with
          pairs
          stack := .round (s.entered keyPaths keyPath r.kind true) ::
            .round { r with keyPaths := more } :: rest }) → Advanced s r rest s'
  | finish : r.observers = [] → r.keyPaths = [] → s' = { s with stack := rest } →
      Advanced s r rest s'

omit [DecidableEq O] in
theorem advanceRound_ends [BEq V] {s : Subject K O V} {r : Round K} {rest : List (Frame K)}
    (h : Ordered s.orders s.pairs (.round r :: rest)) :
    Ends anyFault (s.advanceRound keyPaths r rest) (s.Advanced keyPaths r rest) := by
  obtain ⟨hkind, -⟩ := h.rounds r List.mem_cons_self
  rw [advanceRound]
  split
  next a hcurrent =>
    exact (s.endTurn_ends r a rest).mono fun s' ⟨p, hp, hs'⟩ => .endTurn a p hcurrent hp hs'
  next a observers hcurrent hobservers =>
    exact (s.beginTurn_ends r a observers rest).mono fun s' ⟨p, hp, hs'⟩ =>
      .beginTurn a observers p hcurrent hobservers hp hs'
  next keyPath more hcurrent hobservers hmore =>
    have hnext : Ordered s.orders s.pairs (.round { r with keyPaths := more } :: rest) :=
      h.proceed rfl rfl (List.Subset.refl _)
    exact (keyPath_ends keyPaths (s := { s with stack := .round { r with keyPaths := more } :: rest })
      hnext keyPath hkind).mono fun s' ⟨pairs, hpairs, hs'⟩ =>
        .keyPath keyPath more pairs hcurrent hobservers hmore hpairs hs'
  next _ hobservers hnil => exact .finish hobservers hnil rfl

/-- What withdrawing somebody from this key leaves of the state. -/
structure Removed (s s' : Subject K O V) (key : K) : Prop where
  value : s'.value = s.value
  stack : s'.stack = s.stack
  log : s'.log = s.log
  elsewhere : ∀ k, k ≠ key → s'.orders k = s.orders k
  sublist : (s'.orders key).Sublist (s.orders key)
  outside : ∀ a, a ∉ s.orders key → s'.pairs a = s.pairs a
  inside : ∀ a ∈ s'.orders key, s'.pairs a = s.pairs a

omit [DecidableEq O] in
theorem Removed.refl (s : Subject K O V) (key : K) : s.Removed s key :=
  ⟨rfl, rfl, rfl, fun _ _ => rfl, .refl _, fun _ _ => rfl, fun _ _ => rfl⟩

omit [DecidableEq O] in
/-- Whoever is left in an order was in it before, and is what it was. -/
theorem Removed.old {s s' : Subject K O V} {key : K} (h : s.Removed s' key)
    (hs : Ordered s.orders s.pairs s.stack) {b : Nat} {k : K} (hk : b ∈ s'.orders k) :
    b ∈ s.orders k ∧ s'.pairs b = s.pairs b := by
  by_cases hkey : k = key
  · subst hkey
    exact ⟨h.sublist.subset hk, h.inside b hk⟩
  · rw [h.elsewhere k hkey] at hk
    exact ⟨hk, h.outside b fun hin => hkey (hs.disjoint k key b hk hin)⟩

theorem removeObserver_removed {s : Subject K O V} (h : Ordered s.orders s.pairs s.stack)
    (observer : O) (key : K) :
    Ends anyFault (s.removeObserver observer key) fun s' =>
      Ordered s'.orders s'.pairs s'.stack ∧ s.Removed s' key := by
  refine (s.removeObserver_ends h.nodup observer key).mono fun s' hs' => ?_
  rcases hs' with rfl | ⟨a, p, info, ha, hp, rfl, horders⟩
  · exact ⟨h, .refl _ key⟩
  · have hself : ordersOf info key = (s.orders key).erase a := by
      rw [horders, Function.update_self]
    refine ⟨?_, rfl, rfl, rfl, fun k hk => ?_, ?_, fun b hb => ?_, fun b hb => ?_⟩
    · show Ordered (ordersOf info) _ _
      rw [horders]
      exact h.withdraw ha hp
    · show ordersOf info k = _
      rw [horders, Function.update_of_ne hk]
    · show (ordersOf info key).Sublist _
      rw [hself]
      exact List.erase_sublist
    · refine Function.update_of_ne (fun hba => ?_) ..
      subst hba
      exact hb ha
    · refine Function.update_of_ne (fun hba => ?_) ..
      subst hba
      have hb' : b ∈ ordersOf info key := hb
      rw [hself] at hb'
      exact ((h.nodup key).mem_erase_iff.mp hb').1 rfl

/-- The same from `addObserver`, which may have made an empty entry first. -/
theorem findOrInsert_removed {s : Subject K O V} (h : Ordered s.orders s.pairs s.stack)
    (observer : O) (key : K) :
    Ends anyFault ((s.findOrInsert key).removeObserver observer key) fun s' =>
      Ordered s'.orders s'.pairs s'.stack ∧ s.Removed s' key := by
  obtain ⟨info, hinfo, horders⟩ := s.findOrInsert_orders key
  rw [hinfo]
  have h₀ : Ordered ({ s with observersInfo := info } : Subject K O V).orders s.pairs s.stack := by
    show Ordered (ordersOf info) _ _
    rw [horders]
    exact h
  refine (removeObserver_removed h₀ observer key).mono fun s' ⟨hs', hremoved⟩ => ⟨hs', ?_⟩
  have heq : ({ s with observersInfo := info } : Subject K O V).orders = s.orders := horders
  refine ⟨hremoved.value, hremoved.stack, hremoved.log, ?_, ?_, ?_, hremoved.inside⟩
  · exact heq ▸ hremoved.elsewhere
  · exact heq ▸ hremoved.sublist
  · exact heq ▸ hremoved.outside

/-- What registering this pair leaves: `s₀` without the observer, then `s₁` with the pair. -/
structure Registered (s s₀ s₁ : Subject K O V) (key : K) (address : Nat) (pair : KVOPair O V) :
    Prop where
  removed : s.Removed s₀ key
  ordered : Ordered s₁.orders s₁.pairs s₁.stack
  value : s₁.value = s.value
  stack : s₁.stack = s.stack
  log : s₁.log = s.log
  orders : s₁.orders = Function.update s₀.orders key (s₀.orders key ++ [address])
  pairs : s₁.pairs = Function.update s₀.pairs address (some pair)

namespace Registered

variable {s s₀ s₁ : Subject K O V} {key : K} {address : Nat} {pair : KVOPair O V}

omit [DecidableEq O]

theorem mem (h : s.Registered s₀ s₁ key address pair) : address ∈ s₁.orders key := by
  rw [h.orders, Function.update_self]
  exact List.mem_append_right _ (List.mem_singleton_self address)

theorem elsewhere (h : s.Registered s₀ s₁ key address pair) {k : K} (hk : k ≠ key) :
    s₁.orders k = s.orders k := by
  rw [h.orders, Function.update_of_ne hk, h.removed.elsewhere k hk]

/-- Whoever is in an order, but the new pair, was in it before, and is what it was. -/
theorem old (h : s.Registered s₀ s₁ key address pair) (hs : Ordered s.orders s.pairs s.stack)
    {b : Nat} (hb : b ≠ address) {k : K} (hk : b ∈ s₁.orders k) :
    b ∈ s.orders k ∧ s₁.pairs b = s.pairs b := by
  have hk₀ : b ∈ s₀.orders k := by
    rw [h.orders] at hk
    exact (mem_update_append.mp hk).resolve_right fun hnew => hb hnew.1
  rw [h.pairs, Function.update_of_ne hb]
  exact h.removed.old hs hk₀

end Registered

theorem register_ordered {s : Subject K O V} (h : Ordered s.orders s.pairs s.stack) (observer : O)
    (key : K) (notifyKind : BitVec 64) (context : Any V) {address : Nat}
    (hfresh : s.pairs address = none) :
    Ends anyFault (s.register observer key notifyKind context address) fun s₁ =>
      ∃ s₀, (s.findOrInsert key).removeObserver observer key = .ok s₀ ∧
        s.Registered s₀ s₁ key address
          ((KVOPair.make observer (Kind.ofInteger notifyKind) context).setEnabled true) := by
  refine (s.register_ends observer key notifyKind context address).mono fun s' hs' => ?_
  obtain ⟨s₀, info, hremove, rfl, horders⟩ := hs'
  obtain ⟨hs₀, hremoved⟩ := (findOrInsert_removed h observer key).of_ok hremove
  have hfresh₀ : s₀.pairs address = none := by
    refine (hremoved.outside address fun hin => ?_).trans hfresh
    obtain ⟨p, hp, -⟩ := h.live key address hin
    cases hfresh.symm.trans hp
  refine ⟨s₀, hremove, hremoved, ?_, hremoved.value, hremoved.stack, hremoved.log, horders, rfl⟩
  show Ordered (ordersOf info) _ _
  rw [horders]
  exact hs₀.add hfresh₀ rfl fun _ => rfl

/-- `addObserver` registers a pair, fills the old values, and starts the first round. -/
theorem addObserver_ends {s : Subject K O V} (h : Ordered s.orders s.pairs s.stack) (observer : O)
    (key : K) (notifyKind : BitVec 64) (context : Any V) {address : Nat}
    (hfresh : s.pairs address = none) :
    Ends anyFault (s.addObserver keyPaths observer key notifyKind context address) fun s' =>
      ∃ s₀ s₁ pairs, (s.findOrInsert key).removeObserver observer key = .ok s₀ ∧
        s.Registered s₀ s₁ key address
          ((KVOPair.make observer (Kind.ofInteger notifyKind) context).setEnabled true) ∧
        s₁.Willed key pairs ∧ s' = { s₁ with
          log := .added observer key notifyKind context :: s₁.log
          pairs := pairs
          stack := .round (s₁.entered keyPaths key Kind.initialise
            ((notifyKind &&& 0x4) == 0x4)) :: s₁.stack } := by
  refine (register_ordered h observer key notifyKind context hfresh).bind
    fun s₁ ⟨s₀, hremove, hreg⟩ => ?_
  refine (willChange_ends (s := { s₁ with
    log := .added observer key notifyKind context :: s₁.log }) hreg.ordered key
    Kind.initialise_valid).bind fun s₂ ⟨pairs, hs₂, hwilled⟩ => ?_
  subst hs₂
  have h₂ : Ordered s₁.orders pairs s₁.stack := hreg.ordered.grow hwilled.grow
  refine (enterDidChange_ends keyPaths (s := { s₁ with
    log := .added observer key notifyKind context :: s₁.log, pairs }) h₂ key
    Kind.initialise_valid _).mono fun s' hs' => ?_
  rcases hs' with ⟨hempty, -⟩ | rfl
  · have hnil : s₁.orders key = [] := orders_of_isEmpty hempty key
    have hmem := hreg.mem
    rw [hnil] at hmem
    cases hmem
  · exact ⟨s₀, s₁, pairs, hremove, hreg, hwilled, rfl⟩

end Subject

/-! ## Steps -/

section steps

variable [DecidableEq K] [DecidableEq O]

omit [DecidableEq K] [DecidableEq O] in
/-- What returns is a callback. -/
theorem stack_of_returns {s : Subject K O V} (hen : enabled s .returns) :
    ∃ rest, s.stack = .callback :: rest := by
  obtain ⟨hclient, hne⟩ := hen
  obtain ⟨frame, rest, hstack⟩ := List.exists_cons_of_ne_nil hne
  cases frame with
  | callback => exact ⟨rest, hstack⟩
  | round r =>
      rw [Subject.clientRuns, hstack] at hclient
      cases hclient

omit [DecidableEq O] in
/-- A round that is entered lists the order of its key. -/
theorem Ordered.enter {s s' : Subject K O V} {keyPaths : K → List K} {key : K} {kind : Kind}
    {doCall : Bool} (h : Ordered s.orders s.pairs s.stack) (hkind : kind ≠ Kind.invalid)
    (hs' : s.observersInfo.entries.isEmpty = true ∧ s' = s ∨
      s' = { s with stack := .round (s.entered keyPaths key kind doCall) :: s.stack }) :
    Ordered s'.orders s'.pairs s'.stack := by
  rcases hs' with ⟨-, rfl⟩ | rfl
  · exact h
  · exact h.push hkind rfl rfl

variable [BEq V] {keyPaths : K → List K} {s : Subject K O V}

omit [DecidableEq O] in
theorem advance_ordered (h : Ordered s.orders s.pairs s.stack) :
    Ends anyFault (s.advance keyPaths) fun s' => Ordered s'.orders s'.pairs s'.stack := by
  rw [Subject.advance]
  split
  next r rest hstack =>
    rw [hstack] at h
    obtain ⟨hkind, -⟩ := h.rounds r List.mem_cons_self
    refine (Subject.advanceRound_ends keyPaths h).mono fun s' hadvanced => ?_
    cases hadvanced with
    | endTurn a p hcurrent hp hs' =>
        subst hs'
        exact (h.grow (.update hp p.succeeds_didChangeDone)).proceed rfl rfl
          (List.subset_append_right _ _)
    | beginTurn a observers p hcurrent hobservers hp hs' =>
        subst hs'
        have hturn := p.succeeds_didChange (s.value r.key) r.kind r.doCall
        have hlist : r.pending = a :: observers := by
          rw [Round.pending, hcurrent, hobservers]
          rfl
        have hnext : Ordered s.orders (Function.update s.pairs a
            (some (p.didChange (s.value r.key) r.kind r.doCall).1))
            (.round { r with current := some a, observers } :: rest) :=
          (h.grow (.update hp hturn)).proceed rfl rfl (hlist ▸ List.Subset.refl _)
        exact Subject.afterTurn_holds Ordered hnext hnext.callback
    | keyPath keyPath more pairs _ _ _ hwilled hs' =>
        have hnext : Ordered s.orders s.pairs (.round { r with keyPaths := more } :: rest) :=
          h.proceed rfl rfl (List.Subset.refl _)
        exact Ordered.enter (s := { s with
          pairs, stack := .round { r with keyPaths := more } :: rest }) (hnext.grow hwilled.grow)
          hkind hs'
    | finish _ _ hs' =>
        subst hs'
        exact h.tail
  next => exact h

/-- Every step keeps the orders right. -/
theorem step_ordered (h : Ordered s.orders s.pairs s.stack) {a : Action K O V}
    (hen : enabled s a) :
    Ends anyFault (step keyPaths s a) fun s' => Ordered s'.orders s'.pairs s'.stack := by
  cases a with
  | addObserver o k n context address =>
      refine (Subject.addObserver_ends keyPaths h o k n context hen.2.1).mono fun s' hs' => ?_
      obtain ⟨s₀, s₁, pairs, -, hreg, hwilled, rfl⟩ := hs'
      exact (hreg.ordered.grow hwilled.grow).push Kind.initialise_valid rfl rfl
  | removeObserver o k =>
      exact (Subject.removeObserver_removed h o k).bind fun s' ⟨hs', _⟩ => hs'
  | willChangeValueForKey k =>
      refine (Subject.willChange_ends h k Kind.new_valid).mono fun s' hs' => ?_
      obtain ⟨pairs, rfl, hwilled⟩ := hs'
      exact h.grow hwilled.grow
  | didChangeValueForKey k =>
      exact (Subject.enterDidChange_ends keyPaths h k Kind.new_valid true).mono
        fun s' hs' => h.enter Kind.new_valid hs'
  | setValue k value => exact h
  | returns => exact h.tail
  | advance => exact advance_ordered h

omit [DecidableEq O] [BEq V] in
theorem ordered_start (hs : s = Subject.init) : Ordered s.orders s.pairs s.stack := by
  subst hs
  have hnone : ∀ k a, a ∉ (Subject.init : Subject K O V).orders k := fun _ _ ha => nomatch ha
  exact ⟨fun _ => List.nodup_nil, fun k a ha => absurd ha (hnone k a),
    fun k _ a ha => absurd ha (hnone k a), fun _ _ hp => (nomatch hp), fun _ hr => (nomatch hr)⟩

/-- The orders are right after every run. -/
theorem ordered_of_reachable (h : (machine keyPaths).Reachable s) :
    Ordered s.orders s.pairs s.stack :=
  h.invariant (I := fun s => Ordered s.orders s.pairs s.stack) (ordered_start rfl)
    fun _ _ _ hs hen hstep =>
      Ends.of_ok (P := fun s => Ordered s.orders s.pairs s.stack) hstep (step_ordered hs hen)

end steps

/-- One observer of new values, and a value it has not heard of. -/
def oneObserver (value : Any Nat) : List (Action String Nat Nat) :=
  .addObserver 1 "k" 1 none 10 :: List.replicate 3 .advance ++ [.setValue "k" value]

end KeyValueObserverInterface

end Rx
