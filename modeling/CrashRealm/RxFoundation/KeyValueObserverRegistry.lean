/-
# `RxFoundation.KeyValueObserverRegistry` — the registry as a partial map

What the registry is for: it maps an observer and a key to the kind and the
context of the last registration that was not withdrawn (`Registrations`).
`Registry` says when the per-key orders of pairs stand for such a map: each pair
in an order is enabled and carries what the map says of its observer, no
observer has two, no pair is in two orders, and nothing the map has is missing.

On that level adding and withdrawing are updates of the map (`Registry.add`,
`Registry.withdraw`), and changes to a pair that leave its observer, context,
kind and enabled flag alone are not visible (`Registry.congr`).  The functions
of the code follow in exactly the cases the ordered set does: `removeObserver`
when the observer is not registered for the key or stands last in its order, and
`register` when moreover the order does not become empty in between.
-/
import CrashRealm.RxFoundation.KeyValueObserver
import CrashRealm.RxFoundation.OrderedSetSpec
import Mathlib.Order.Interval.Finset.Nat

namespace Rx

namespace KeyValueObserverInterface

variable {K O V : Type}

/-- What is registered: per observer and key, the kind and the context asked for. -/
abbrev Registrations (K O V : Type) := O × K → Option (BitVec 64 × Any V)

/-- The pairs at their addresses. -/
abbrev Pairs (O V : Type) := Nat → Option (KVOPair O V)

/-- What the registry depends on in a pair. -/
def KVOPair.face (pair : KVOPair O V) : O × Any V × Kind × Bool :=
  (pair.observer, pair.context, pair.notifyKind, pair.enabled)

def SameFaces (pairs pairs' : Pairs O V) : Prop :=
  ∀ a, (pairs a).map KVOPair.face = (pairs' a).map KVOPair.face

theorem SameFaces.refl (pairs : Pairs O V) : SameFaces pairs pairs := fun _ => rfl

theorem SameFaces.trans {pairs₁ pairs₂ pairs₃ : Pairs O V} (h₁ : SameFaces pairs₁ pairs₂)
    (h₂ : SameFaces pairs₂ pairs₃) : SameFaces pairs₁ pairs₃ := fun a => (h₁ a).trans (h₂ a)

theorem SameFaces.symm {pairs pairs' : Pairs O V} (h : SameFaces pairs pairs') :
    SameFaces pairs' pairs := fun a => (h a).symm

theorem SameFaces.update {pairs : Pairs O V} {a : Nat} {p p' : KVOPair O V}
    (hp : pairs a = some p) (hface : p'.face = p.face) :
    SameFaces pairs (Function.update pairs a (some p')) := by
  intro b
  by_cases hb : b = a
  · rw [hb, Function.update_self, hp, Option.map_some, Option.map_some, hface]
  · rw [Function.update_of_ne hb]

/-- A pair seen on one side is seen on the other, with the same face. -/
theorem SameFaces.exists {pairs pairs' : Pairs O V} (h : SameFaces pairs pairs') {a : Nat}
    {p : KVOPair O V} (hp : pairs a = some p) : ∃ p', pairs' a = some p' ∧ p'.face = p.face := by
  have hface := h a
  rw [hp, Option.map_some] at hface
  obtain ⟨p', hp', heq⟩ := Option.map_eq_some_iff.mp hface.symm
  exact ⟨p', hp', heq⟩

theorem KVOPair.face_eq_iff {p q : KVOPair O V} : p.face = q.face ↔ p.observer = q.observer ∧
    p.context = q.context ∧ p.notifyKind = q.notifyKind ∧ p.enabled = q.enabled := by
  simp only [KVOPair.face, Prod.mk.injEq]

/-! ## What `will` and `did` make of a pair -/

namespace KVOPair

/-- The kind asks for this bit. -/
def asksFor (pair : KVOPair O V) (bit : Kind) : Bool := (pair.notifyKind &&& bit) != 0

/-- What the loop of `_willChangeValueForKey` does to a pair. -/
def willChange (pair : KVOPair O V) (value : Any V) : KVOPair O V :=
  let pair := pair.setKVOCallState .willChange
  if pair.asksFor Kind.old then { pair with change := { pair.change with oldValue := value } }
  else pair

theorem willChange_eq (pair : KVOPair O V) (value : Any V) :
    pair.willChange value = { pair with
      callState := .willChange
      change := { pair.change with
        oldValue := if pair.asksFor Kind.old then value else pair.change.oldValue } } := by
  have hsame : (pair.setKVOCallState .willChange).asksFor Kind.old = pair.asksFor Kind.old := rfl
  rw [willChange]
  dsimp only
  rw [hsame]
  split <;> rfl

/-- The next `did` is the first round it asked for. -/
def first (pair : KVOPair O V) : Bool := pair.asksFor Kind.initialise && !pair.initialized

/-- The new value a `did` leaves in the change record. -/
def filled (pair : KVOPair O V) (value : Any V) : Any V :=
  if pair.asksFor Kind.new || !pair.initialized then value else pair.change.newValue

theorem fillNewValue_eq (pair : KVOPair O V) (value : Any V) :
    pair.fillNewValue value =
      { pair with change := { pair.change with newValue := pair.filled value } } := by
  rw [fillNewValue, filled, asksFor]
  split <;> rfl

/-- The pair after the first half of its turn, and whether its observer is called. -/
theorem didChange_eq [BEq V] (pair : KVOPair O V) (value : Any V) (kind : Kind) (doCall : Bool) :
    pair.didChange value kind doCall =
      ({ pair with
          change := ⟨if pair.first then Kind.initialise else kind, pair.change.oldValue,
            pair.filled value⟩
          callState := .didChange
          initialized := pair.first || pair.initialized },
        (pair.first || pair.filled value != pair.change.oldValue) && doCall && pair.enabled) := by
  rw [didChange, fillNewValue_eq]
  cases hfirst : pair.first with
  | true => exact if_pos hfirst
  | false => exact if_neg fun h => absurd (hfirst.symm.trans h) (by decide)

end KVOPair

/-! ## Orders -/

section orders

variable [DecidableEq K] {orders : K → List Nat} {k : K} {a : Nat}

/-- Whoever is still in an order after `a` has left `k`'s is not `a`, and was in it before. -/
theorem mem_update_withdraw (hdisjoint : ∀ k k' a, a ∈ orders k → a ∈ orders k' → k = k')
    (ha : a ∈ orders k) {order : List Nat} (horder : ∀ b ∈ order, b ≠ a ∧ b ∈ orders k) {k' : K}
    {b : Nat} (hb : b ∈ Function.update orders k order k') : b ≠ a ∧ b ∈ orders k' := by
  by_cases hk : k' = k
  · subst hk
    rw [Function.update_self] at hb
    exact horder b hb
  · rw [Function.update_of_ne hk] at hb
    exact ⟨fun hba => hk (hdisjoint k' k a (hba ▸ hb) ha), hb⟩

theorem mem_update_append {k' : K} {b : Nat} :
    b ∈ Function.update orders k (orders k ++ [a]) k' ↔ b ∈ orders k' ∨ b = a ∧ k' = k := by
  by_cases hk : k' = k
  · subst hk
    rw [Function.update_self, List.mem_append, List.mem_singleton]
    simp only [and_true]
  · rw [Function.update_of_ne hk]
    simp only [hk, and_false, or_false]

/-- The orders stay disjoint when one of them gets a new member. -/
theorem disjoint_update_append (hdisjoint : ∀ k k' a, a ∈ orders k → a ∈ orders k' → k = k')
    (hnew : ∀ k' b, b ∈ orders k' → b ≠ a) {k₁ k₂ : K} {b : Nat}
    (hb₁ : b ∈ Function.update orders k (orders k ++ [a]) k₁)
    (hb₂ : b ∈ Function.update orders k (orders k ++ [a]) k₂) : k₁ = k₂ := by
  obtain hin₁ | ⟨hba, rfl⟩ := mem_update_append.mp hb₁
  · obtain hin₂ | ⟨hba, -⟩ := mem_update_append.mp hb₂
    · exact hdisjoint k₁ k₂ b hin₁ hin₂
    · exact absurd hba (hnew k₁ b hin₁)
  · obtain hin₂ | ⟨-, rfl⟩ := mem_update_append.mp hb₂
    · exact absurd hba (hnew k₂ b hin₂)
    · rfl

end orders

/-! ## Orders that stand for registrations -/

/-- The orders of pairs stand for the registrations. -/
structure Registry (orders : K → List Nat) (pairs : Pairs O V) (last : Registrations K O V) :
    Prop where
  address : ∀ k, ∀ a ∈ orders k, 0 < a ∧ a < 2 ^ 64
  live : ∀ k, ∀ a ∈ orders k, ∃ p, pairs a = some p ∧ p.enabled = true ∧ p.notifyKind ≠ 0 ∧
    ∃ n, last (p.observer, k) = some (n, p.context) ∧ p.notifyKind = Kind.ofInteger n
  distinct : ∀ k a b p q, a ∈ orders k → b ∈ orders k → pairs a = some p → pairs b = some q →
    p.observer = q.observer → a = b
  disjoint : ∀ k k' a, a ∈ orders k → a ∈ orders k' → k = k'
  present : ∀ o k x, last (o, k) = some x → ∃ a ∈ orders k, ∃ p, pairs a = some p ∧ p.observer = o

namespace Registry

variable {orders : K → List Nat} {pairs : Pairs O V} {last : Registrations K O V}

theorem empty : Registry (fun _ => []) (fun _ => none) (fun _ => none : Registrations K O V) where
  address := fun _ _ ha => nomatch ha
  live := fun _ _ ha => nomatch ha
  distinct := fun _ _ _ _ _ ha => nomatch ha
  disjoint := fun _ _ _ ha => nomatch ha
  present := fun _ _ _ hx => nomatch hx

theorem congr (h : Registry orders pairs last) {pairs' : Pairs O V} (hsame : SameFaces pairs pairs') :
    Registry orders pairs' last where
  address := h.address
  live := by
    intro k a ha
    obtain ⟨p, hp, hen, hkind, n, hlast, hn⟩ := h.live k a ha
    obtain ⟨p', hp', hface⟩ := hsame.exists hp
    obtain ⟨hobs, hctx, hk, he⟩ := KVOPair.face_eq_iff.mp hface
    refine ⟨p', hp', by rw [he, hen], by rw [hk]; exact hkind, n, ?_, by rw [hk, hn]⟩
    rw [hobs, hctx, hlast]
  distinct := by
    intro k a b p q ha hb hp hq hobs
    obtain ⟨p', hp', hfp⟩ := hsame.symm.exists hp
    obtain ⟨q', hq', hfq⟩ := hsame.symm.exists hq
    refine h.distinct k a b p' q' ha hb hp' hq' ?_
    rw [(KVOPair.face_eq_iff.mp hfp).1, (KVOPair.face_eq_iff.mp hfq).1, hobs]
  disjoint := h.disjoint
  present := by
    intro o k x hx
    obtain ⟨a, ha, p, hp, hobs⟩ := h.present o k x hx
    obtain ⟨p', hp', hface⟩ := hsame.exists hp
    exact ⟨a, ha, p', hp', by rw [(KVOPair.face_eq_iff.mp hface).1, hobs]⟩

/-- Nobody in `k`'s order is `o`: nothing is registered. -/
theorem last_eq_none (h : Registry orders pairs last) {o : O} {k : K}
    (hno : ∀ a ∈ orders k, ∀ p, pairs a = some p → p.observer ≠ o) : last (o, k) = none := by
  cases hx : last (o, k) with
  | none => rfl
  | some x =>
      obtain ⟨a, ha, p, hp, hobs⟩ := h.present o k x hx
      exact absurd hobs (hno a ha p hp)

variable [DecidableEq K] [DecidableEq O]

/-- The pair of `o` leaves `k`'s order and is disabled. -/
theorem withdraw (h : Registry orders pairs last) {o : O} {k : K} {a : Nat} {p : KVOPair O V}
    (ha : a ∈ orders k) (hp : pairs a = some p) (hobs : p.observer = o) {order : List Nat}
    (horder : ∀ b, b ∈ order ↔ b ≠ a ∧ b ∈ orders k) :
    Registry (Function.update orders k order)
      (Function.update pairs a (some (p.setEnabled false)))
      (Function.update last (o, k) none) := by
  -- what is left of the orders, and that the pairs there are untouched
  have hmem : ∀ k' b, b ∈ Function.update orders k order k' → b ≠ a ∧ b ∈ orders k' :=
    fun _ _ => mem_update_withdraw h.disjoint ha fun b => (horder b).mp
  have hpair : ∀ {b}, b ≠ a →
      Function.update pairs a (some (p.setEnabled false)) b = pairs b :=
    fun hb => Function.update_of_ne hb ..
  refine ⟨fun k' b hb => h.address k' b (hmem k' b hb).2, ?_, ?_, ?_, ?_⟩
  · intro k' b hb
    obtain ⟨hba, hb'⟩ := hmem k' b hb
    obtain ⟨q, hq, hen, hkind, n, hlast, hn⟩ := h.live k' b hb'
    refine ⟨q, (hpair hba).trans hq, hen, hkind, n, ?_, hn⟩
    rw [Function.update_of_ne, hlast]
    rintro heq
    obtain ⟨hqo, hk⟩ := Prod.mk.inj heq
    subst hk
    exact hba (h.distinct k' b a q p hb' ha hq hp (hqo.trans hobs.symm))
  · intro k' b c q r hb hc hq hr hqr
    obtain ⟨hba, hb'⟩ := hmem k' b hb
    obtain ⟨hca, hc'⟩ := hmem k' c hc
    exact h.distinct k' b c q r hb' hc' ((hpair hba).symm.trans hq) ((hpair hca).symm.trans hr) hqr
  · exact fun k₁ k₂ b hb₁ hb₂ => h.disjoint k₁ k₂ b (hmem k₁ b hb₁).2 (hmem k₂ b hb₂).2
  · intro o' k' x hx
    have hne : (o', k') ≠ (o, k) := by
      intro heq
      rw [heq, Function.update_self] at hx
      cases hx
    rw [Function.update_of_ne hne] at hx
    obtain ⟨b, hb, q, hq, hqo⟩ := h.present o' k' x hx
    have hba : b ≠ a := by
      rintro rfl
      rw [hp] at hq
      cases hq
      exact hne (by rw [← hqo, hobs, h.disjoint k' k b hb ha])
    refine ⟨b, ?_, q, (hpair hba).trans hq, hqo⟩
    by_cases hk : k' = k
    · subst hk
      rw [Function.update_self]
      exact (horder b).mpr ⟨hba, hb⟩
    · rwa [Function.update_of_ne hk]

/-- A fresh pair for `o`, who has none, goes to the end of `k`'s order. -/
theorem add (h : Registry orders pairs last) {o : O} {k : K} {a : Nat} {p : KVOPair O V}
    (hfresh : pairs a = none) (hlo : 0 < a) (hhi : a < 2 ^ 64)
    (hno : ∀ b ∈ orders k, ∀ q, pairs b = some q → q.observer ≠ o) {n : BitVec 64}
    (hobs : p.observer = o) (hen : p.enabled = true) (hkind : p.notifyKind = Kind.ofInteger n)
    (hn : Kind.ofInteger n ≠ 0) :
    Registry (Function.update orders k (orders k ++ [a])) (Function.update pairs a (some p))
      (Function.update last (o, k) (some (n, p.context))) := by
  have hold : ∀ k' b, b ∈ orders k' → b ≠ a := by
    rintro k' b hb rfl
    obtain ⟨q, hq, -⟩ := h.live k' b hb
    cases hfresh.symm.trans hq
  have hpair : ∀ {b}, b ≠ a → Function.update pairs a (some p) b = pairs b :=
    fun hb => Function.update_of_ne hb ..
  have hself : Function.update pairs a (some p) a = some p := Function.update_self ..
  refine ⟨?_, ?_, ?_, ?_, ?_⟩
  · intro k' b hmemb
    rcases mem_update_append.mp hmemb with hb | ⟨rfl, -⟩
    · exact h.address k' b hb
    · exact ⟨hlo, hhi⟩
  · intro k' b hmemb
    rcases mem_update_append.mp hmemb with hb | ⟨rfl, rfl⟩
    · obtain ⟨q, hq, hqen, hqkind, m, hlast, hm⟩ := h.live k' b hb
      refine ⟨q, (hpair (hold _ b hb)).trans hq, hqen, hqkind, m, ?_, hm⟩
      rw [Function.update_of_ne, hlast]
      intro heq
      obtain ⟨hqo, hk⟩ := Prod.mk.inj heq
      subst hk
      exact hno b hb q hq hqo
    · exact ⟨p, hself, hen, by rw [hkind]; exact hn, n, by rw [hobs, Function.update_self], hkind⟩
  · intro k' b c q r hmemb hmemc hq hr hqr
    rcases mem_update_append.mp hmemb with hb | ⟨rfl, rfl⟩
    · rw [hpair (hold _ b hb)] at hq
      rcases mem_update_append.mp hmemc with hc | ⟨rfl, rfl⟩
      · rw [hpair (hold _ c hc)] at hr
        exact h.distinct k' b c q r hb hc hq hr hqr
      · rw [hself] at hr
        cases hr
        exact absurd (hqr.trans hobs) (hno b hb q hq)
    · rw [hself] at hq
      cases hq
      rcases mem_update_append.mp hmemc with hc | ⟨rfl, -⟩
      · rw [hpair (hold _ c hc)] at hr
        exact absurd (hqr.symm.trans hobs) (hno c hc r hr)
      · rfl
  · exact fun _ _ _ => disjoint_update_append h.disjoint hold
  · intro o' k' x hx
    by_cases heq : (o', k') = (o, k)
    · obtain ⟨rfl, rfl⟩ := Prod.mk.inj heq
      exact ⟨a, mem_update_append.mpr (Or.inr ⟨rfl, rfl⟩), p, hself, hobs⟩
    · rw [Function.update_of_ne heq] at hx
      obtain ⟨b, hb, q, hq, hqo⟩ := h.present o' k' x hx
      exact ⟨b, mem_update_append.mpr (Or.inl hb), q, (hpair (hold _ b hb)).trans hq, hqo⟩

end Registry

/-! ## The entries of the code -/

variable [DecidableEq K]

/-- The pairs of each key, in their order. -/
def ordersOf (info : AList fun _ : K => OrderedSet Nat) : K → List Nat := fun k =>
  match info.lookup k with
  | some order => order.array
  | none => []

def AllConsistent (info : AList fun _ : K => OrderedSet Nat) : Prop :=
  ∀ k order, info.lookup k = some order → order.Consistent

section Entries
variable {info : AList fun _ : K => OrderedSet Nat} {k : K} {order : OrderedSet Nat}

theorem ordersOf_eq (h : info.lookup k = some order) : ordersOf info k = order.array := by
  rw [ordersOf, h]

theorem ordersOf_insert (info : AList fun _ : K => OrderedSet Nat) (k : K)
    (order : OrderedSet Nat) :
    ordersOf (info.insert k order) = Function.update (ordersOf info) k order.array := by
  funext k'
  by_cases hk : k' = k
  · subst hk
    rw [Function.update_self, ordersOf_eq (AList.lookup_insert info)]
  · rw [Function.update_of_ne hk, ordersOf, AList.lookup_insert_ne hk, ordersOf]

theorem ordersOf_erase (info : AList fun _ : K => OrderedSet Nat) (k : K) :
    ordersOf (info.erase k) = Function.update (ordersOf info) k [] := by
  funext k'
  by_cases hk : k' = k
  · subst hk
    rw [Function.update_self, ordersOf, AList.lookup_erase]
  · rw [Function.update_of_ne hk, ordersOf, AList.lookup_erase_ne hk, ordersOf]

theorem AllConsistent.insert (h : AllConsistent info) (horder : order.Consistent) :
    AllConsistent (info.insert k order) := by
  intro k' order' hk'
  by_cases hk : k' = k
  · subst hk
    rw [AList.lookup_insert] at hk'
    exact Option.some.inj hk' ▸ horder
  · rw [AList.lookup_insert_ne hk] at hk'
    exact h k' order' hk'

theorem AllConsistent.erase (h : AllConsistent info) : AllConsistent (info.erase k) := by
  intro k' order' hk'
  by_cases hk : k' = k
  · subst hk
    rw [AList.lookup_erase] at hk'
    cases hk'
  · rw [AList.lookup_erase_ne hk] at hk'
    exact h k' order' hk'

/-- An order of addresses is shorter than any index an iterator cannot hold. -/
theorem length_lt_endIndex {l : List Nat} (hnd : l.Nodup) (h : ∀ a ∈ l, 0 < a ∧ a < 2 ^ 64) :
    l.length ≤ OrderedSet.endIndex := by
  have hsub : l.toFinset ⊆ Finset.Ico 1 (2 ^ 64) := by
    intro a ha
    exact Finset.mem_Ico.mpr (h a (List.mem_toFinset.mp ha))
  have hcard := Finset.card_le_card hsub
  rwa [List.toFinset_card_of_nodup hnd, Nat.card_Ico] at hcard

end Entries

/-! ## The calls -/

variable [DecidableEq O]

/-- A pair in a snapshot for `k`: it exists, and while it is enabled it is in `k`'s order. -/
def Tracked (orders : K → List Nat) (pairs : Pairs O V) (k : K) (a : Nat) : Prop :=
  ∃ p, pairs a = some p ∧ (p.enabled = true → a ∈ orders k)

/-- Observer `o` has no pair in `k`'s order. -/
def Unregistered (orders : K → List Nat) (pairs : Pairs O V) (o : O) (k : K) : Prop :=
  ∀ a ∈ orders k, ∀ p, pairs a = some p → p.observer ≠ o

/-- Observer `o` has no pair in `k`'s order, or the last one. -/
def LastIfRegistered (orders : K → List Nat) (pairs : Pairs O V) (o : O) (k : K) : Prop :=
  ∀ a ∈ orders k, (pairs a).map KVOPair.observer = some o → (orders k).getLast? = some a

/-- Observer `o` has no pair in `k`'s order, or is not alone there. -/
def NotAlone (orders : K → List Nat) (pairs : Pairs O V) (o : O) (k : K) : Prop :=
  ∀ a ∈ orders k, (pairs a).map KVOPair.observer = some o → orders k ≠ [a]

instance (orders : K → List Nat) (pairs : Pairs O V) (o : O) (k : K) :
    Decidable (LastIfRegistered orders pairs o k) :=
  inferInstanceAs (Decidable (∀ a ∈ orders k, _ → _))

instance (orders : K → List Nat) (pairs : Pairs O V) (o : O) (k : K) :
    Decidable (NotAlone orders pairs o k) :=
  inferInstanceAs (Decidable (∀ a ∈ orders k, _ → _))

section Calls
variable {s : Subject K O V} {last : Registrations K O V}

omit [DecidableEq K] in
/-- On enabled pairs of nonzero kind, the search of `removeObserver` looks for the observer. -/
theorem matchesTarget_eq {a : Nat} {p : KVOPair O V} (hp : s.pairs a = some p)
    (hkind : p.notifyKind ≠ 0) (o : O) : s.matchesTarget o a = decide (p.observer = o) := by
  rw [Subject.matchesTarget, hp]
  show (p.observer == o && (p.notifyKind &&& BitVec.allOnes 32) != 0) = _
  rw [BitVec.and_allOnes, bne_iff_ne.mpr hkind, Bool.and_true]
  rfl

/-- Nothing to remove. -/
theorem removeObserver_unregistered (h : Registry (ordersOf s.observersInfo) s.pairs last)
    (hcons : AllConsistent s.observersInfo) {o : O} {k : K}
    (hno : Unregistered (ordersOf s.observersInfo) s.pairs o k) : s.removeObserver o k = .ok s := by
  rw [Subject.removeObserver]
  cases hlook : s.observersInfo.lookup k with
  | none => rfl
  | some order =>
      have hfind : order.findIf (s.matchesTarget o) = .ok OrderedSet.endIndex := by
        refine (hcons k order hlook).findIf_none fun a ha => ?_
        rw [← ordersOf_eq hlook] at ha
        obtain ⟨p, hp, -, hkind, -⟩ := h.live k a ha
        rw [matchesTarget_eq hp hkind, decide_eq_false (hno a ha p hp)]
      show s.removeFrom order o k = .ok s
      rw [Subject.removeFrom, hfind, ok_bind, if_pos rfl]

/-- The search of `removeObserver` stops at the pair of `o`, where that is the last one. -/
theorem findIf_last (h : Registry (ordersOf s.observersInfo) s.pairs last) {o : O} {k : K}
    {order : OrderedSet Nat} (hlook : s.observersInfo.lookup k = some order)
    (hc : order.Consistent) {as : List Nat} {a : Nat} (harr : order.array = as ++ [a])
    {p : KVOPair O V} (hp : s.pairs a = some p) (hobs : p.observer = o) :
    order.findIf (s.matchesTarget o) = .ok as.length := by
  have horder := ordersOf_eq hlook
  have ha : a ∈ order.array := by
    rw [harr]
    exact List.mem_append_right _ (List.mem_singleton_self a)
  have hnot : a ∉ as := by
    have hnodup := hc.nodup
    rw [harr] at hnodup
    exact fun hin => (List.nodup_append.mp hnodup).2.2 a hin a (List.mem_singleton_self a) rfl
  have hmatch : ∀ b ∈ order.array, s.matchesTarget o b = true → b = a := by
    intro b hb hyes
    rw [← horder] at hb ha
    obtain ⟨q, hq, -, hkind, -⟩ := h.live k b hb
    rw [matchesTarget_eq hq hkind] at hyes
    exact h.distinct k b a q p hb ha hq hp ((of_decide_eq_true hyes).trans hobs.symm)
  have hyes : s.matchesTarget o a = true := by
    obtain ⟨q, hq, -, hkind, -⟩ := h.live k a (horder ▸ ha)
    cases hp.symm.trans hq
    rw [matchesTarget_eq hp hkind, decide_eq_true hobs]
  rw [hc.findIf_unique ha hyes hmatch, harr, OrderedSet.find_concat hnot]

/-- Removing the last pair of `k`'s order. -/
theorem removeObserver_last (h : Registry (ordersOf s.observersInfo) s.pairs last)
    (hcons : AllConsistent s.observersInfo) {o : O} {k : K} {as : List Nat} {a : Nat}
    {p : KVOPair O V} (horder : ordersOf s.observersInfo k = as ++ [a]) (hp : s.pairs a = some p)
    (hobs : p.observer = o) :
    ∃ info, s.removeObserver o k = .ok { s.setPair a (p.setEnabled false) with
        observersInfo := info } ∧
      AllConsistent info ∧ ordersOf info = Function.update (ordersOf s.observersInfo) k as ∧
      (as ≠ [] → (info.lookup k).isSome = true) := by
  obtain ⟨order, hlook⟩ : ∃ order, s.observersInfo.lookup k = some order := by
    cases hlook : s.observersInfo.lookup k with
    | some order => exact ⟨order, rfl⟩
    | none =>
        rw [ordersOf, hlook] at horder
        exact absurd horder.symm (List.append_ne_nil_of_right_ne_nil _ (List.cons_ne_nil _ _))
  have hc := hcons k order hlook
  have harr : order.array = as ++ [a] := (ordersOf_eq hlook).symm.trans horder
  have hfind := findIf_last h hlook hc harr hp hobs
  have hlen : as.length + 1 ≤ OrderedSet.endIndex := by
    have hle := length_lt_endIndex (harr ▸ hc.nodup) (horder ▸ h.address k)
    rwa [List.length_append, List.length_singleton] at hle
  have hend : as.length ≠ OrderedSet.endIndex := Nat.ne_of_lt hlen
  have hget : order.array[as.length]? = some a := by
    rw [harr, List.getElem?_append_right (Nat.le_refl _), Nat.sub_self]
    rfl
  have hlt : as.length < order.array.length := (List.getElem?_eq_some_iff.mp hget).1
  have hderef : order.deref as.length = .ok a := by
    rw [OrderedSet.deref, hc.isDereferenceable_eq, decide_eq_true ⟨hend, hlt⟩, ok_bind, if_pos rfl,
      hget]
  obtain ⟨order', herase, harr', hc'⟩ := OrderedSet.eraseIterator_last some hc hend hget
    (by rw [harr, List.length_append, List.length_singleton]) rfl
  have has : order'.array = as := by
    rw [harr', harr, List.eraseIdx_append_of_length_le (Nat.le_refl _), Nat.sub_self]
    exact List.append_nil as
  have hsize : order'.isEmpty = .ok (as.length == 0) := by
    rw [OrderedSet.isEmpty, hc'.size_eq, ok_bind, has]
  have hpair : s.pairAt a = .ok p := by rw [Subject.pairAt, hp]
  have hrun : s.removeObserver o k = s.removeFrom order o k := by rw [Subject.removeObserver, hlook]
  simp only [hrun, Subject.removeFrom, hfind, if_neg hend, hderef, hpair, herase, hsize, ok_bind]
  by_cases hemp : as = []
  · subst hemp
    exact ⟨_, rfl, hcons.erase, ordersOf_erase _ _, fun hne => absurd rfl hne⟩
  · rw [if_neg (by simpa using hemp)]
    refine ⟨_, rfl, hcons.insert hc', ?_, ?_⟩
    · rw [← has]
      exact ordersOf_insert _ _ _
    · exact fun _ => by
        show ((s.observersInfo.insert k order').lookup k).isSome = true
        rw [AList.lookup_insert]
        rfl

omit [DecidableEq O]

/-- What a call leaves alone, and what snapshots may rely on. -/
structure Preserves (s s' : Subject K O V) : Prop where
  value : s'.value = s.value
  stack : s'.stack = s.stack
  log : s'.log = s.log
  tracked : ∀ k a, Tracked (ordersOf s.observersInfo) s.pairs k a →
    Tracked (ordersOf s'.observersInfo) s'.pairs k a

theorem Preserves.refl (s : Subject K O V) : Preserves s s := ⟨rfl, rfl, rfl, fun _ _ h => h⟩

theorem Preserves.trans {s₁ s₂ s₃ : Subject K O V} (h₁ : Preserves s₁ s₂) (h₂ : Preserves s₂ s₃) :
    Preserves s₁ s₃ :=
  ⟨h₂.value.trans h₁.value, h₂.stack.trans h₁.stack, h₂.log.trans h₁.log,
    fun k a h => h₂.tracked k a (h₁.tracked k a h)⟩

variable [DecidableEq O]

/-- The state after `o` was withdrawn from `k`. -/
structure Withdrawn (s s' : Subject K O V) (last : Registrations K O V) (o : O) (k : K) :
    Prop where
  preserves : Preserves s s'
  consistent : AllConsistent s'.observersInfo
  registry : Registry (ordersOf s'.observersInfo) s'.pairs (Function.update last (o, k) none)
  gone : Unregistered (ordersOf s'.observersInfo) s'.pairs o k
  fresh : ∀ a, s.pairs a = none → s'.pairs a = none
  entry : (s.observersInfo.lookup k).isSome = true →
    NotAlone (ordersOf s.observersInfo) s.pairs o k → (s'.observersInfo.lookup k).isSome = true

/-- `removeObserver`, where the ordered set allows it. -/
theorem removeObserver_spec (h : Registry (ordersOf s.observersInfo) s.pairs last)
    (hcons : AllConsistent s.observersInfo) {o : O} {k : K}
    (hok : LastIfRegistered (ordersOf s.observersInfo) s.pairs o k) :
    ∃ s', s.removeObserver o k = .ok s' ∧ Withdrawn s s' last o k := by
  by_cases hno : Unregistered (ordersOf s.observersInfo) s.pairs o k
  · refine ⟨s, removeObserver_unregistered h hcons hno, .refl s, hcons, ?_, hno, fun _ ha => ha,
      fun hentry _ => hentry⟩
    rw [Function.update_eq_self_iff.mpr (h.last_eq_none hno).symm]
    exact h
  · simp only [Unregistered, not_forall, not_not] at hno
    obtain ⟨a, ha, p, hp, hobs⟩ := hno
    have hheld : (s.pairs a).map KVOPair.observer = some o := by
      rw [hp, Option.map_some, hobs]
    obtain ⟨as, horder⟩ := List.getLast?_eq_some_iff.mp (hok a ha hheld)
    obtain ⟨info, hrun, hcons', horders, hentry⟩ := removeObserver_last h hcons horder hp hobs
    have hnd : (as ++ [a]).Nodup := by
      cases hlook : s.observersInfo.lookup k with
      | none => rw [ordersOf, hlook] at ha; cases ha
      | some order => rw [← horder, ordersOf_eq hlook]; exact (hcons k order hlook).nodup
    have hmem : ∀ b, b ∈ as ↔ b ≠ a ∧ b ∈ ordersOf s.observersInfo k := by
      intro b
      rw [horder, List.mem_append, List.mem_singleton]
      constructor
      · intro hb
        exact ⟨(List.nodup_append.mp hnd).2.2 b hb a (List.mem_singleton.mpr rfl), Or.inl hb⟩
      · exact fun ⟨hne, hb⟩ => hb.resolve_right hne
    refine ⟨_, hrun, ⟨rfl, rfl, rfl, ?_⟩, hcons', ?_, ?_, ?_, ?_⟩
    · rintro k' b ⟨q, hq, hb⟩
      show Tracked (ordersOf info) (Function.update s.pairs a _) k' b
      rw [horders]
      by_cases hba : b = a
      · subst hba
        exact ⟨_, Function.update_self .., fun hen => nomatch hen⟩
      · refine ⟨q, (Function.update_of_ne hba ..).trans hq, fun hen => ?_⟩
        by_cases hk : k' = k
        · subst hk
          rw [Function.update_self]
          exact (hmem b).mpr ⟨hba, hb hen⟩
        · rw [Function.update_of_ne hk]
          exact hb hen
    · show Registry (ordersOf info) (Function.update s.pairs a _) _
      rw [horders]
      exact h.withdraw ha hp hobs hmem
    · show Unregistered (ordersOf info) (Function.update s.pairs a _) o k
      rw [horders]
      intro b hb q hq hqo
      rw [Function.update_self] at hb
      obtain ⟨hba, hb⟩ := (hmem b).mp hb
      rw [Function.update_of_ne hba] at hq
      exact hba (h.distinct k b a q p hb ha hq hp (hqo.trans hobs.symm))
    · intro b hb
      have hba : b ≠ a := by
        rintro rfl
        rw [hp] at hb
        cases hb
      exact (Function.update_of_ne hba ..).trans hb
    · refine fun _ hsole => hentry ?_
      rintro rfl
      exact hsole a ha hheld horder

omit [DecidableEq O] in
/-- The entry an iterator is taken to exists, and is empty if it is new. -/
theorem findOrInsert_spec (s : Subject K O V) (hcons : AllConsistent s.observersInfo) (k : K) :
    ∃ info, s.findOrInsert k = { s with observersInfo := info } ∧
      ordersOf info = ordersOf s.observersInfo ∧ AllConsistent info ∧
      (info.lookup k).isSome = true := by
  rw [Subject.findOrInsert]
  cases hlook : s.observersInfo.lookup k with
  | some order => exact ⟨s.observersInfo, rfl, rfl, hcons, by rw [hlook]; rfl⟩
  | none =>
      refine ⟨_, rfl, ?_, hcons.insert OrderedSet.consistent_empty, ?_⟩
      · rw [ordersOf_insert]
        refine Function.update_eq_self_iff.mpr ?_
        rw [ordersOf, hlook]
        rfl
      · rw [AList.lookup_insert]
        rfl

/-- `addObserver` up to its rounds, where the ordered set and the iterator allow it. -/
theorem register_spec (h : Registry (ordersOf s.observersInfo) s.pairs last)
    (hcons : AllConsistent s.observersInfo) {o : O} {k : K} {n : BitVec 64} (hn : Kind.ofInteger n ≠ 0)
    {a : Nat} (hfresh : s.pairs a = none) (hlo : 0 < a) (hhi : a < 2 ^ 64)
    (hok : LastIfRegistered (ordersOf s.observersInfo) s.pairs o k)
    (hsole : NotAlone (ordersOf s.observersInfo) s.pairs o k)
    (context : Any V) :
    ∃ s', s.register o k n context a = .ok s' ∧ Preserves s s' ∧ AllConsistent s'.observersInfo ∧
      Registry (ordersOf s'.observersInfo) s'.pairs
        (Function.update last (o, k) (some (n, context))) := by
  obtain ⟨info, hfind, horders, hcons₀, hentry₀⟩ := findOrInsert_spec s hcons k
  have h₀ : Registry (ordersOf info) s.pairs last := horders ▸ h
  obtain ⟨s₁, hrun, hgone⟩ := removeObserver_spec (s := { s with observersInfo := info }) h₀ hcons₀
    (by rw [horders]; exact hok)
  have hfirst : Preserves s { s with observersInfo := info } :=
    ⟨rfl, rfl, rfl, fun k' b hb => horders.symm ▸ hb⟩
  have hsome := hgone.entry hentry₀ (by rw [horders]; exact hsole)
  obtain ⟨order, hlook⟩ := Option.isSome_iff_exists.mp hsome
  have hfresh₁ := hgone.fresh a hfresh
  have hnew : a ∉ order.array := by
    rw [← ordersOf_eq hlook]
    intro ha
    obtain ⟨p, hp, -⟩ := hgone.registry.live k a ha
    rw [hfresh₁] at hp
    cases hp
  obtain ⟨order', hadd, harr, hc'⟩ := OrderedSet.addObject_spec (hgone.consistent k order hlook) hnew
  have horders' : ordersOf (s₁.observersInfo.insert k order')
      = Function.update (ordersOf s₁.observersInfo) k (ordersOf s₁.observersInfo k ++ [a]) := by
    rw [ordersOf_insert, harr, ordersOf_eq hlook]
  let pair := (KVOPair.make o (Kind.ofInteger n) context).setEnabled true
  have hlast : Preserves s₁ { s₁.setPair a pair with
      observersInfo := s₁.observersInfo.insert k order' } := by
    refine ⟨rfl, rfl, rfl, ?_⟩
    rintro k' b ⟨p, hp, hb⟩
    have hba : b ≠ a := by
      rintro rfl
      rw [hfresh₁] at hp
      cases hp
    refine ⟨p, (Function.update_of_ne hba ..).trans hp, fun hen => ?_⟩
    show b ∈ ordersOf (s₁.observersInfo.insert k order') k'
    rw [horders']
    by_cases hk : k' = k
    · subst hk
      rw [Function.update_self]
      exact List.mem_append_left _ (hb hen)
    · rw [Function.update_of_ne hk]
      exact hb hen
  have hreg : Registry (Function.update (ordersOf s₁.observersInfo) k
      (ordersOf s₁.observersInfo k ++ [a])) (Function.update s₁.pairs a (some pair))
      (Function.update (Function.update last (o, k) none) (o, k) (some (n, context))) :=
    hgone.registry.add hfresh₁ hlo hhi hgone.gone rfl rfl rfl hn
  rw [Function.update_idem, ← horders'] at hreg
  refine ⟨_, ?_, (hfirst.trans hgone.preserves).trans hlast, hgone.consistent.insert hc', hreg⟩
  rw [Subject.register, hfind, hrun]
  simp only [ok_bind, hlook, hadd]
  rfl

end Calls

end KeyValueObserverInterface

end Rx
