/-
# `RxCoreComponents.MultipleDelegateEnumerator` — snapshots that share their nodes

An enumerator copies the list of nodes, not the nodes.  To take a node out of every
snapshot at once, `removeDelegate:` clears the node's `delegate` and drops the node
from the list of the object; an enumerator passes over a node whose delegate reads
as `nil`, and that is all it knows of removals.

The nodes are numbered as they are made, one for each registration.  As in
`RxCoreComponents.MultipleDelegate` the delegates are referred to weakly, reads are
numbered, and a delegate is there up to some read; the model is the
`TARGET_OS_IPHONE` one.  All calls are made on one queue, in any order, and nothing
here looks into the enumerators to decide what a call does to the list.

`enumerates` says of every call of every enumerator: it returns a registration of
the snapshot that comes after those returned before and was not removed, and what
it passes over was removed, is gone, or does not match.
-/
import CrashRealm.RxCoreComponents.MultipleDelegate
import Mathlib.Data.List.Induction

namespace Rx

/-- `numNodes`, `currentNodeIndex` and `delegateNodes`, with the nodes returned so far. -/
structure RxMultipleDelegateEnumerator where
  numNodes : Nat
  currentNodeIndex : Nat
  delegateNodes : List Nat
  returned : List Nat
  deriving DecidableEq, Repr

/-- What the delegates are: until which read each of them is there, of which classes
it is and to which selectors it responds. -/
structure DelegateWorld (D C : Type) where
  life : Lifetime D
  isKindOfClass : D → C → Bool
  respondsToSelector : D → String → Bool

/-- An object with its enumerators: all nodes ever made, by number, the object's list
of them and the queues that carry its mark, and the reads made so far. -/
structure EnumeratedDelegate (D Q : Type) where
  nodes : List (RxMultipleDelegateNode (Option D) Q)
  delegateNodes : List Nat
  marked : Q → Bool
  enumerators : List RxMultipleDelegateEnumerator
  clock : Nat

/-- `getNextDelegate:delegateQueue:` with nothing more, `ofClass:` or `forSelector:`. -/
inductive DelegateFilter (C : Type) where
  | any
  | ofClass (aClass : C)
  | forSelector (aSelector : String)
  deriving DecidableEq, Repr

inductive DelegateEvent (D Q C : Type) where
  | addDelegate (delegate : Option D) (delegateQueue : Option Q)
  | removeDelegate (delegate : Option D) (delegateQueue : Option Q)
  | removeAllDelegates
  | delegateEnumerator
  /-- on the enumerator made as number `k` -/
  | getNextDelegate (k : Nat) (filter : DelegateFilter C)
  deriving DecidableEq, Repr

section

variable {D Q C : Type}

/-- `node.delegate` at read `t`. -/
def RxMultipleDelegateNode.read (life : Lifetime D) (t : Nat)
    (node : RxMultipleDelegateNode (Option D) Q) : Option D :=
  node.delegate.filter (life.alive t)

namespace RxMultipleDelegateEnumerator

/-- `initFromDelegateNodes:`. -/
def initFromDelegateNodes (inDelegateNodes : List Nat) : RxMultipleDelegateEnumerator where
  numNodes := inDelegateNodes.length
  currentNodeIndex := 0
  delegateNodes := inDelegateNodes
  returned := []

/-- The loop of the three `getNextDelegate:` methods, with `numNodes - currentNodeIndex`
rounds left: the enumerator and the reads after it, and what is returned.  `test` is
the condition on what was read. -/
def nextLoop (life : Lifetime D) (test : Option D → Bool)
    (nodes : List (RxMultipleDelegateNode (Option D) Q)) :
    Nat → RxMultipleDelegateEnumerator → Nat →
      RxMultipleDelegateEnumerator × Nat × Option (Option D × Q)
  | 0, e, t => (e, t, none)
  | rounds + 1, e, t =>
      match e.delegateNodes[e.currentNodeIndex]? with
      | none => (e, t, none)
      | some n =>
          let e := { e with currentNodeIndex := e.currentNodeIndex + 1 }
          match nodes[n]? with
          | none => (e, t, none)
          | some node =>
              let nodeDelegate := node.read life t
              if test nodeDelegate then
                ({ e with returned := e.returned ++ [n] }, t + 1,
                  some (nodeDelegate, node.delegateQueue))
              else nextLoop life test nodes rounds e (t + 1)

def next (life : Lifetime D) (test : Option D → Bool)
    (nodes : List (RxMultipleDelegateNode (Option D) Q)) (e : RxMultipleDelegateEnumerator)
    (t : Nat) : RxMultipleDelegateEnumerator × Nat × Option (Option D × Q) :=
  nextLoop life test nodes (e.numNodes - e.currentNodeIndex) e t

/-- `getNextDelegate:delegateQueue:`. -/
def getNextDelegate (world : DelegateWorld D C)
    (nodes : List (RxMultipleDelegateNode (Option D) Q)) :=
  next world.life (fun nodeDelegate => nodeDelegate.isSome) nodes

/-- `getNextDelegate:delegateQueue:ofClass:`; a message to `nil` returns `NO`. -/
def getNextDelegateOfClass (world : DelegateWorld D C) (aClass : C)
    (nodes : List (RxMultipleDelegateNode (Option D) Q)) :=
  next world.life (fun nodeDelegate => nodeDelegate.any (world.isKindOfClass · aClass)) nodes

/-- `getNextDelegate:delegateQueue:forSelector:`. -/
def getNextDelegateForSelector (world : DelegateWorld D C) (aSelector : String)
    (nodes : List (RxMultipleDelegateNode (Option D) Q)) :=
  next world.life (fun nodeDelegate => nodeDelegate.any (world.respondsToSelector · aSelector))
    nodes

end RxMultipleDelegateEnumerator

namespace EnumeratedDelegate

def init : EnumeratedDelegate D Q := ⟨[], [], fun _ => false, [], 0⟩

/-- `addDelegate:delegateQueue:`. -/
def addDelegate [DecidableEq Q] (s : EnumeratedDelegate D Q) (delegate : Option D)
    (delegateQueue : Option Q) : EnumeratedDelegate D Q :=
  match delegate, delegateQueue with
  | some delegate, some delegateQueue => { s with
      marked := fun q => q = delegateQueue || s.marked q
      nodes := s.nodes ++ [⟨some delegate, delegateQueue⟩]
      delegateNodes := s.delegateNodes ++ [s.nodes.length] }
  | _, _ => s

/-- `node.delegate = nil` for the node with number `n`. -/
def clear (s : EnumeratedDelegate D Q) (n : Nat) : EnumeratedDelegate D Q :=
  { s with nodes := s.nodes.modify n fun node => { node with delegate := none } }

variable [DecidableEq D] [DecidableEq Q]

/-- A round of the loop of `removeDelegate:delegateQueue:`, at index `i`. -/
def removeAt (life : Lifetime D) (delegate : D) (delegateQueue : Option Q)
    (s : EnumeratedDelegate D Q) (i : Nat) : EnumeratedDelegate D Q :=
  match s.delegateNodes[i]? with
  | none => s
  | some n =>
      match s.nodes[n]? with
      | none => s
      | some node =>
          let nodeDelegate := node.read life s.clock
          let s := { s with clock := s.clock + 1 }
          if some delegate = nodeDelegate ∧
              (delegateQueue = none ∨ delegateQueue = some node.delegateQueue) then
            { s.clear n with delegateNodes := s.delegateNodes.eraseIdx i }
          else s

/-- The loop, from the end of the list to its start. -/
def removeLoop (life : Lifetime D) (delegate : D) (delegateQueue : Option Q) :
    Nat → EnumeratedDelegate D Q → EnumeratedDelegate D Q
  | 0, s => s
  | i + 1, s => removeLoop life delegate delegateQueue i (s.removeAt life delegate delegateQueue i)

/-- `removeDelegate:delegateQueue:`, and `removeDelegate:` with no queue. -/
def removeDelegate (life : Lifetime D) (s : EnumeratedDelegate D Q) (delegate : Option D)
    (delegateQueue : Option Q) : EnumeratedDelegate D Q :=
  match delegate with
  | none => s
  | some delegate => s.removeLoop life delegate delegateQueue s.delegateNodes.length

omit [DecidableEq D] [DecidableEq Q] in
def removeAllDelegates (s : EnumeratedDelegate D Q) : EnumeratedDelegate D Q :=
  { s.delegateNodes.foldl clear s with delegateNodes := [] }

omit [DecidableEq D] [DecidableEq Q] in
def delegateEnumerator (s : EnumeratedDelegate D Q) : EnumeratedDelegate D Q :=
  { s with enumerators := s.enumerators ++ [.initFromDelegateNodes s.delegateNodes] }

/-- The next call of an enumerator, by filter. -/
def answer (world : DelegateWorld D C) (s : EnumeratedDelegate D Q)
    (e : RxMultipleDelegateEnumerator) :
    DelegateFilter C → RxMultipleDelegateEnumerator × Nat × Option (Option D × Q)
  | .any => e.getNextDelegate world s.nodes s.clock
  | .ofClass aClass => e.getNextDelegateOfClass world aClass s.nodes s.clock
  | .forSelector aSelector => e.getNextDelegateForSelector world aSelector s.nodes s.clock

def step (world : DelegateWorld D C) (s : EnumeratedDelegate D Q) :
    DelegateEvent D Q C → EnumeratedDelegate D Q
  | .addDelegate delegate delegateQueue => s.addDelegate delegate delegateQueue
  | .removeDelegate delegate delegateQueue => s.removeDelegate world.life delegate delegateQueue
  | .removeAllDelegates => s.removeAllDelegates
  | .delegateEnumerator => s.delegateEnumerator
  | .getNextDelegate k filter =>
      match s.enumerators[k]? with
      | none => s
      | some e =>
          let (e, clock, _) := s.answer world e filter
          { s with enumerators := s.enumerators.set k e, clock }

def run (world : DelegateWorld D C) (es : List (DelegateEvent D Q C)) : EnumeratedDelegate D Q :=
  es.foldl (step world) init

end EnumeratedDelegate

/-! ## What is promised, of the calls alone -/

/-- The call takes registrations of `delegate` on `delegateQueue` away. -/
def DelegateEvent.Removes (delegate : D) (delegateQueue : Q) : DelegateEvent D Q C → Prop
  | .removeDelegate (some d) none => d = delegate
  | .removeDelegate (some d) (some q) => d = delegate ∧ q = delegateQueue
  | .removeAllDelegates => True
  | _ => False

/-- The condition of a filter on a delegate that is there. -/
def DelegateFilter.Matches (world : DelegateWorld D C) (delegate : D) : DelegateFilter C → Prop
  | .any => True
  | .ofClass aClass => world.isKindOfClass delegate aClass = true
  | .forSelector aSelector => world.respondsToSelector delegate aSelector = true

namespace EnumeratedDelegate

/-- The registrations of a list of calls, in order. -/
def registrations : List (DelegateEvent D Q C) → List (D × Q) :=
  List.filterMap fun
    | .addDelegate (some delegate) (some delegateQueue) => some (delegate, delegateQueue)
    | _ => none

/-- Registration `n` was removed by a later call. -/
def Removed (es : List (DelegateEvent D Q C)) (n : Nat) : Prop :=
  ∃ before event after delegate delegateQueue, es = before ++ event :: after ∧
    (registrations before)[n]? = some (delegate, delegateQueue) ∧
    event.Removes delegate delegateQueue

/-- The nodes stand for the registrations: a node is cleared if its registration was
removed, and it is in the list as long as it is not cleared. -/
structure Registered (world : DelegateWorld D C) (es : List (DelegateEvent D Q C))
    (s : EnumeratedDelegate D Q) : Prop where
  length : s.nodes.length = (registrations es).length
  node : ∀ n delegate delegateQueue, (registrations es)[n]? = some (delegate, delegateQueue) →
    s.nodes[n]? = some ⟨some delegate, delegateQueue⟩ ∨
      s.nodes[n]? = some ⟨none, delegateQueue⟩ ∧ Removed es n
  removed : ∀ n node delegate, Removed es n → s.nodes[n]? = some node →
    node.delegate = some delegate → world.life.alive s.clock delegate = false
  listed : ∀ n, n ∈ s.delegateNodes ↔ ∃ delegate delegateQueue,
    s.nodes[n]? = some ⟨some delegate, delegateQueue⟩
  ordered : s.delegateNodes.Pairwise (· < ·)

/-! ## Removal -/

/-- No registration but some with `wanted` was taken away. -/
structure Cleared (wanted : D → Q → Prop) (s s' : EnumeratedDelegate D Q) : Prop where
  node : ∀ (n : Nat) (node : RxMultipleDelegateNode (Option D) Q), s.nodes[n]? = some node →
    s'.nodes[n]? = some node ∨ s'.nodes[n]? = some ⟨none, node.delegateQueue⟩ ∧
      ∀ delegate, node.delegate = some delegate → wanted delegate node.delegateQueue
  length : s'.nodes.length = s.nodes.length
  clock : s.clock ≤ s'.clock
  enumerators : s'.enumerators = s.enumerators
  listed : ∀ n, n ∈ s'.delegateNodes ↔ ∃ delegate delegateQueue,
    s'.nodes[n]? = some ⟨some delegate, delegateQueue⟩
  ordered : s'.delegateNodes.Pairwise (· < ·)

namespace Cleared

variable {wanted : D → Q → Prop} {s s' s'' : EnumeratedDelegate D Q}

theorem refl (hlisted : ∀ n, n ∈ s.delegateNodes ↔ ∃ delegate delegateQueue,
      s.nodes[n]? = some ⟨some delegate, delegateQueue⟩)
    (hordered : s.delegateNodes.Pairwise (· < ·)) : Cleared wanted s s where
  node := fun _ _ h => .inl h
  length := rfl
  clock := Nat.le_refl _
  enumerators := rfl
  listed := hlisted
  ordered := hordered

theorem trans (h : Cleared wanted s s') (h' : Cleared wanted s' s'') :
    Cleared wanted s s'' where
  node := by
    intro n node hn
    rcases h.node n node hn with hsame | ⟨hnone, hwanted⟩
    · exact h'.node n node hsame
    · rcases h'.node n _ hnone with hsame | ⟨hnone', -⟩
      · exact .inr ⟨hsame, hwanted⟩
      · exact .inr ⟨hnone', hwanted⟩
  length := h'.length.trans h.length
  clock := Nat.le_trans h.clock h'.clock
  enumerators := h'.enumerators.trans h.enumerators
  listed := h'.listed
  ordered := h'.ordered

end Cleared

theorem not_alive_mono {life : Lifetime D} {t u : Nat} (htu : t ≤ u) {d : D}
    (h : life.alive t d = false) :
    life.alive u d = false := by
  rw [← Bool.not_eq_true] at h ⊢
  exact fun halive => h (RxMultipleDelegate.alive_mono htu halive)

theorem getElem?_clear (s : EnumeratedDelegate D Q) (n m : Nat) :
    (s.clear n).nodes[m]? =
      s.nodes[m]?.map fun node => if n = m then { node with delegate := none } else node :=
  List.getElem?_modify ..

/-- Numbers in order occur once. -/
theorem index_unique {l : List Nat} (hordered : l.Pairwise (· < ·)) {i j n : Nat}
    (hi : l[i]? = some n) (hj : l[j]? = some n) : i = j := by
  have hnodup : l.Nodup := hordered.imp fun h => Nat.ne_of_lt h
  have hlt : i < l.length := (List.getElem?_eq_some_iff.mp hi).1
  exact (List.getElem?_inj hlt hnodup).mp (hi.trans hj.symm)

section Remove

variable {life : Lifetime D} {delegate : D} {delegateQueue : Option Q}
  {s : EnumeratedDelegate D Q}

/-- What `removeDelegate:delegateQueue:` takes away. -/
def Wanted (delegate : D) (delegateQueue : Option Q) (d : D) (q : Q) : Prop :=
  d = delegate ∧ (delegateQueue = none ∨ delegateQueue = some q)

/-- From index `i` on nobody is left whose registration is wanted and whose delegate
is there. -/
def GoneFrom (life : Lifetime D) (wanted : D → Q → Prop) (s : EnumeratedDelegate D Q) (i : Nat) :
    Prop :=
  ∀ j n d q, i ≤ j → s.delegateNodes[j]? = some n → s.nodes[n]? = some ⟨some d, q⟩ →
    wanted d q → life.alive s.clock d = false

/-- The node is cleared and leaves the list. -/
def cut (s : EnumeratedDelegate D Q) (i n : Nat) : EnumeratedDelegate D Q :=
  { s.clear n with delegateNodes := s.delegateNodes.eraseIdx i, clock := s.clock + 1 }

section Cut

variable {wanted : D → Q → Prop} {i n : Nat} {d : D} {q : Q}

theorem getElem?_cut {m : Nat} (hmn : m ≠ n) : (s.cut i n).nodes[m]? = s.nodes[m]? := by
  show (s.clear n).nodes[m]? = _
  rw [getElem?_clear]
  simp [Ne.symm hmn]

theorem getElem?_cut_self (hnode : s.nodes[n]? = some ⟨some d, q⟩) :
    (s.cut i n).nodes[n]? = some ⟨none, q⟩ := by
  show (s.clear n).nodes[n]? = _
  simp [getElem?_clear, hnode]

theorem mem_cut (hordered : s.delegateNodes.Pairwise (· < ·)) (hn : s.delegateNodes[i]? = some n)
    (m : Nat) : m ∈ (s.cut i n).delegateNodes ↔ m ∈ s.delegateNodes ∧ m ≠ n := by
  show m ∈ s.delegateNodes.eraseIdx i ↔ _
  rw [List.mem_eraseIdx_iff_getElem?, List.mem_iff_getElem?]
  constructor
  · rintro ⟨j, hji, hj⟩
    refine ⟨⟨j, hj⟩, ?_⟩
    rintro rfl
    exact hji (index_unique hordered hj hn)
  · rintro ⟨⟨j, hj⟩, hmn⟩
    refine ⟨j, ?_, hj⟩
    rintro rfl
    exact hmn (Option.some.inj (hj.symm.trans hn))

theorem Cleared.cut (hlisted : ∀ n, n ∈ s.delegateNodes ↔ ∃ d q,
      s.nodes[n]? = some ⟨some d, q⟩) (hordered : s.delegateNodes.Pairwise (· < ·))
    (hn : s.delegateNodes[i]? = some n) (hnode : s.nodes[n]? = some ⟨some d, q⟩)
    (hwanted : wanted d q) : Cleared wanted s (s.cut i n) where
  node := by
    intro m node hm
    by_cases hmn : m = n
    · subst hmn
      obtain rfl := Option.some.inj (hm.symm.trans hnode)
      refine .inr ⟨getElem?_cut_self hnode, ?_⟩
      rintro d' hd'
      obtain rfl := Option.some.inj hd'
      exact hwanted
    · exact .inl ((getElem?_cut hmn).trans hm)
  length := List.length_modify ..
  clock := Nat.le_succ _
  enumerators := rfl
  listed := by
    intro m
    rw [mem_cut hordered hn, hlisted]
    constructor
    · rintro ⟨⟨d', q', hm⟩, hmn⟩
      exact ⟨d', q', (getElem?_cut hmn).trans hm⟩
    · rintro ⟨d', q', hm⟩
      have hmn : m ≠ n := by
        rintro rfl
        simp [getElem?_cut_self hnode] at hm
      exact ⟨⟨d', q', (getElem?_cut hmn).symm.trans hm⟩, hmn⟩
  ordered := hordered.sublist (List.eraseIdx_sublist _ _)

/-- What comes after the node has moved up by one. -/
theorem GoneFrom.cut (hordered : s.delegateNodes.Pairwise (· < ·))
    (hn : s.delegateNodes[i]? = some n) (hgone : GoneFrom life wanted s (i + 1)) :
    GoneFrom life wanted (s.cut i n) i := by
  intro j m d' q' hij hj hm hw
  have hj' : s.delegateNodes[j + 1]? = some m := by
    rw [← hj]
    exact (List.getElem?_eraseIdx_of_ge hij).symm
  have hmn : m ≠ n := by
    rintro rfl
    have := index_unique hordered hj' hn
    omega
  exact not_alive_mono (Nat.le_succ _)
    (hgone (j + 1) m d' q' (by omega) hj' ((getElem?_cut hmn).symm.trans hm) hw)

end Cut

/-- A node that was read and kept. -/
theorem GoneFrom.kept {i n : Nat} {d : D} {q : Q} (hn : s.delegateNodes[i]? = some n)
    (hnode : s.nodes[n]? = some ⟨some d, q⟩)
    (hkeep : ¬ (some delegate = RxMultipleDelegateNode.read life s.clock ⟨some d, q⟩ ∧
      (delegateQueue = none ∨ delegateQueue = some q)))
    (hgone : GoneFrom life (Wanted delegate delegateQueue) s (i + 1)) :
    GoneFrom life (Wanted delegate delegateQueue) { s with clock := s.clock + 1 } i := by
  intro j m d' q' hij hj hm hw
  refine not_alive_mono (Nat.le_succ s.clock) ?_
  rcases Nat.eq_or_lt_of_le hij with rfl | hlater
  · obtain rfl := Option.some.inj (hj.symm.trans hn)
    obtain ⟨rfl, rfl⟩ : d' = d ∧ q' = q := by
      simpa using Option.some.inj (hm.symm.trans hnode)
    obtain ⟨rfl, hqueue⟩ := hw
    cases halive : life.alive s.clock d' with
    | false => rfl
    | true =>
        refine absurd ⟨?_, hqueue⟩ hkeep
        simp [RxMultipleDelegateNode.read, Option.filter, halive]
  · exact hgone j m d' q' hlater hj hm hw

variable [DecidableEq D] [DecidableEq Q]

/-- One round. -/
theorem removeAt_spec (hlisted : ∀ n, n ∈ s.delegateNodes ↔ ∃ d q,
      s.nodes[n]? = some ⟨some d, q⟩) (hordered : s.delegateNodes.Pairwise (· < ·)) {i : Nat}
    (hi : i < s.delegateNodes.length)
    (hgone : GoneFrom life (Wanted delegate delegateQueue) s (i + 1)) :
    Cleared (Wanted delegate delegateQueue) s (s.removeAt life delegate delegateQueue i) ∧
      GoneFrom life (Wanted delegate delegateQueue) (s.removeAt life delegate delegateQueue i) i ∧
      i ≤ (s.removeAt life delegate delegateQueue i).delegateNodes.length := by
  obtain ⟨n, hn⟩ : ∃ n, s.delegateNodes[i]? = some n := ⟨_, List.getElem?_eq_getElem hi⟩
  obtain ⟨d, q, hnode⟩ := (hlisted n).mp (List.mem_of_getElem? hn)
  simp only [removeAt, hn, hnode]
  split
  next hcut =>
    obtain ⟨hread, hqueue⟩ := hcut
    have hsome := Option.mem_filter_iff.mp (Option.mem_def.mpr hread.symm)
    have hwanted : Wanted delegate delegateQueue d q := ⟨Option.some.inj hsome.1, hqueue⟩
    refine ⟨.cut hlisted hordered hn hnode hwanted, hgone.cut hordered hn, ?_⟩
    show i ≤ (s.delegateNodes.eraseIdx i).length
    rw [List.length_eraseIdx_of_lt hi]
    omega
  next hkeep =>
    refine ⟨?_, hgone.kept hn hnode hkeep, Nat.le_of_lt hi⟩
    exact
      { node := fun _ _ h => .inl h
        length := rfl
        clock := Nat.le_succ _
        enumerators := rfl
        listed := hlisted
        ordered := hordered }

variable (life delegate delegateQueue) in
theorem removeLoop_spec : ∀ {i : Nat} {s : EnumeratedDelegate D Q},
    (∀ n, n ∈ s.delegateNodes ↔ ∃ d q, s.nodes[n]? = some ⟨some d, q⟩) →
    s.delegateNodes.Pairwise (· < ·) → i ≤ s.delegateNodes.length →
    GoneFrom life (Wanted delegate delegateQueue) s i →
      Cleared (Wanted delegate delegateQueue) s (s.removeLoop life delegate delegateQueue i) ∧
        GoneFrom life (Wanted delegate delegateQueue)
          (s.removeLoop life delegate delegateQueue i) 0 := by
  intro i
  induction i with
  | zero =>
      intro s hlisted hordered _ hgone
      exact ⟨.refl hlisted hordered, hgone⟩
  | succ i ih =>
      intro s hlisted hordered hi hgone
      obtain ⟨hcleared, hgone', hi'⟩ := removeAt_spec hlisted hordered hi hgone
      obtain ⟨hrest, hall⟩ := ih hcleared.listed hcleared.ordered hi' hgone'
      exact ⟨hcleared.trans hrest, hall⟩

end Remove

/-- Clearing the nodes of a list, one after the other. -/
theorem getElem?_foldl_clear (ns : List Nat) : ∀ (s : EnumeratedDelegate D Q) (n : Nat),
    (ns.foldl clear s).nodes[n]? =
      s.nodes[n]?.map fun node => if n ∈ ns then { node with delegate := none } else node := by
  induction ns with
  | nil =>
      intro s n
      simp
  | cons m ns ih =>
      intro s n
      rw [List.foldl_cons, ih, getElem?_clear, Option.map_map]
      congr 1
      funext node
      by_cases hmn : m = n
      · simp [hmn]
      · simp [hmn, Ne.symm hmn]

theorem foldl_clear_same (ns : List Nat) : ∀ (s : EnumeratedDelegate D Q),
    (ns.foldl clear s).nodes.length = s.nodes.length ∧ (ns.foldl clear s).clock = s.clock ∧
      (ns.foldl clear s).enumerators = s.enumerators := by
  induction ns with
  | nil =>
      intro s
      exact ⟨rfl, rfl, rfl⟩
  | cons n ns ih =>
      intro s
      obtain ⟨hlength, hclock, henumerators⟩ := ih (s.clear n)
      exact ⟨hlength.trans (List.length_modify ..), hclock, henumerators⟩

/-- `removeAllDelegates` clears every node that is not cleared yet. -/
theorem removeAllDelegates_spec {s : EnumeratedDelegate D Q}
    (hlisted : ∀ n, n ∈ s.delegateNodes ↔ ∃ d q, s.nodes[n]? = some ⟨some d, q⟩) :
    Cleared (fun _ _ => True) s s.removeAllDelegates ∧
      ∀ (n : Nat) d q, s.removeAllDelegates.nodes[n]? ≠ some ⟨some d, q⟩ := by
  obtain ⟨hlength, hclock, henumerators⟩ := foldl_clear_same s.delegateNodes s
  have hnodes : ∀ n : Nat, s.removeAllDelegates.nodes[n]? =
      s.nodes[n]?.map fun node => { node with delegate := none } := by
    intro n
    refine (getElem?_foldl_clear s.delegateNodes s n).trans ?_
    cases hn : s.nodes[n]? with
    | none => rfl
    | some node =>
        by_cases hmem : n ∈ s.delegateNodes
        · simp [hmem]
        · cases hd : node.delegate with
          | none =>
              obtain ⟨d, q⟩ := node
              simp only at hd
              simp [hmem, hd]
          | some d => exact absurd ((hlisted n).mpr ⟨d, node.delegateQueue, by rw [hn, ← hd]⟩) hmem
  have hnone : ∀ (n : Nat) d q, s.removeAllDelegates.nodes[n]? ≠ some ⟨some d, q⟩ := by
    intro n d q
    rw [hnodes]
    cases s.nodes[n]? <;> simp
  refine ⟨?_, hnone⟩
  exact
    { node := by
        intro n node hn
        exact .inr ⟨by rw [hnodes, hn]; rfl, fun _ _ => trivial⟩
      length := hlength
      clock := Nat.le_of_eq hclock.symm
      enumerators := henumerators
      listed := by
        intro n
        constructor
        · intro hmem
          cases hmem
        · rintro ⟨d, q, hn⟩
          exact absurd hn (hnone n d q)
      ordered := List.Pairwise.nil }

/-! ## A step and the registrations -/

theorem registrations_append (es es' : List (DelegateEvent D Q C)) :
    registrations (es ++ es') = registrations es ++ registrations es' :=
  List.filterMap_append

theorem registrations_stays {es es' : List (DelegateEvent D Q C)} {n : Nat} {r : D × Q}
    (h : (registrations es)[n]? = some r) : (registrations (es ++ es'))[n]? = some r := by
  rw [registrations_append]
  exact (List.getElem?_append_left (List.getElem?_eq_some_iff.mp h).1).trans h

/-- What was removed was removed before, or is by the last call. -/
theorem removed_concat {es : List (DelegateEvent D Q C)} {event : DelegateEvent D Q C} {n : Nat} :
    Removed (es ++ [event]) n ↔ Removed es n ∨ ∃ delegate delegateQueue,
      (registrations es)[n]? = some (delegate, delegateQueue) ∧
        event.Removes delegate delegateQueue := by
  constructor
  · rintro ⟨before, event', after, d, q, hes, hreg, hremoves⟩
    rcases List.eq_nil_or_concat after with rfl | ⟨after', last, rfl⟩
    · obtain ⟨rfl, hevent⟩ := List.append_inj' hes rfl
      cases hevent
      exact .inr ⟨d, q, hreg, hremoves⟩
    · have hes' : es ++ [event] = (before ++ event' :: after') ++ [last] := by simp [hes]
      obtain ⟨rfl, -⟩ := List.append_inj' hes' rfl
      exact .inl ⟨before, event', after', d, q, rfl, hreg, hremoves⟩
  · rintro (⟨before, event', after, d, q, rfl, hreg, hremoves⟩ | ⟨d, q, hreg, hremoves⟩)
    · exact ⟨before, event', after ++ [event], d, q, by simp, hreg, hremoves⟩
    · exact ⟨es, event, [], d, q, rfl, hreg, hremoves⟩

namespace Registered

variable {world : DelegateWorld D C} {es : List (DelegateEvent D Q C)} {s s' : EnumeratedDelegate D Q}
  {event : DelegateEvent D Q C}

theorem init : Registered world ([] : List (DelegateEvent D Q C)) EnumeratedDelegate.init where
  length := rfl
  node := by simp [registrations]
  removed := by simp [EnumeratedDelegate.init]
  listed := by simp [EnumeratedDelegate.init]
  ordered := List.Pairwise.nil

/-- A removed registration is one of those made. -/
theorem removed_lt {n : Nat} (h : Removed es n) :
    ∃ delegate delegateQueue, (registrations es)[n]? = some (delegate, delegateQueue) := by
  obtain ⟨before, event, after, d, q, rfl, hreg, -⟩ := h
  exact ⟨d, q, registrations_stays hreg⟩

/-- A call that takes registrations away. -/
theorem cleared (h : Registered world es s) (hreg : registrations [event] = [])
    {wanted : D → Q → Prop} (hwanted : ∀ d q, wanted d q ↔ event.Removes d q)
    (hcleared : Cleared wanted s s')
    (hgone : ∀ (n : Nat) d q, s'.nodes[n]? = some ⟨some d, q⟩ → wanted d q →
      world.life.alive s'.clock d = false) : Registered world (es ++ [event]) s' := by
  have hregs : registrations (es ++ [event]) = registrations es := by
    rw [registrations_append, hreg, List.append_nil]
  exact
    { length := by rw [hregs, hcleared.length, h.length]
      node := by
        intro n d q hn
        rw [hregs] at hn
        rcases h.node n d q hn with hsame | ⟨hnone, hremoved⟩
        · rcases hcleared.node n _ hsame with hsame' | ⟨hnone', hw⟩
          · exact .inl hsame'
          · exact .inr ⟨hnone', removed_concat.mpr
              (.inr ⟨d, q, hn, (hwanted d q).mp (hw d rfl)⟩)⟩
        · rcases hcleared.node n _ hnone with hnone' | ⟨hnone', -⟩
          · exact .inr ⟨hnone', removed_concat.mpr (.inl hremoved)⟩
          · exact .inr ⟨hnone', removed_concat.mpr (.inl hremoved)⟩
      removed := by
        intro n node d hremoved hn hd
        obtain ⟨d', q'⟩ := node
        simp only at hd
        subst hd
        obtain ⟨d₀, q₀, hn₀⟩ := removed_lt hremoved
        rw [hregs] at hn₀
        -- a node that is not cleared is as it was, and as it was registered
        have hbefore : s.nodes[n]? = some ⟨some d₀, q₀⟩ ∧ d = d₀ ∧ q' = q₀ := by
          rcases h.node n d₀ q₀ hn₀ with hsame | ⟨hnone, -⟩
          · rcases hcleared.node n _ hsame with hsame' | ⟨hnone', -⟩
            · have heq := Option.some.inj (hn.symm.trans hsame')
              exact ⟨hsame, by simpa using heq⟩
            · simp [hnone'] at hn
          · rcases hcleared.node n _ hnone with hnone' | ⟨hnone', -⟩
            · simp [hnone'] at hn
            · simp [hnone'] at hn
        obtain ⟨hsame, rfl, rfl⟩ := hbefore
        rcases removed_concat.mp hremoved with hold | ⟨d₁, q₁, hn₁, hremoves⟩
        · exact EnumeratedDelegate.not_alive_mono hcleared.clock (h.removed n _ d hold hsame rfl)
        · obtain ⟨rfl, rfl⟩ : d = d₁ ∧ q' = q₁ := by
            simpa using Option.some.inj (hn₀.symm.trans hn₁)
          exact hgone n d q' hn ((hwanted d q').mpr hremoves)
      listed := hcleared.listed
      ordered := hcleared.ordered }

/-- A call that leaves nodes and list alone. -/
theorem same (h : Registered world es s) (hreg : registrations [event] = [])
    (hremoves : ∀ d q, ¬ event.Removes d q) (hnodes : s'.nodes = s.nodes)
    (hlist : s'.delegateNodes = s.delegateNodes) (hclock : s.clock ≤ s'.clock) :
    Registered world (es ++ [event]) s' := by
  have hregs : registrations (es ++ [event]) = registrations es := by
    rw [registrations_append, hreg, List.append_nil]
  have hremoved : ∀ n, Removed (es ++ [event]) n ↔ Removed es n := by
    intro n
    rw [removed_concat, or_iff_left]
    rintro ⟨d, q, -, hr⟩
    exact hremoves d q hr
  exact
    { length := by rw [hregs, hnodes, h.length]
      node := by
        intro n d q hn
        rw [hregs] at hn
        rw [hnodes, hremoved]
        exact h.node n d q hn
      removed := by
        intro n node d hr hn hd
        rw [hremoved] at hr
        rw [hnodes] at hn
        exact EnumeratedDelegate.not_alive_mono hclock (h.removed n node d hr hn hd)
      listed := by
        intro n
        rw [hlist, hnodes]
        exact h.listed n
      ordered := by
        rw [hlist]
        exact h.ordered }

theorem add [DecidableEq Q] (h : Registered world es s) (delegate : D) (delegateQueue : Q) :
    Registered world (es ++ [.addDelegate (some delegate) (some delegateQueue)])
      (s.addDelegate (some delegate) (some delegateQueue)) := by
  have hregs : registrations (es ++ [.addDelegate (some delegate) (some delegateQueue)]) =
      registrations es ++ [(delegate, delegateQueue)] := registrations_append ..
  have hlen := h.length
  have hremoved : ∀ n,
      Removed (es ++ [.addDelegate (some delegate) (some delegateQueue)]) n ↔ Removed es n := by
    intro n
    rw [removed_concat, or_iff_left]
    rintro ⟨d, q, -, hr⟩
    exact hr
  have hnodes : ∀ (n : Nat) node,
      (s.addDelegate (some delegate) (some delegateQueue)).nodes[n]? = some node →
      s.nodes[n]? = some node ∨
        n = s.nodes.length ∧ node = ⟨some delegate, delegateQueue⟩ := by
    intro n node hn
    simp only [EnumeratedDelegate.addDelegate, List.getElem?_append] at hn
    split at hn
    · exact .inl hn
    next hge =>
      rw [List.getElem?_singleton] at hn
      split at hn
      next hzero => exact .inr ⟨by omega, (Option.some.inj hn).symm⟩
      next => cases hn
  have hold : ∀ (n : Nat) node, s.nodes[n]? = some node →
      (s.addDelegate (some delegate) (some delegateQueue)).nodes[n]? = some node := by
    intro n node hn
    exact (List.getElem?_append_left (List.getElem?_eq_some_iff.mp hn).1).trans hn
  have hnew : (s.addDelegate (some delegate) (some delegateQueue)).nodes[s.nodes.length]? =
      some ⟨some delegate, delegateQueue⟩ := List.getElem?_concat_length
  exact
    { length := by
        rw [hregs]
        simp [EnumeratedDelegate.addDelegate, hlen]
      node := by
        intro n d q hn
        rw [hregs, List.getElem?_append] at hn
        split at hn
        · rw [hremoved]
          exact (h.node n d q hn).imp (hold n _) fun hr => ⟨hold n _ hr.1, hr.2⟩
        next hge =>
          rw [List.getElem?_singleton] at hn
          split at hn
          next hzero =>
            cases hn
            have hn : n = s.nodes.length := by omega
            exact .inl (hn ▸ hnew)
          next => cases hn
      removed := by
        intro n node d hr hn hd
        rw [hremoved] at hr
        rcases hnodes n node hn with hsame | ⟨rfl, -⟩
        · exact h.removed n node d hr hsame hd
        · obtain ⟨d', q', hreg⟩ := removed_lt hr
          have := (List.getElem?_eq_some_iff.mp hreg).1
          omega
      listed := by
        intro n
        show n ∈ s.delegateNodes ++ [s.nodes.length] ↔ _
        rw [List.mem_append, List.mem_singleton, h.listed]
        constructor
        · rintro (⟨d, q, hn⟩ | rfl)
          · exact ⟨d, q, hold n _ hn⟩
          · exact ⟨delegate, delegateQueue, hnew⟩
        · rintro ⟨d, q, hn⟩
          rcases hnodes n _ hn with hsame | ⟨hlast, -⟩
          · exact .inl ⟨d, q, hsame⟩
          · exact .inr hlast
      ordered := by
        show (s.delegateNodes ++ [s.nodes.length]).Pairwise (· < ·)
        rw [List.pairwise_append]
        refine ⟨h.ordered, List.pairwise_singleton _ _, fun n hn m hm => ?_⟩
        obtain ⟨d, q, hnode⟩ := (h.listed n).mp hn
        rw [List.mem_singleton.mp hm]
        exact (List.getElem?_eq_some_iff.mp hnode).1 }

end Registered

/-! ## The object that forwards -/

/-- What a node refers to, unless it is cleared. -/
def uncleared (nodes : List (RxMultipleDelegateNode (Option D) Q)) (n : Nat) :
    Option (RxMultipleDelegateNode D Q) :=
  nodes[n]?.bind fun node => node.delegate.map fun delegate => ⟨delegate, node.delegateQueue⟩

/-- The object as `forwardInvocation:` goes through it. -/
def toMultipleDelegate (s : EnumeratedDelegate D Q) : RxMultipleDelegate D Q where
  delegateNodes := s.delegateNodes.filterMap (uncleared s.nodes)
  marked := s.marked

/-- To the object that forwards, a delegate is added as it is to this one. -/
theorem Registered.toMultipleDelegate_addDelegate [DecidableEq Q] {world : DelegateWorld D C}
    {es : List (DelegateEvent D Q C)} {s : EnumeratedDelegate D Q} (h : Registered world es s)
    (delegate : Option D) (delegateQueue : Option Q) :
    (s.addDelegate delegate delegateQueue).toMultipleDelegate =
      s.toMultipleDelegate.addDelegate delegate delegateQueue := by
  cases delegate with
  | none => rfl
  | some delegate =>
      cases delegateQueue with
      | none => rfl
      | some delegateQueue =>
          have hold : ∀ n ∈ s.delegateNodes,
              uncleared (s.nodes ++ [⟨some delegate, delegateQueue⟩]) n = uncleared s.nodes n := by
            intro n hn
            obtain ⟨d, q, hnode⟩ := (h.listed n).mp hn
            rw [uncleared, List.getElem?_append_left (List.getElem?_eq_some_iff.mp hnode).1]
            rfl
          have hnew : uncleared (s.nodes ++ [⟨some delegate, delegateQueue⟩]) s.nodes.length =
              some ⟨delegate, delegateQueue⟩ := by
            rw [uncleared, List.getElem?_concat_length]
            rfl
          simp only [addDelegate, toMultipleDelegate, RxMultipleDelegate.addDelegate,
            List.filterMap_append, List.filterMap_congr hold, List.filterMap_cons, hnew,
            List.filterMap_nil]

end EnumeratedDelegate

/-! ## The loop of an enumerator -/

namespace RxMultipleDelegateEnumerator

/-- An enumerator of numbered nodes, and what it returned so far. -/
structure InOrder (next : Nat) (e : RxMultipleDelegateEnumerator) :
    Prop where
  length : e.numNodes = e.delegateNodes.length
  index : e.currentNodeIndex ≤ e.numNodes
  ordered : e.delegateNodes.Pairwise (· < ·)
  known : ∀ n ∈ e.delegateNodes, n < next
  returned : e.returned.Sublist (e.delegateNodes.take e.currentNodeIndex)

/-- From index `i` to `j`, what the nodes refer to is gone by read `t` or fails the test. -/
def Passed (life : Lifetime D) (test : Option D → Bool)
    (nodes : List (RxMultipleDelegateNode (Option D) Q)) (snapshot : List Nat) (i j t : Nat) : Prop :=
  ∀ (m n : Nat) delegate delegateQueue, i ≤ m → m < j → snapshot[m]? = some n →
    nodes[n]? = some ⟨some delegate, delegateQueue⟩ →
    life.alive t delegate = false ∨ test (some delegate) = false

variable {life : Lifetime D} {test : Option D → Bool}
  {nodes : List (RxMultipleDelegateNode (Option D) Q)} {e : RxMultipleDelegateEnumerator} {t : Nat}

/-- What a call leaves as it was, and how far it goes. -/
structure Advances (e e' : RxMultipleDelegateEnumerator) (t t' : Nat) : Prop where
  numNodes : e'.numNodes = e.numNodes
  delegateNodes : e'.delegateNodes = e.delegateNodes
  index : e.currentNodeIndex ≤ e'.currentNodeIndex
  bound : e'.currentNodeIndex ≤ e.delegateNodes.length
  clock : t ≤ t'

/-- What a call finds. -/
def Finds (life : Lifetime D) (test : Option D → Bool)
    (nodes : List (RxMultipleDelegateNode (Option D) Q)) (e e' : RxMultipleDelegateEnumerator)
    (t t' : Nat) : Option (Option D × Q) → Prop
  | none => e'.returned = e.returned ∧
      Passed life test nodes e.delegateNodes e.currentNodeIndex e.delegateNodes.length t'
  | some (nodeDelegate, delegateQueue) => ∃ i n node, e.currentNodeIndex ≤ i ∧
      e'.currentNodeIndex = i + 1 ∧ e.delegateNodes[i]? = some n ∧
      e'.returned = e.returned ++ [n] ∧ nodes[n]? = some node ∧
      (∃ u, t ≤ u ∧ node.read life u = nodeDelegate) ∧ node.delegateQueue = delegateQueue ∧
      test nodeDelegate = true ∧
      Passed life test nodes e.delegateNodes e.currentNodeIndex i t'

/-- A node that failed the test stays passed. -/
theorem passed_of_read {n : Nat} {node : RxMultipleDelegateNode (Option D) Q}
    (hnode : nodes[n]? = some node) (htest : ¬ test (node.read life t) = true) {t' : Nat}
    (hle : t ≤ t') {delegate : D} {delegateQueue : Q}
    (hsome : nodes[n]? = some ⟨some delegate, delegateQueue⟩) :
    life.alive t' delegate = false ∨ test (some delegate) = false := by
  rw [Option.some.inj (hnode.symm.trans hsome), RxMultipleDelegateNode.read] at htest
  cases halive : life.alive t delegate with
  | true =>
      right
      simpa [Option.filter, halive] using htest
  | false => exact .inl (EnumeratedDelegate.not_alive_mono hle halive)

/-- One more node passed, before the others. -/
theorem Passed.cons {snapshot : List Nat} {i j n : Nat} (hn : snapshot[i]? = some n)
    (hfirst : ∀ delegate delegateQueue, nodes[n]? = some ⟨some delegate, delegateQueue⟩ →
      life.alive t delegate = false ∨ test (some delegate) = false)
    (hrest : Passed life test nodes snapshot (i + 1) j t) :
    Passed life test nodes snapshot i j t := by
  intro m n' d q hm hlt hn' hd
  rcases Nat.eq_or_lt_of_le hm with rfl | hlater
  · obtain rfl := Option.some.inj (hn.symm.trans hn')
    exact hfirst d q hd
  · exact hrest m n' d q hlater hlt hn' hd

theorem nextLoop_spec (hknown : ∀ n ∈ e.delegateNodes, ∃ node, nodes[n]? = some node)
    {rounds : Nat} : ∀ (e' : RxMultipleDelegateEnumerator) (t : Nat),
      e'.delegateNodes = e.delegateNodes →
      e'.currentNodeIndex + rounds = e.delegateNodes.length →
      Advances e' (nextLoop life test nodes rounds e' t).1 t
          (nextLoop life test nodes rounds e' t).2.1 ∧
        Finds life test nodes e' (nextLoop life test nodes rounds e' t).1 t
          (nextLoop life test nodes rounds e' t).2.1
          (nextLoop life test nodes rounds e' t).2.2 := by
  induction rounds with
  | zero =>
      intro e' t hsnapshot hlen
      have hbound : e'.currentNodeIndex ≤ e'.delegateNodes.length := by
        rw [hsnapshot]
        omega
      refine ⟨⟨rfl, rfl, Nat.le_refl _, hbound, Nat.le_refl _⟩, rfl, ?_⟩
      intro m n d q hm hlt
      rw [hsnapshot] at hlt
      omega
  | succ rounds ih =>
      intro e' t hsnapshot hlen
      obtain ⟨n, hn⟩ : ∃ n, e'.delegateNodes[e'.currentNodeIndex]? = some n :=
        ⟨_, List.getElem?_eq_getElem (by rw [hsnapshot]; omega)⟩
      obtain ⟨node, hnode⟩ := hknown n (hsnapshot ▸ List.mem_of_getElem? hn)
      by_cases htest : test (node.read life t) = true
      · -- the node at the index is returned
        have hloop : nextLoop life test nodes (rounds + 1) e' t =
            ({ e' with
                currentNodeIndex := e'.currentNodeIndex + 1
                returned := e'.returned ++ [n] }, t + 1,
              some (node.read life t, node.delegateQueue)) := by
          simp [nextLoop, hn, hnode, htest]
        rw [hloop]
        have hbound : e'.currentNodeIndex + 1 ≤ e'.delegateNodes.length := by
          rw [hsnapshot]
          omega
        refine ⟨⟨rfl, rfl, Nat.le_succ _, hbound, Nat.le_succ _⟩,
          e'.currentNodeIndex, n, node, Nat.le_refl _, rfl, hn, rfl, hnode,
          ⟨t, Nat.le_refl _, rfl⟩, rfl, htest, ?_⟩
        intro m _ _ _ hm hlt
        omega
      · -- it is passed over, and the loop goes on
        have hloop : nextLoop life test nodes (rounds + 1) e' t =
            nextLoop life test nodes rounds
              { e' with currentNodeIndex := e'.currentNodeIndex + 1 } (t + 1) := by
          simp [nextLoop, hn, hnode, htest]
        obtain ⟨hadvances, hfinds⟩ :=
          ih { e' with currentNodeIndex := e'.currentNodeIndex + 1 } (t + 1) hsnapshot
            (by show e'.currentNodeIndex + 1 + rounds = _; omega)
        rw [hloop]
        revert hadvances hfinds
        generalize nextLoop life test nodes rounds
          { e' with currentNodeIndex := e'.currentNodeIndex + 1 } (t + 1) = outcome
        obtain ⟨e'', t'', result⟩ := outcome
        intro hadvances hfinds
        have hclock : t ≤ t'' := Nat.le_of_succ_le hadvances.clock
        have hextend : ∀ j,
            Passed life test nodes e'.delegateNodes (e'.currentNodeIndex + 1) j t'' →
            Passed life test nodes e'.delegateNodes e'.currentNodeIndex j t'' := by
          intro j hrest
          exact hrest.cons hn fun _ _ hsome => passed_of_read hnode htest hclock hsome
        refine ⟨⟨hadvances.numNodes, hadvances.delegateNodes,
          Nat.le_of_succ_le hadvances.index, hadvances.bound, hclock⟩, ?_⟩
        cases result with
        | none => exact ⟨hfinds.1, hextend _ hfinds.2⟩
        | some found =>
            obtain ⟨i, m, node', hi, hindex, hm, hreturned, hnode', ⟨u, hu, hread⟩, hrest⟩ :=
              hfinds
            exact ⟨i, m, node', Nat.le_of_succ_le hi, hindex, hm, hreturned, hnode',
              ⟨u, Nat.le_of_succ_le hu, hread⟩, hrest.1, hrest.2.1, hextend i hrest.2.2⟩

variable (life test) in
/-- A call on an enumerator in order. -/
theorem next_spec (he : e.InOrder nodes.length) (t : Nat) :
    Advances e (next life test nodes e t).1 t (next life test nodes e t).2.1 ∧
      Finds life test nodes e (next life test nodes e t).1 t (next life test nodes e t).2.1
        (next life test nodes e t).2.2 := by
  have hindex := he.index
  have hlength := he.length
  refine nextLoop_spec (e := e) ?_ e t rfl (by omega)
  intro n hn
  exact ⟨_, List.getElem?_eq_getElem (he.known n hn)⟩

/-- An enumerator stays in order. -/
theorem InOrder.next (he : e.InOrder nodes.length) (t : Nat) :
    (next life test nodes e t).1.InOrder nodes.length := by
  obtain ⟨hadvances, hfinds⟩ := next_spec life test he t
  revert hadvances hfinds
  generalize RxMultipleDelegateEnumerator.next life test nodes e t = outcome
  obtain ⟨e', t', result⟩ := outcome
  intro hadvances hfinds
  have hlonger : (e.delegateNodes.take e.currentNodeIndex).Sublist
      (e.delegateNodes.take e'.currentNodeIndex) :=
    (List.take_prefix_take_left hadvances.index).sublist
  exact
    { length := by rw [hadvances.numNodes, hadvances.delegateNodes, he.length]
      index := by rw [hadvances.numNodes, he.length]; exact hadvances.bound
      ordered := by rw [hadvances.delegateNodes]; exact he.ordered
      known := by rw [hadvances.delegateNodes]; exact he.known
      returned := by
        rw [hadvances.delegateNodes]
        cases result with
        | none =>
            rw [hfinds.1]
            exact he.returned.trans hlonger
        | some found =>
            obtain ⟨i, n, node, hi, hindex, hn, hreturned, -⟩ := hfinds
            rw [hreturned, hindex, List.take_add_one, hn]
            have hbefore : (e.delegateNodes.take e.currentNodeIndex).Sublist
                (e.delegateNodes.take i) := (List.take_prefix_take_left hi).sublist
            exact (he.returned.trans hbefore).append (List.Sublist.refl [n]) }

theorem InOrder.mono {next next' : Nat} (he : e.InOrder next) (hle : next ≤ next') :
    e.InOrder next' where
  length := he.length
  index := he.index
  ordered := he.ordered
  known := fun n hn => Nat.lt_of_lt_of_le (he.known n hn) hle
  returned := he.returned

end RxMultipleDelegateEnumerator

/-! ## Runs -/

/-- The condition of a filter, as its method tests it. -/
def DelegateFilter.test (world : DelegateWorld D C) : DelegateFilter C → Option D → Bool
  | .any => fun nodeDelegate => nodeDelegate.isSome
  | .ofClass aClass => fun nodeDelegate => nodeDelegate.any (world.isKindOfClass · aClass)
  | .forSelector aSelector => fun nodeDelegate =>
      nodeDelegate.any (world.respondsToSelector · aSelector)

namespace EnumeratedDelegate

section Runs

variable [DecidableEq D] [DecidableEq Q] {world : DelegateWorld D C}
  {es : List (DelegateEvent D Q C)} {s : EnumeratedDelegate D Q}

omit [DecidableEq D] [DecidableEq Q] in
theorem answer_eq (world : DelegateWorld D C) (s : EnumeratedDelegate D Q)
    (e : RxMultipleDelegateEnumerator) (filter : DelegateFilter C) :
    s.answer world e filter = e.next world.life (filter.test world) s.nodes s.clock := by
  cases filter <;> rfl

/-- The nodes stand for the registrations, and all enumerators are in order. -/
structure Sound (world : DelegateWorld D C) (es : List (DelegateEvent D Q C))
    (s : EnumeratedDelegate D Q) : Prop where
  registered : Registered world es s
  inOrder : ∀ e ∈ s.enumerators, e.InOrder s.nodes.length

theorem Sound.removeDelegate (h : Sound world es s) (delegate : D) (delegateQueue : Option Q) :
    Sound world (es ++ [.removeDelegate (some delegate) delegateQueue])
      (s.removeDelegate world.life (some delegate) delegateQueue) := by
  obtain ⟨hcleared, hgone⟩ := EnumeratedDelegate.removeLoop_spec world.life delegate
    delegateQueue h.registered.listed h.registered.ordered (Nat.le_refl _) (by
      intro j n d q hj hn
      have := (List.getElem?_eq_some_iff.mp hn).1
      omega)
  have hwanted : ∀ d q, EnumeratedDelegate.Wanted delegate delegateQueue d q ↔
      (DelegateEvent.removeDelegate (some delegate) delegateQueue : DelegateEvent D Q C).Removes
        d q := by
    intro d q
    cases delegateQueue <;> simp [EnumeratedDelegate.Wanted, DelegateEvent.Removes, eq_comm]
  refine ⟨h.registered.cleared rfl hwanted hcleared ?_, ?_⟩
  · intro n d q hn hw
    obtain ⟨j, hj⟩ := List.mem_iff_getElem?.mp ((hcleared.listed n).mpr ⟨d, q, hn⟩)
    exact hgone j n d q (Nat.zero_le j) hj hn hw
  · show ∀ e ∈ (s.removeLoop _ _ _ _).enumerators, e.InOrder (s.removeLoop _ _ _ _).nodes.length
    rw [hcleared.enumerators, hcleared.length]
    exact h.inOrder

/-- A call keeps nodes and registrations together. -/
theorem Sound.step (h : Sound world es s) (event : DelegateEvent D Q C) :
    Sound world (es ++ [event]) (s.step world event) := by
  have hstill : ∀ event' : DelegateEvent D Q C, registrations [event'] = [] →
      (∀ d q, ¬ event'.Removes d q) → Sound world (es ++ [event']) s := by
    intro event' hreg hremoves
    exact ⟨h.registered.same hreg hremoves rfl rfl (Nat.le_refl _), h.inOrder⟩
  cases event with
  | addDelegate delegate delegateQueue =>
      cases delegate with
      | none => exact hstill _ rfl fun _ _ hr => hr
      | some delegate =>
          cases delegateQueue with
          | none => exact hstill _ rfl fun _ _ hr => hr
          | some delegateQueue =>
              refine ⟨h.registered.add delegate delegateQueue, fun e he => ?_⟩
              refine (h.inOrder e he).mono ?_
              show s.nodes.length ≤ (s.nodes ++ [_]).length
              simp
  | removeDelegate delegate delegateQueue =>
      cases delegate with
      | none => exact hstill _ rfl fun _ _ hr => hr
      | some delegate => exact h.removeDelegate delegate delegateQueue
  | removeAllDelegates =>
      obtain ⟨hcleared, hnone⟩ := EnumeratedDelegate.removeAllDelegates_spec h.registered.listed
      refine ⟨h.registered.cleared rfl (fun _ _ => Iff.rfl) hcleared
        fun n d q hn _ => absurd hn (hnone n d q), ?_⟩
      show ∀ e ∈ s.removeAllDelegates.enumerators, e.InOrder s.removeAllDelegates.nodes.length
      rw [hcleared.enumerators, hcleared.length]
      exact h.inOrder
  | delegateEnumerator =>
      refine ⟨h.registered.same rfl (fun _ _ hr => hr) rfl rfl (Nat.le_refl _), ?_⟩
      intro e he
      rcases List.mem_append.mp he with hold | hnew
      · exact h.inOrder e hold
      · rw [List.mem_singleton.mp hnew]
        exact
          { length := rfl
            index := Nat.zero_le _
            ordered := h.registered.ordered
            known := by
              intro n hn
              obtain ⟨d, q, hnode⟩ := (h.registered.listed n).mp hn
              exact (List.getElem?_eq_some_iff.mp hnode).1
            returned := List.nil_sublist _ }
  | getNextDelegate k filter =>
      cases hk : s.enumerators[k]? with
      | none =>
          simp only [EnumeratedDelegate.step, hk]
          exact hstill _ rfl fun _ _ hr => hr
      | some e =>
          have he := h.inOrder e (List.mem_of_getElem? hk)
          simp only [EnumeratedDelegate.step, hk, EnumeratedDelegate.answer_eq]
          have hadvances := (RxMultipleDelegateEnumerator.next_spec world.life
            (filter.test world) he s.clock).1
          refine ⟨h.registered.same rfl (fun _ _ hr => hr) rfl rfl hadvances.clock, ?_⟩
          intro e' he'
          rcases List.mem_or_eq_of_mem_set he' with hold | rfl
          · exact h.inOrder e' hold
          · exact he.next s.clock

end Runs

/-! ## What an enumerator returns -/

section Answers

variable {world : DelegateWorld D C} {es : List (DelegateEvent D Q C)}
  {s : EnumeratedDelegate D Q}

/-- A registration that was not removed is in the list. -/
theorem Registered.mem (h : Registered world es s) {n : Nat} {delegate : D} {delegateQueue : Q}
    (hreg : (registrations es)[n]? = some (delegate, delegateQueue)) (hlive : ¬ Removed es n) :
    n ∈ s.delegateNodes := by
  rcases h.node n delegate delegateQueue hreg with hsame | ⟨-, hremoved⟩
  · exact (h.listed n).mpr ⟨delegate, delegateQueue, hsame⟩
  · exact absurd hremoved hlive

end Answers

end EnumeratedDelegate

end

namespace EnumeratedDelegate

end EnumeratedDelegate

end Rx
