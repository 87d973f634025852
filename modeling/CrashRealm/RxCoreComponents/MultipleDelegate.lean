/-
# `RxCoreComponents.MultipleDelegate` — one invocation, many delegates, their queues

`RxMultipleDelegate` forwards an invocation to every delegate that responds to its
selector, each on the queue it was added with.  Its nodes refer to the delegates
weakly: what is read from a node is `nil` once the delegate is gone.  A delegate
may go at any time, also between two reads of one `forwardInvocation:`, so reads
are numbered and a delegate is there up to some read.  The model is the
`TARGET_OS_IPHONE` one, without delegates that cannot be referred to weakly, and
the delegates' methods do not edit the list while it is gone through.

`addDelegate:delegateQueue:` marks the queue.  Whether an invocation is dispatched
or made directly is read off the mark of the *calling* queue, which every queue of
the object carries; `forwardInvocation_delivers_iff` says when that is right.
-/
import Mathlib.Data.List.Basic

namespace Rx

/-! ## Invocations -/

structure NSException where
  name : String
  reason : String
  deriving DecidableEq, Repr

/-- A selector with its arguments, each with the first letter of its `@encode`
type; the arguments `self` and `_cmd` are left out. -/
structure NSInvocation (V : Type) where
  selector : String
  arguments : List (Char × V)
  deriving DecidableEq, Repr

namespace NSInvocation

variable {V : Type}

/-- `BOOL`, the integers, the floats and objects, as a 64-bit compiler encodes them. -/
def supportedTypes : List Char :=
  ['B', 'c', 'C', 's', 'S', 'i', 'I', 'q', 'Q', 'd', 'f', '@']

def notSupported (selector : String) (i : Nat) (type : Char) : NSException where
  name := "NSInvalidArgumentException"
  reason := "Argument " ++ toString i ++ " to method " ++ selector ++ " - Type(" ++
    String.singleton type ++ ") not supported"

/-- The loop of `duplicateInvocation:`, at argument `i`. -/
def duplicateArguments (selector : String) : Nat → List (Char × V) →
    Except NSException (List (Char × V))
  | _, [] => .ok []
  | i, (type, value) :: arguments =>
      if type ∈ supportedTypes then do
        let duplicates ← duplicateArguments selector (i + 1) arguments
        .ok ((type, value) :: duplicates)
      else .error (notSupported selector i type)

def duplicateInvocation (origInvocation : NSInvocation V) : Except NSException (NSInvocation V) := do
  let arguments ← duplicateArguments origInvocation.selector 0 origInvocation.arguments
  .ok { selector := origInvocation.selector, arguments }

/-- All arguments are of supported types. -/
def Supported (invocation : NSInvocation V) : Prop :=
  ∀ argument ∈ invocation.arguments, argument.1 ∈ supportedTypes

theorem duplicateArguments_ok {selector : String} {arguments : List (Char × V)} :
    ∀ {i : Nat}, (∀ argument ∈ arguments, argument.1 ∈ supportedTypes) →
      duplicateArguments selector i arguments = .ok arguments := by
  induction arguments with
  | nil =>
      intro i _
      rfl
  | cons argument arguments ih =>
      intro i h
      rw [duplicateArguments, if_pos (h argument List.mem_cons_self),
        ih fun argument hmem => h argument (List.mem_cons_of_mem _ hmem)]
      rfl

theorem supported_of_duplicateArguments {selector : String} {arguments duplicates : List (Char × V)} :
    ∀ {i : Nat}, duplicateArguments selector i arguments = .ok duplicates →
      ∀ argument ∈ arguments, argument.1 ∈ supportedTypes := by
  induction arguments generalizing duplicates with
  | nil =>
      intro i _ argument hmem
      cases hmem
  | cons argument arguments ih =>
      intro i h
      rw [duplicateArguments] at h
      split at h
      next htype =>
        cases hrest : duplicateArguments selector (i + 1) arguments with
        | error e =>
            rw [hrest] at h
            cases h
        | ok rest =>
            intro argument' hmem
            rcases List.mem_cons.mp hmem with rfl | hmem
            · exact htype
            · exact ih hrest argument' hmem
      next => cases h

/-- A duplicate is the invocation itself, and there is one for supported types only. -/
theorem duplicateInvocation_of_supported {invocation : NSInvocation V} (h : invocation.Supported) :
    invocation.duplicateInvocation = .ok invocation := by
  rw [duplicateInvocation, duplicateArguments_ok h]
  rfl

theorem supported_of_duplicateInvocation {invocation duplicate : NSInvocation V}
    (h : invocation.duplicateInvocation = .ok duplicate) : invocation.Supported := by
  rw [duplicateInvocation] at h
  cases hargs : duplicateArguments invocation.selector 0 invocation.arguments with
  | error e =>
      rw [hargs] at h
      cases h
  | ok arguments => exact supported_of_duplicateArguments hargs

end NSInvocation

/-! ## Nodes -/

/-- A weak reference to the delegate, and its queue. -/
structure RxMultipleDelegateNode (D Q : Type) where
  delegate : D
  delegateQueue : Q
  deriving DecidableEq, Repr

/-- The nodes, and the queues that carry the object's mark. -/
structure RxMultipleDelegate (D Q : Type) where
  delegateNodes : List (RxMultipleDelegateNode D Q)
  marked : Q → Bool

/-- The read from which on a delegate is gone, if it ever goes. -/
abbrev Lifetime (D : Type) := D → Option Nat

/-- The delegate is there at read `t`. -/
def Lifetime.alive {D : Type} (life : Lifetime D) (t : Nat) (d : D) : Bool :=
  match life d with
  | none => true
  | some gone => t < gone

/-- One call of a delegate: on which queue, with what. -/
structure Delivery (D Q V : Type) where
  target : D
  queue : Q
  invocation : NSInvocation V
  deriving DecidableEq, Repr

namespace RxMultipleDelegate

variable {D Q V : Type}

def init : RxMultipleDelegate D Q := ⟨[], fun _ => false⟩

/-- `addDelegate:delegateQueue:`, which puts the object's mark on the queue. -/
def addDelegate [DecidableEq Q] (m : RxMultipleDelegate D Q) (delegate : Option D)
    (delegateQueue : Option Q) : RxMultipleDelegate D Q :=
  match delegate, delegateQueue with
  | some delegate, some delegateQueue =>
      { delegateNodes := m.delegateNodes ++ [{ delegate, delegateQueue }]
        marked := fun q => q = delegateQueue || m.marked q }
  | _, _ => m

/-- `node.delegate`, at read `t`. -/
def nodeDelegate (life : Lifetime D) (t : Nat) (node : RxMultipleDelegateNode D Q) : Option D :=
  if life.alive t node.delegate then some node.delegate else none

/-- The loop of `forwardInvocation:` over the copied nodes, from read `t` on: what is
delivered, and `foundNilDelegate`. -/
def forwardLoop (life : Lifetime D) (responds : D → String → Bool) (current : Q)
    (shouldCallDispatch : Bool) (origInvocation : NSInvocation V) :
    Nat → List (RxMultipleDelegateNode D Q) → Except NSException (List (Delivery D Q V) × Bool)
  | _, [] => .ok ([], false)
  | t, node :: nodes =>
      match nodeDelegate life t node with
      | some target =>
          if responds target origInvocation.selector then do
            let dupInvocation ← origInvocation.duplicateInvocation
            -- `dispatch_async` to the delegate's queue, or a call on the current one
            let queue := if shouldCallDispatch then node.delegateQueue else current
            let (deliveries, foundNilDelegate) ←
              forwardLoop life responds current shouldCallDispatch origInvocation (t + 1) nodes
            .ok (⟨target, queue, dupInvocation⟩ :: deliveries, foundNilDelegate)
          else forwardLoop life responds current shouldCallDispatch origInvocation (t + 1) nodes
      | none => do
          let (deliveries, _) ←
            forwardLoop life responds current shouldCallDispatch origInvocation (t + 1) nodes
          .ok (deliveries, true)

/-- The nodes left after the loop that collects the indexes of `nil` delegates. -/
def removeNil (life : Lifetime D) : Nat → List (RxMultipleDelegateNode D Q) →
    List (RxMultipleDelegateNode D Q)
  | _, [] => []
  | t, node :: nodes =>
      match nodeDelegate life t node with
      | some _ => node :: removeNil life (t + 1) nodes
      | none => removeNil life (t + 1) nodes

/-- `forwardInvocation:`, called on the queue `current`. -/
def forwardInvocation (m : RxMultipleDelegate D Q) (life : Lifetime D)
    (responds : D → String → Bool) (current : Q) (origInvocation : NSInvocation V) :
    Except NSException (List (Delivery D Q V) × RxMultipleDelegate D Q) := do
  let shouldCallDispatch := !m.marked current
  let (deliveries, foundNilDelegate) ←
    forwardLoop life responds current shouldCallDispatch origInvocation 0 m.delegateNodes
  if foundNilDelegate then
    .ok (deliveries, { m with delegateNodes := removeNil life m.delegateNodes.length m.delegateNodes })
  else .ok (deliveries, m)

/-! ## What is promised -/

/-- The nodes whose delegate is there and responds when its turn comes; the turn of
a node is its place in the list, counted from `t`. -/
def responders (life : Lifetime D) (responds : D → String → Bool) (selector : String) (t : Nat)
    (nodes : List (RxMultipleDelegateNode D Q)) : List (RxMultipleDelegateNode D Q) :=
  ((nodes.zipIdx t).filter fun turn =>
    life.alive turn.2 turn.1.delegate && responds turn.1.delegate selector).map Prod.fst

/-- Every responder gets the invocation once, in the order of the list, on its own
queue.  Delegates gone before are dropped, and none that is still there is. -/
def Delivers (m : RxMultipleDelegate D Q) (life : Lifetime D) (responds : D → String → Bool)
    (invocation : NSInvocation V)
    (result : Except NSException (List (Delivery D Q V) × RxMultipleDelegate D Q)) : Prop :=
  ∃ deliveries m', result = .ok (deliveries, m') ∧
    deliveries = (responders life responds invocation.selector 0 m.delegateNodes).map
      (fun node => ⟨node.delegate, node.delegateQueue, invocation⟩) ∧
    (∀ node ∈ m'.delegateNodes, life.alive 0 node.delegate = true) ∧
    m'.delegateNodes.filter (fun node => life.alive (2 * m.delegateNodes.length) node.delegate) =
      m.delegateNodes.filter fun node => life.alive (2 * m.delegateNodes.length) node.delegate

/-! ## The loop -/

section

variable {life : Lifetime D} {responds : D → String → Bool} {current : Q}
  {shouldCallDispatch : Bool} {invocation : NSInvocation V}

theorem alive_mono {t u : Nat} (htu : t ≤ u) {d : D} (h : life.alive u d = true) :
    life.alive t d = true := by
  unfold Lifetime.alive at h ⊢
  split at h
  · rfl
  · exact decide_eq_true (Nat.lt_of_le_of_lt htu (of_decide_eq_true h))

theorem responders_cons (t : Nat) (node : RxMultipleDelegateNode D Q)
    (nodes : List (RxMultipleDelegateNode D Q)) (selector : String) :
    responders life responds selector t (node :: nodes) =
      if life.alive t node.delegate && responds node.delegate selector then
        node :: responders life responds selector (t + 1) nodes
      else responders life responds selector (t + 1) nodes := by
  rw [responders, List.zipIdx_cons, List.filter_cons]
  split <;> rfl

/-- What the loop delivers, if it does not raise. -/
def sent (current : Q) (shouldCallDispatch : Bool) (invocation : NSInvocation V)
    (node : RxMultipleDelegateNode D Q) : Delivery D Q V :=
  ⟨node.delegate, if shouldCallDispatch then node.delegateQueue else current, invocation⟩

/-- Some node's delegate is gone at its turn. -/
def someGone (life : Lifetime D) (t : Nat) (nodes : List (RxMultipleDelegateNode D Q)) : Bool :=
  (nodes.zipIdx t).any fun turn => !life.alive turn.2 turn.1.delegate

theorem someGone_cons (t : Nat) (node : RxMultipleDelegateNode D Q)
    (nodes : List (RxMultipleDelegateNode D Q)) :
    someGone life t (node :: nodes) = (!life.alive t node.delegate || someGone life (t + 1) nodes) := by
  rw [someGone, List.zipIdx_cons, List.any_cons]
  rfl

theorem forwardLoop_ok (hsup : invocation.Supported) (nodes : List (RxMultipleDelegateNode D Q)) :
    ∀ t, forwardLoop life responds current shouldCallDispatch invocation t nodes =
      .ok ((responders life responds invocation.selector t nodes).map
          (sent current shouldCallDispatch invocation), someGone life t nodes) := by
  induction nodes with
  | nil =>
      intro t
      rfl
  | cons node nodes ih =>
      intro t
      rw [forwardLoop, nodeDelegate, responders_cons, someGone_cons, ih]
      cases life.alive t node.delegate with
      | false => rfl
      | true =>
          rw [Bool.true_and, Bool.not_true, Bool.false_or, if_pos rfl]
          dsimp only
          split
          · rw [NSInvocation.duplicateInvocation_of_supported hsup]
            rfl
          · rfl

/-- Without a responder nothing is duplicated, whatever the arguments. -/
theorem forwardLoop_of_no_responder (nodes : List (RxMultipleDelegateNode D Q)) :
    ∀ t, responders life responds invocation.selector t nodes = [] →
      forwardLoop life responds current shouldCallDispatch invocation t nodes =
        .ok ([], someGone life t nodes) := by
  induction nodes with
  | nil =>
      intro t _
      rfl
  | cons node nodes ih =>
      intro t h
      rw [responders_cons] at h
      rw [forwardLoop, nodeDelegate, someGone_cons]
      cases halive : life.alive t node.delegate with
      | false =>
          rw [halive] at h
          rw [ih (t + 1) h]
          rfl
      | true =>
          rw [halive, Bool.true_and] at h
          rw [Bool.not_true, Bool.false_or, if_pos rfl]
          dsimp only
          split at h
          · cases h
          next hdeaf =>
            rw [if_neg hdeaf]
            exact ih (t + 1) h

/-- A responder's turn needs a duplicate. -/
theorem supported_of_forwardLoop (nodes : List (RxMultipleDelegateNode D Q)) :
    ∀ {t result}, forwardLoop life responds current shouldCallDispatch invocation t nodes = .ok result →
      responders life responds invocation.selector t nodes ≠ [] → invocation.Supported := by
  induction nodes with
  | nil =>
      intro t result _ h
      exact absurd rfl h
  | cons node nodes ih =>
      intro t result hloop h
      rw [responders_cons] at h
      rw [forwardLoop, nodeDelegate] at hloop
      cases halive : life.alive t node.delegate with
      | false =>
          rw [halive] at h hloop
          cases hrest : forwardLoop life responds current shouldCallDispatch invocation (t + 1) nodes with
          | error e =>
              rw [hrest] at hloop
              cases hloop
          | ok rest => exact ih hrest h
      | true =>
          rw [halive, Bool.true_and] at h
          rw [halive, if_pos rfl] at hloop
          dsimp only at hloop
          split at h
          next hresponds =>
            rw [if_pos hresponds] at hloop
            cases hdup : invocation.duplicateInvocation with
            | error e =>
                rw [hdup] at hloop
                cases hloop
            | ok duplicate => exact NSInvocation.supported_of_duplicateInvocation hdup
          next hdeaf =>
            rw [if_neg hdeaf] at hloop
            exact ih hloop h

/-! ## The nodes that stay -/

theorem mem_removeNil {node : RxMultipleDelegateNode D Q} {nodes : List (RxMultipleDelegateNode D Q)} :
    ∀ {t}, node ∈ removeNil life t nodes → life.alive t node.delegate = true := by
  induction nodes with
  | nil =>
      intro t h
      cases h
  | cons head nodes ih =>
      intro t h
      rw [removeNil, nodeDelegate] at h
      cases halive : life.alive t head.delegate with
      | false =>
          rw [halive] at h
          exact alive_mono (Nat.le_succ t) (ih h)
      | true =>
          rw [halive] at h
          rcases List.mem_cons.mp h with rfl | h
          · exact halive
          · exact alive_mono (Nat.le_succ t) (ih h)

/-- Whoever is there at the end was there at every read. -/
theorem filter_removeNil {last : Nat} (nodes : List (RxMultipleDelegateNode D Q)) :
    ∀ {t}, t + nodes.length ≤ last →
      (removeNil life t nodes).filter (fun node => life.alive last node.delegate) =
        nodes.filter fun node => life.alive last node.delegate := by
  induction nodes with
  | nil =>
      intro t _
      rfl
  | cons head nodes ih =>
      intro t hlast
      rw [List.length_cons] at hlast
      have hnext : t + 1 + nodes.length ≤ last := by omega
      rw [removeNil, nodeDelegate]
      cases halive : life.alive t head.delegate with
      | false =>
          have hgone : ¬ life.alive last head.delegate = true := by
            intro h
            have := alive_mono (show t ≤ last by omega) h
            rw [halive] at this
            cases this
          rw [List.filter_cons_of_neg (by exact hgone)]
          exact ih hnext
      | true =>
          show (head :: removeNil life (t + 1) nodes).filter _ = _
          rw [List.filter_cons, List.filter_cons, ih hnext]

theorem alive_of_not_someGone {nodes : List (RxMultipleDelegateNode D Q)} :
    ∀ {t}, someGone life t nodes = false → ∀ node ∈ nodes, life.alive t node.delegate = true := by
  induction nodes with
  | nil =>
      intro t _ node hmem
      cases hmem
  | cons head nodes ih =>
      intro t h node hmem
      rw [someGone_cons, Bool.or_eq_false_iff, Bool.not_eq_false'] at h
      rcases List.mem_cons.mp hmem with rfl | hmem
      · exact h.1
      · exact alive_mono (Nat.le_succ t) (ih h.2 node hmem)

/-- The list after `forwardInvocation:`. -/
def kept (m : RxMultipleDelegate D Q) (life : Lifetime D) : RxMultipleDelegate D Q :=
  if someGone life 0 m.delegateNodes then
    { m with delegateNodes := removeNil life m.delegateNodes.length m.delegateNodes }
  else m

variable {m : RxMultipleDelegate D Q}

theorem alive_kept : ∀ node ∈ (m.kept life).delegateNodes, life.alive 0 node.delegate = true := by
  intro node hmem
  unfold kept at hmem
  split at hmem
  · exact alive_mono (Nat.zero_le _) (mem_removeNil hmem)
  next h => exact alive_of_not_someGone (Bool.eq_false_iff.mpr h) node hmem

theorem filter_kept :
    (m.kept life).delegateNodes.filter
        (fun node => life.alive (2 * m.delegateNodes.length) node.delegate) =
      m.delegateNodes.filter fun node => life.alive (2 * m.delegateNodes.length) node.delegate := by
  unfold kept
  split
  · exact filter_removeNil _ (by omega)
  · rfl

/-- What is forwarded and what is left, if nothing raises. -/
theorem forwardInvocation_ok
    (h : responders life responds invocation.selector 0 m.delegateNodes = [] ∨
      invocation.Supported) :
    m.forwardInvocation life responds current invocation =
      .ok ((responders life responds invocation.selector 0 m.delegateNodes).map
        (sent current (!m.marked current) invocation), m.kept life) := by
  have hloop : forwardLoop life responds current (!m.marked current) invocation 0 m.delegateNodes =
      .ok ((responders life responds invocation.selector 0 m.delegateNodes).map
        (sent current (!m.marked current) invocation), someGone life 0 m.delegateNodes) := by
    rcases h with h | h
    · rw [forwardLoop_of_no_responder _ 0 h, h]
      rfl
    · exact forwardLoop_ok h _ 0
  rw [forwardInvocation, hloop, kept]
  show (if someGone life 0 m.delegateNodes = true then _ else _) = _
  split <;> rfl

/-- A delivery goes to the delegate's own queue. -/
theorem sent_eq_iff {node : RxMultipleDelegateNode D Q} :
    sent current (!m.marked current) invocation node =
        ⟨node.delegate, node.delegateQueue, invocation⟩ ↔
      (m.marked current = true → node.delegateQueue = current) := by
  rw [sent]
  cases m.marked current with
  | false => exact iff_of_true rfl fun h => absurd h Bool.false_ne_true
  | true =>
      show Delivery.mk node.delegate current invocation = _ ↔ _
      rw [Delivery.mk.injEq]
      exact ⟨fun h _ => h.2.1.symm, fun h => ⟨rfl, (h rfl).symm, rfl⟩⟩

end

/-- The invocation is forwarded as promised exactly when the calling queue carries
no mark or is every responder's own, and the arguments can be duplicated. -/
theorem forwardInvocation_delivers_iff (m : RxMultipleDelegate D Q) (life : Lifetime D)
    (responds : D → String → Bool) (current : Q) (invocation : NSInvocation V) :
    m.Delivers life responds invocation (m.forwardInvocation life responds current invocation) ↔
      (m.marked current = true →
        ∀ node ∈ responders life responds invocation.selector 0 m.delegateNodes,
          node.delegateQueue = current) ∧
      (responders life responds invocation.selector 0 m.delegateNodes = [] ∨
        invocation.Supported) := by
  constructor
  · rintro ⟨deliveries, m', hok, hdeliveries, -⟩
    have hsup : responders life responds invocation.selector 0 m.delegateNodes = [] ∨
        invocation.Supported := by
      by_cases hnone : responders life responds invocation.selector 0 m.delegateNodes = []
      · exact .inl hnone
      · right
        rw [forwardInvocation] at hok
        cases hloop : forwardLoop life responds current (!m.marked current) invocation 0
            m.delegateNodes with
        | error e =>
            rw [hloop] at hok
            cases hok
        | ok result => exact supported_of_forwardLoop _ hloop hnone
    refine ⟨fun hmarked node hmem => ?_, hsup⟩
    rw [forwardInvocation_ok hsup] at hok
    cases hok
    exact sent_eq_iff.mp (List.map_inj_left.mp hdeliveries node hmem) hmarked
  · rintro ⟨hqueue, hsup⟩
    refine ⟨_, _, forwardInvocation_ok hsup, ?_, alive_kept, filter_kept⟩
    exact List.map_inj_left.mpr fun node hmem =>
      sent_eq_iff.mpr fun hmarked => hqueue hmarked node hmem

/-- Two delegates on two queues; called from the first one's queue, the second is
not called on its own. -/
theorem forwardInvocation_broken :
    ¬ ((init.addDelegate (some 1) (some 1)).addDelegate (some 2) (some 2)).Delivers
      (fun _ => none) (fun _ _ => true) (⟨"notify", []⟩ : NSInvocation Nat)
      (((init.addDelegate (some 1) (some 1)).addDelegate (some 2) (some 2)).forwardInvocation
        (fun _ : Nat => none) (fun _ _ => true) (1 : Nat) ⟨"notify", []⟩) := by
  rintro ⟨deliveries, m', hok, hdeliveries, -⟩
  cases hok
  exact absurd hdeliveries (by decide)

end RxMultipleDelegate

end Rx
