/-
# `Example.RxViewControllerSpec` — every lookup finds its conversation

Nothing deletes a conversation: the block that would reads `NO`, since its variable
is its own, is set to `NO` before the block is submitted and is changed by nobody
before the block has read it.

The frames of a party are the blocks it runs, those queued at it and, for the main
thread, the one it is about to submit.  `Serves` says that the frames are `Fine` for
the values of the variables, that no variable is with two of them, and that the
database has all conversations.
-/
import CrashRealm.Example.RxViewController
import CrashRealm.Lib.Custody
import Mathlib.Data.List.Perm.Basic

namespace Rx

namespace RxViewController

open Custody

variable {UUID : Type} {sources : DataSources UUID}

/-! ## The database -/

section Realm
variable [DecidableEq UUID]

def Realm.Has (realm : Realm UUID) (cid : UUID) : Prop :=
  ∃ conversation, realm.objectForPrimaryKey cid = some conversation

/-- What was there is still there. -/
def Realm.Keeps (realm realm' : Realm UUID) : Prop := ∀ cid, realm.Has cid → realm'.Has cid

theorem has_addOrUpdate (realm : Realm UUID) (conversation : RxConversation UUID) :
    (realm.addOrUpdateConversation conversation).Has conversation.ID :=
  ⟨conversation, Function.update_self ..⟩

theorem keeps_addOrUpdate (realm : Realm UUID) (conversation : RxConversation UUID) :
    realm.Keeps (realm.addOrUpdateConversation conversation) := by
  rintro cid ⟨c, hc⟩
  by_cases hcid : cid = conversation.ID
  · subst hcid
    exact has_addOrUpdate realm conversation
  · exact ⟨c, (Function.update_of_ne hcid ..).trans hc⟩

/-- Messages are no conversations. -/
theorem foldl_addOrUpdateMessage (realm : Realm UUID) (messages : List (RxMessage UUID)) :
    (messages.foldl .addOrUpdateMessage realm).conversations = realm.conversations := by
  induction messages generalizing realm with
  | nil => rfl
  | cons message messages ih => exact ih _

theorem element_ok {α : Type} {n idx : Nat} (array : Fin n → α) (h : idx < n) :
    element array idx = .ok (array ⟨idx, h⟩) :=
  dif_pos h

theorem initJob_ok {idx : Nat} (h : idx < kRxTestArrayCapacity) (realm : Realm UUID) :
    ∃ realm', initJob sources realm idx = .ok realm' ∧ realm.Keeps realm' ∧
      realm'.Has (sources.convsationIDs ⟨idx, h⟩) := by
  rw [initJob, element_ok _ h, element_ok _ h]
  refine ⟨_, rfl, fun cid hcid => keeps_addOrUpdate _ _ cid ?_, has_addOrUpdate _ _⟩
  obtain ⟨c, hc⟩ := hcid
  exact ⟨c, (congrFun (foldl_addOrUpdateMessage realm _) cid).trans hc⟩

theorem initConversationJob_ok (sources : DataSources UUID) {idx : Nat}
    (h : idx < kRxTestArrayCapacity) (realm : Realm UUID)
    (shuffle : Equiv.Perm (Fin kRxTestArrayCapacity)) :
    ∃ realm', initConversationJob sources realm idx shuffle = .ok realm' ∧ realm.Keeps realm' := by
  rw [initConversationJob, element_ok _ h, element_ok _ h]
  exact ⟨_, rfl, keeps_addOrUpdate _ _⟩

/-- The loop of `__initDB`, as far as `n`. -/
theorem initLoop_ok (sources : DataSources UUID) {n : Nat} (hn : n ≤ kRxTestArrayCapacity)
    (realm : Realm UUID) :
    ∃ realm', (List.range n).foldlM (initJob sources) realm = .ok realm' ∧
      ∀ idx (h : idx < n), realm'.Has (sources.convsationIDs ⟨idx, Nat.lt_of_lt_of_le h hn⟩) := by
  induction n with
  | zero => exact ⟨realm, rfl, fun idx h => absurd h (Nat.not_lt_zero idx)⟩
  | succ n ih =>
      obtain ⟨before, hbefore, hall⟩ := ih (Nat.le_of_succ_le hn)
      obtain ⟨realm', hjob, hkeeps, hhas⟩ := initJob_ok hn before
      refine ⟨realm', ?_, fun idx h => ?_⟩
      · rw [List.range_succ, List.foldlM_append, hbefore, ok_bind, List.foldlM_cons, hjob]
        rfl
      · rcases Nat.lt_succ_iff_lt_or_eq.mp h with hlt | rfl
        · exact hkeeps _ (hall idx hlt)
        · exact hhas

end Realm

/-! ## Frames -/

namespace Frame

/-- The variable a frame has. -/
def cell : Frame → Option Nat
  | flip _ cell _ => some cell
  | notify _ | job _ | reset _ => none

/-- A frame that does no harm: nothing is deleted, and a `flip` that will be read or
was read is `NO`. -/
def Fine (flips : List Bool) : Frame → Prop
  | notify idx | job idx => idx < kRxTestArrayCapacity
  | reset _ => False
  | flip idx cell .entry => idx < kRxTestArrayCapacity ∧ flips[cell]? = some false
  | flip idx cell (.branch value) =>
      idx < kRxTestArrayCapacity ∧ cell < flips.length ∧ value = false
  | flip _ cell .toggling => cell < flips.length

variable {flips : List Bool} {frame : Frame}

theorem Fine.cell_lt (h : frame.Fine flips) {c : Nat} (hc : frame.cell = some c) :
    c < flips.length := by
  cases frame with
  | notify | job | reset => cases hc
  | flip idx cell point =>
      cases hc
      cases point with
      | entry => exact (List.getElem?_eq_some_iff.mp h.2).1
      | branch => exact h.2.1
      | toggling => exact h

/-- A new variable changes no other. -/
theorem Fine.append (h : frame.Fine flips) (flip : Bool) : frame.Fine (flips ++ [flip]) := by
  cases frame with
  | notify | job => exact h
  | reset => exact h.elim
  | flip idx cell point =>
      have hlt := h.cell_lt rfl
      have hlonger : cell < (flips ++ [flip]).length := by
        rw [List.length_append]
        exact Nat.lt_add_right _ hlt
      cases point with
      | entry => exact ⟨h.1, (List.getElem?_append_left hlt).trans h.2⟩
      | branch => exact ⟨h.1, hlonger, h.2.2⟩
      | toggling => exact hlonger

/-- Changing a variable harms only who has it. -/
theorem Fine.modify (h : frame.Fine flips) {c : Nat} (hc : frame.cell ≠ some c)
    (f : Bool → Bool) : frame.Fine (flips.modify c f) := by
  cases frame with
  | notify | job => exact h
  | reset => exact h.elim
  | flip idx cell point =>
      have hne : c ≠ cell := fun heq => hc (congrArg some heq.symm)
      have hlen : (flips.modify c f).length = flips.length := List.length_modify ..
      cases point with
      | entry => exact ⟨h.1, (List.getElem?_modify_ne f flips hne).trans h.2⟩
      | branch => exact ⟨h.1, Nat.lt_of_lt_of_eq h.2.1 hlen.symm, h.2.2⟩
      | toggling => exact Nat.lt_of_lt_of_eq h hlen.symm

end Frame

/-- All blocks of a thread, those queued as if entered. -/
def Thread.frames (thread : Thread) : List Frame :=
  thread.stack ++ thread.blocks.map Block.enter

/-- The block the main thread is about to submit. -/
def Main.frames : Main → List Frame
  | waiting | loop _ => []
  | started idx cell => [.flip idx cell .entry]

namespace System

/-- What the main thread (`none`) and each worker have to do. -/
def frames (s : System UUID) : Option Worker → List Frame
  | none => s.main.frames
  | some w => (s.threads w).frames

def cells (s : System UUID) (p : Option Worker) : List Nat := (s.frames p).filterMap Frame.cell

end System

variable {s : System UUID} {w : Worker} {thread : Thread} {frame : Frame}

theorem frames_of_stack {stack : List Frame} (hstack : (s.threads w).stack = stack) :
    s.frames (some w) = stack ++ (s.threads w).blocks.map Block.enter := by
  rw [← hstack]
  rfl

theorem frames_of_main {main : Main} (hmain : s.main = main) : s.frames none = main.frames :=
  congrArg Main.frames hmain

theorem mem_cells {p : Option Worker} {c : Nat} (hframe : frame ∈ s.frames p)
    (hc : frame.cell = some c) : c ∈ s.cells p :=
  List.mem_filterMap.mpr ⟨frame, hframe, hc⟩

theorem frames_setThread :
    (s.setThread w thread).frames = Function.update s.frames (some w) thread.frames := by
  funext p
  cases p with
  | none => exact (Function.update_of_ne (Option.some_ne_none w).symm ..).symm
  | some q =>
      by_cases hq : q = w
      · subst hq
        rw [Function.update_self]
        exact congrArg Thread.frames (Function.update_self ..)
      · rw [Function.update_of_ne fun h => hq (Option.some.inj h)]
        exact congrArg Thread.frames (Function.update_of_ne hq ..)

theorem frames_setMain (main : Main) (flips : List Bool) :
    System.frames { s with main, flips } = Function.update s.frames none main.frames := by
  funext p
  cases p with
  | none => exact (Function.update_self (none : Option Worker) _ s.frames).symm
  | some q => exact (Function.update_of_ne (Option.some_ne_none q) _ s.frames).symm

/-- When one party changes, what the parties have changes for it. -/
theorem cells_of_frames {s' : System UUID} {p : Option Worker} {frames : List Frame}
    (h : s'.frames = Function.update s.frames p frames) :
    s'.cells = Function.update s.cells p (frames.filterMap Frame.cell) := by
  funext q
  rw [System.cells, h]
  by_cases hq : q = p
  · rw [hq, Function.update_self, Function.update_self]
  · rw [Function.update_of_ne hq, Function.update_of_ne hq, System.cells]

/-! ## The invariant -/

structure Serves (sources : DataSources UUID) (s : System UUID) : Prop where
  conversations : ∀ idx, s.realm.Has (sources.convsationIDs idx)
  fine : ∀ p, ∀ frame ∈ s.frames p, frame.Fine s.flips
  apart : Apart s.cells

namespace Serves

theorem cell_lt (h : Serves sources s) {p : Option Worker} {c : Nat} (hc : c ∈ s.cells p) :
    c < s.flips.length := by
  obtain ⟨frame, hframe, hcell⟩ := List.mem_filterMap.mp hc
  exact (h.fine p frame hframe).cell_lt hcell

theorem commit (h : Serves sources s) {realm : Realm UUID} (hkeeps : s.realm.Keeps realm) :
    Serves sources { s with realm } where
  conversations := fun idx => hkeeps _ (h.conversations idx)
  fine := h.fine
  apart := h.apart

/-- One party changes. -/
theorem party (h : Serves sources s) {s' : System UUID} {p : Option Worker} {frames : List Frame}
    (hrealm : s'.realm = s.realm) (hflips : s'.flips = s.flips)
    (hframes : s'.frames = Function.update s.frames p frames)
    (hfine : ∀ frame ∈ frames, frame.Fine s.flips)
    (hapart : Apart (Function.update s.cells p (frames.filterMap Frame.cell))) :
    Serves sources s' where
  conversations := by
    rw [hrealm]
    exact h.conversations
  fine := by
    intro q frame hframe
    rw [hframes] at hframe
    rw [hflips]
    by_cases hq : q = p
    · rw [hq, Function.update_self] at hframe
      exact hfine frame hframe
    · rw [Function.update_of_ne hq] at hframe
      exact h.fine q frame hframe
  apart := by rwa [cells_of_frames hframes]

/-- A party that gets nothing new to do. -/
theorem keep (h : Serves sources s) {s' : System UUID} {p : Option Worker} {frames : List Frame}
    (hrealm : s'.realm = s.realm) (hflips : s'.flips = s.flips)
    (hframes : s'.frames = Function.update s.frames p frames)
    (hsub : frames.Subperm (s.frames p)) : Serves sources s' := by
  refine h.party hrealm hflips hframes (fun frame hframe => ?_) (h.apart.keep ?_)
  · exact h.fine p frame (hsub.subset hframe)
  · obtain ⟨l, hperm, hsublist⟩ := hsub
    exact ⟨l.filterMap Frame.cell, hperm.filterMap _, hsublist.filterMap _⟩

/-- A party that has one thing more to do. -/
theorem give (h : Serves sources s) {s' : System UUID} {p : Option Worker} {frames : List Frame}
    (hrealm : s'.realm = s.realm) (hflips : s'.flips = s.flips)
    (hframes : s'.frames = Function.update s.frames p frames)
    (hperm : frames.Perm (frame :: s.frames p)) (hfine : frame.Fine s.flips)
    (hfree : ∀ c, frame.cell = some c → ∀ q, c ∉ s.cells q) : Serves sources s' := by
  refine h.party hrealm hflips hframes (fun f hf => ?_) ?_
  · rcases List.mem_cons.mp (hperm.mem_iff.mp hf) with rfl | hold
    · exact hfine
    · exact h.fine p f hold
  · have hcells := hperm.filterMap Frame.cell
    cases hc : frame.cell with
    | none =>
        rw [List.filterMap_cons_none hc] at hcells
        exact h.apart.keep hcells.subperm
    | some c =>
        rw [List.filterMap_cons_some hc] at hcells
        exact h.apart.take (hfree c hc) hcells

theorem schedule (h : Serves sources s) (caller : Option Worker) (w : Worker) (block : Block)
    (hfine : block.enter.Fine s.flips)
    (hfree : ∀ c, block.enter.cell = some c → ∀ q, c ∉ s.cells q) :
    Serves sources (s.schedule caller w block) := by
  rw [System.schedule]
  split
  · exact h.give rfl rfl frames_setThread (List.Perm.refl _) hfine hfree
  · refine h.give rfl rfl frames_setThread ?_ hfine hfree
    rw [Thread.frames, List.map_append, ← List.append_assoc]
    exact List.perm_append_singleton _ _

/-- A worker that has less to do in its stack. -/
theorem pop (h : Serves sources s) {stack : List Frame}
    (hstack : (s.threads w).stack = frame :: stack) :
    Serves sources (s.setStack w stack) := by
  refine h.keep rfl rfl frames_setThread (List.Sublist.subperm ?_)
  rw [frames_of_stack hstack]
  exact List.sublist_cons_self _ _

/-- A worker goes on in a block, with the variable it has. -/
theorem point (h : Serves sources s) {idx cell : Nat} {point point' : Point} {stack : List Frame}
    (hstack : (s.threads w).stack = .flip idx cell point :: stack)
    (hfine : (Frame.flip idx cell point').Fine s.flips) :
    Serves sources (s.setStack w (.flip idx cell point' :: stack)) := by
  have hframes := frames_of_stack hstack
  refine h.party rfl rfl frames_setThread (fun frame hframe => ?_) (h.apart.keep ?_)
  · rcases List.mem_cons.mp hframe with rfl | hrest
    · exact hfine
    · refine h.fine (some w) frame ?_
      rw [hframes]
      exact List.mem_cons_of_mem _ hrest
  · rw [System.cells, hframes]
    exact List.Subperm.refl _

/-- The variable of nobody changes. -/
theorem modify (h : Serves sources s) {c : Nat} (hfree : ∀ p, c ∉ s.cells p) (f : Bool → Bool) :
    Serves sources { s with flips := s.flips.modify c f } where
  conversations := h.conversations
  fine := fun p frame hframe =>
    (h.fine p frame hframe).modify (fun hc => hfree p (mem_cells hframe hc)) f
  apart := h.apart

/-- The block that is done leaves its variable to nobody. -/
theorem toggle (h : Serves sources s) {idx cell : Nat} {point : Point} {stack : List Frame}
    (hstack : (s.threads w).stack = .flip idx cell point :: stack) (f : Bool → Bool) :
    Serves sources ({ s with flips := s.flips.modify cell f }.setStack w stack) := by
  have hcells : s.cells (some w) =
      cell :: (stack ++ (s.threads w).blocks.map Block.enter).filterMap Frame.cell := by
    rw [System.cells, frames_of_stack hstack]
    rfl
  obtain ⟨hself, hothers⟩ := h.apart.alone (List.Perm.of_eq hcells)
  have hpopped : (s.setStack w stack).cells = _ := cells_of_frames frames_setThread
  refine (h.pop hstack).modify (fun p => ?_) f
  rw [hpopped]
  by_cases hp : p = some w
  · rw [hp, Function.update_self]
    exact hself
  · rw [Function.update_of_ne hp]
    exact hothers p hp

/-- A new variable, for the block the main thread is about to submit. -/
theorem start (h : Serves sources s) (hmain : s.frames none = []) {idx : Nat}
    (hidx : idx < kRxTestArrayCapacity) :
    Serves sources { s with flips := s.flips ++ [false], main := .started idx s.flips.length } := by
  have hframes := frames_setMain (s := s) (.started idx s.flips.length) (s.flips ++ [false])
  have hlonger : Serves sources { s with flips := s.flips ++ [false] } :=
    ⟨h.conversations, fun p frame hframe => (h.fine p frame hframe).append false, h.apart⟩
  have hnew : (Frame.flip idx s.flips.length .entry).Fine (s.flips ++ [false]) :=
    ⟨hidx, List.getElem?_concat_length⟩
  refine hlonger.give rfl rfl hframes ?_ hnew fun c hc q hq => ?_
  · show List.Perm [_] (_ :: s.frames none)
    rw [hmain]
  · cases hc
    exact Nat.lt_irrefl _ (h.cell_lt hq)

/-! ## One step -/

/-- A frame in the stack of a worker. -/
theorem fine_head (h : Serves sources s) {stack : List Frame}
    (hstack : (s.threads w).stack = frame :: stack) : frame.Fine s.flips := by
  refine h.fine (some w) frame ?_
  rw [frames_of_stack hstack]
  exact List.mem_cons_self

theorem next (h : Serves sources s) (j : Fin kRxTestSchedulerCapacity) :
    ∃ s', s.next j = .ok s' ∧ Serves sources s' := by
  cases hmain : s.main with
  | waiting => exact ⟨s, by rw [System.next, hmain], h⟩
  | loop idx =>
      have hnone : s.frames none = [] := frames_of_main hmain
      by_cases hidx : idx < kRxTestArrayCapacity
      · refine ⟨_, ?_, (h.start hnone hidx).schedule none (.schedulers j) (.notify idx) hidx nofun⟩
        rw [System.next, hmain]
        exact (if_pos hidx).trans (if_pos hidx)
      · refine ⟨{ s with main := .waiting }, ?_, ?_⟩
        · rw [System.next, hmain]
          exact if_neg hidx
        · refine h.keep rfl rfl (frames_setMain .waiting s.flips) ?_
          exact List.nil_subperm
  | started idx cell =>
      have hframes : s.frames none = [.flip idx cell .entry] := frames_of_main hmain
      have hfine : (Frame.flip idx cell .entry).Fine s.flips := by
        refine h.fine none _ ?_
        rw [hframes]
        exact List.mem_singleton_self _
      have hcells : s.cells none = [cell] := by
        rw [System.cells, hframes]
        rfl
      have hloop : Serves sources { s with main := .loop (idx + 1) } :=
        h.keep rfl rfl (frames_setMain (.loop (idx + 1)) s.flips) List.nil_subperm
      refine ⟨_, by rw [System.next, hmain],
        hloop.schedule none (.randomSchedulers j) (.flip idx cell) hfine ?_⟩
      -- the main thread had the variable, and now nobody has it
      rintro c hc q hq
      cases hc
      rw [cells_of_frames (frames_setMain (.loop (idx + 1)) s.flips)] at hq
      by_cases hqn : q = none
      · rw [hqn, Function.update_self] at hq
        exact List.not_mem_nil hq
      · rw [Function.update_of_ne hqn] at hq
        exact (h.apart.alone (List.Perm.of_eq hcells)).2 q hqn hq

theorem perform (h : Serves sources s) {i : Nat} (hidle : (s.threads w).stack = [])
    (hi : i < (s.threads w).blocks.length) : Serves sources (s.perform w i) := by
  rw [System.perform, List.getElem?_eq_getElem hi]
  have hperm := (List.getElem_cons_eraseIdx_perm hi).map Block.enter
  refine h.keep rfl rfl frames_setThread (List.Perm.subperm ?_)
  rw [frames_of_stack hidle]
  exact hperm

section Run
variable [DecidableEq UUID]

theorem run (h : Serves sources s) (w : Worker) (j : Fin kRxTestSchedulerCapacity)
    (shuffle : Equiv.Perm (Fin kRxTestArrayCapacity)) :
    ∃ s', s.run sources w j shuffle = .ok s' ∧ Serves sources s' := by
  rw [System.run]
  cases hstack : (s.threads w).stack with
  | nil => exact ⟨s, rfl, h⟩
  | cons frame stack =>
      have hfine := h.fine_head hstack
      cases frame with
      | notify idx =>
          exact ⟨_, if_pos hfine,
            (h.pop hstack).schedule (some w) (.schedulers j) (.job idx) hfine nofun⟩
      | job idx =>
          have hidx : idx < kRxTestArrayCapacity := hfine
          obtain ⟨conversation, hfound⟩ := h.conversations ⟨idx, hidx⟩
          refine ⟨s.setStack w stack, ?_, h.pop hstack⟩
          show (do let cid ← element sources.convsationIDs idx; _) = _
          rw [element_ok _ hidx, ok_bind, doJobWithCID, hfound]
          rfl
      | reset idx => exact hfine.elim
      | flip idx cell point =>
          cases point with
          | entry =>
              refine ⟨s.setStack w (.flip idx cell (.branch false) :: stack), ?_, ?_⟩
              · simp only [hfine.2]
              · exact h.point hstack ⟨hfine.1, hfine.cell_lt rfl, rfl⟩
          | branch value =>
              obtain ⟨hidx, hlt, rfl⟩ := hfine
              obtain ⟨realm, hjob, hkeeps⟩ :=
                initConversationJob_ok sources hidx s.realm shuffle
              refine ⟨{ s with realm }.setStack w (.flip idx cell .toggling :: stack), ?_, ?_⟩
              · show (do let realm ← initConversationJob sources s.realm idx shuffle; _) = _
                rw [hjob]
                rfl
              · exact (h.commit hkeeps).point hstack hlt
          | toggling => exact ⟨_, rfl, h.toggle hstack _⟩

theorem step (h : Serves sources s) {a : Action} (hen : s.enabled a) :
    ∃ s', s.step sources a = .ok s' ∧ Serves sources s' := by
  cases a with
  | fire =>
      refine ⟨_, rfl, h.keep rfl rfl (frames_setMain (.loop 0) s.flips) List.nil_subperm⟩
  | next j => exact h.next j
  | perform w i => exact ⟨_, rfl, h.perform hen.1 hen.2⟩
  | run w j shuffle => exact h.run w j shuffle

end Run

end Serves

/-! ## Every run -/

variable [DecidableEq UUID]

theorem viewDidLoad_ok (sources : DataSources UUID) (realm : Realm UUID) :
    ∃ start, viewDidLoad sources realm = .ok start ∧ Serves sources start := by
  obtain ⟨realm', hinit, hall⟩ := initLoop_ok sources (Nat.le_refl _) (resetDB realm)
  refine ⟨⟨realm', [], .waiting, fun _ => ⟨[], []⟩⟩, ?_, fun idx => hall idx.1 idx.2, ?_, ?_⟩
  · rw [viewDidLoad, initDB, hinit]
    rfl
  · rintro (_ | w) frame hframe
    · cases hframe
    · cases hframe
  · have hnone : (⟨realm', [], .waiting, fun _ => ⟨[], []⟩⟩ : System UUID).cells =
        fun _ => [] := by
      funext p
      cases p <;> rfl
    rw [hnone]
    exact .nil

theorem serves_of_reachable {start : System UUID} (hstart : Serves sources start)
    {s : System UUID} (h : (machine sources start).Reachable s) : Serves sources s := by
  refine h.invariant hstart fun s a s' hs hen hstep => ?_
  obtain ⟨s'', hstep', hs'⟩ := hs.step hen
  cases hstep.symm.trans hstep'
  exact hs'

/-- Once `viewDidLoad` has returned, no step of any thread fails an assertion, however
the threads run; a job that is run finds its conversation. -/
theorem job_finds_conversation (sources : DataSources UUID) (realm : Realm UUID) :
    ∃ start, viewDidLoad sources realm = .ok start ∧
      ∀ s, (machine sources start).Reachable s →
        (∀ a, s.enabled a → ∃ s', s.step sources a = .ok s') ∧
        ∀ w idx stack, (s.threads w).stack = .job idx :: stack →
          ∃ cid conversation, element sources.convsationIDs idx = .ok cid ∧
            s.realm.objectForPrimaryKey cid = some conversation := by
  obtain ⟨start, hload, hstart⟩ := viewDidLoad_ok sources realm
  refine ⟨start, hload, fun s hreach => ?_⟩
  have hserves := serves_of_reachable hstart hreach
  constructor
  · intro a hen
    obtain ⟨s', hstep, -⟩ := hserves.step hen
    exact ⟨s', hstep⟩
  · intro w idx stack hstack
    have hidx : idx < kRxTestArrayCapacity := hserves.fine_head hstack
    obtain ⟨conversation, hfound⟩ := hserves.conversations ⟨idx, hidx⟩
    exact ⟨_, conversation, element_ok _ hidx, hfound⟩

/-- Such a job is run: at once and in place, if both random numbers are 0. -/
example (sources : DataSources UUID) (realm : Realm UUID) :
    let start : System UUID := ⟨realm, [], .waiting, fun _ => ⟨[], []⟩⟩
    let zero : Fin kRxTestSchedulerCapacity := ⟨0, by decide⟩
    ((machine sources start).exec Machine.anyAction start [.fire, .next zero,
      .perform (.schedulers zero) 0, .run (.schedulers zero) zero (.refl _)]).map
        (fun s => (s.threads (.schedulers zero)).stack) = some [.job 0] :=
  rfl

end RxViewController

end Rx
