/-
# `RxScheduler.AutoreleasePool` — the pool stack of a scheduler's thread

Two observers of the run loop share one callback.  It pushes an autorelease pool
when an activation of the run loop is entered, pops it when the activation is left,
and replaces it before the thread goes to sleep.  The pools' handles are kept in an
array in the thread's dictionary, made by the first push.

The runtime has a stack of pools of its own, and popping a pool there takes every
pool above it along.  What the run loop calls out to may open pools too, with
`@autoreleasepool` blocks, and may run the run loop again inside of them.  In a
trace in which blocks and activations are well nested the two stacks agree
(`Tracks`): a pop finds a handle, and its pool on top.
-/
import CrashRealm.RxFoundation.Fault
import Mathlib.Data.List.Basic

namespace Rx

namespace AutoreleasePool

/-- The handle of a pool. -/
abbrev Pool := Nat

/-- `CFRunLoopActivity`. -/
inductive Activity where
  | entry
  | beforeTimers
  | beforeSources
  | beforeWaiting
  | afterWaiting
  | exit
  deriving DecidableEq, Repr

/-- A repeating `CFRunLoopObserver` with the callback of this file. -/
structure Observer where
  activities : List Activity
  order : Int

/-- Before other observers. -/
def pushObserver : Observer := ⟨[.entry], -0x7FFFFFFF⟩

/-- After other observers. -/
def popObserver : Observer := ⟨[.beforeWaiting, .exit], 0x7FFFFFFF⟩

/-- What the callback asks of the runtime. -/
inductive Call where
  | push (pool : Pool)
  | pop (pool : Pool)
  deriving DecidableEq, Repr

/-- A thread that runs the run loop of a scheduler. -/
structure Thread where
  /-- the array in the thread's dictionary, the last pushed at its end -/
  poolStack : Option (List Pool)
  /-- the runtime's pools, innermost first -/
  pools : List Pool
  /-- the pools made so far -/
  made : Nat
  /-- the pools of the `@autoreleasepool` blocks entered, innermost first -/
  blocks : List Pool
  calls : List Call
  deriving DecidableEq, Repr

namespace Thread

/-- A thread with `base` pools open, before the first activation. -/
def start (base : Nat) : Thread where
  poolStack := none
  pools := (List.range base).reverse
  made := base
  blocks := []
  calls := []

/-! ## The runtime -/

/-- `objc_autoreleasePoolPush`, which returns the pool `t.made`. -/
def objcPush (t : Thread) : Thread := { t with pools := t.made :: t.pools, made := t.made + 1 }

/-- `objc_autoreleasePoolPop`: the pool and all above it; the pool has to be there. -/
def objcPop (t : Thread) (pool : Pool) : Except Fault Thread :=
  if pool ∈ t.pools then .ok { t with pools := (t.pools.dropWhile (· != pool)).tail }
  else .error .badFree

/-! ## The callback -/

/-- `RxRunLoopSchedulerAutoreleasePoolPush`. -/
def autoreleasePoolPush (t : Thread) : Thread :=
  let poolStack := t.poolStack.getD []
  let pool := t.made
  { t.objcPush with poolStack := some (poolStack ++ [pool]), calls := t.calls ++ [Call.push pool] }

/-- `RxRunLoopSchedulerAutoreleasePoolPop`.  `CFArrayGetCount` needs an array. -/
def autoreleasePoolPop (t : Thread) : Except Fault Thread :=
  match t.poolStack with
  | none => .error .dangling
  | some poolStack =>
      match poolStack.getLast? with
      | none => .ok t
      | some pool =>
          { t with
            poolStack := some poolStack.dropLast
            calls := t.calls ++ [Call.pop pool] }.objcPop pool

/-- `RxRunLoopSchedulerAutoreleasePoolObserverCallBack`. -/
def observerCallBack (t : Thread) : Activity → Except Fault Thread
  | .entry => .ok t.autoreleasePoolPush
  | .beforeWaiting => do
      let t ← t.autoreleasePoolPop
      return t.autoreleasePoolPush
  | .exit => t.autoreleasePoolPop
  | _ => .ok t

/-- The run loop calls the observers of an activity, in their order. -/
def activity (t : Thread) (activity : Activity) : Except Fault Thread :=
  ([pushObserver, popObserver].filter (activity ∈ ·.activities)).foldlM
    (fun t _ => t.observerCallBack activity) t

/-- How many handles the array holds. -/
def depth (t : Thread) : Nat := (t.poolStack.getD []).length

end Thread

/-! ## Traces -/

/-- What happens on the thread. -/
inductive Event where
  | activity (activity : Activity)
  /-- an `@autoreleasepool` block is entered -/
  | enterBlock
  | leaveBlock
  deriving DecidableEq, Repr

namespace Thread

def step (t : Thread) : Event → Except Fault Thread
  | .activity activity => t.activity activity
  | .enterBlock => .ok { t.objcPush with blocks := t.made :: t.blocks }
  | .leaveBlock =>
      match t.blocks with
      | [] => .ok t
      | pool :: blocks => { t with blocks }.objcPop pool

def run (t : Thread) : List Event → Except Fault Thread
  | [] => .ok t
  | e :: es => t.step e >>= fun t => t.run es

end Thread

/-- What is open: activations of the run loop, and blocks of code it called. -/
inductive Bracket where
  | activation
  | block
  deriving DecidableEq, Repr

/-- What is open after an event, innermost first; `none` if the event cannot come
there.  The run loop is at work where the innermost is an activation. -/
def openAfter (brackets : List Bracket) : Event → Option (List Bracket)
  | .activity .entry => some (.activation :: brackets)
  | .activity .exit =>
      match brackets with
      | .activation :: brackets => some brackets
      | _ => none
  | .activity _ =>
      match brackets with
      | .activation :: _ => some brackets
      | _ => none
  | .enterBlock => some (.block :: brackets)
  | .leaveBlock =>
      match brackets with
      | .block :: brackets => some brackets
      | _ => none

def openAfterAll (brackets : List Bracket) : List Event → Option (List Bracket)
  | [] => some brackets
  | e :: es => (openAfter brackets e).bind fun brackets => openAfterAll brackets es

/-- Each entry is matched by an exit, each block entered is left, and the run loop's
other activities come inside of an activation. -/
def WellNested (es : List Event) : Prop := openAfterAll [] es = some []

instance (es : List Event) : Decidable (WellNested es) :=
  inferInstanceAs (Decidable (_ = _))

/-! ## Last in, first out -/

/-- `Lifo calls pools`: each pop took the pool pushed last of those not popped yet,
no pool was pushed twice, and `pools` are left, the last pushed first. -/
inductive Lifo : List Call → List Pool → Prop where
  | nil : Lifo [] []
  | push {calls : List Call} {pools : List Pool} {pool : Pool} : Lifo calls pools →
      .push pool ∉ calls → Lifo (calls ++ [.push pool]) (pool :: pools)
  | pop {calls : List Call} {pools : List Pool} {pool : Pool} : Lifo calls (pool :: pools) →
      Lifo (calls ++ [.pop pool]) pools

namespace Lifo

variable {calls : List Call} {pools : List Pool}

/-- What was pushed was popped or is left. -/
theorem count_push (h : Lifo calls pools) (pool : Pool) :
    calls.count (.push pool) = calls.count (.pop pool) + pools.count pool := by
  induction h with
  | nil => rfl
  | @push calls pools q _ _ ih =>
      rw [List.count_append, List.count_append, List.count_cons, ih]
      by_cases hq : q = pool
      · subst hq
        simp
        omega
      · simp [hq]
  | @pop calls pools q _ ih =>
      rw [List.count_cons] at ih
      rw [List.count_append, List.count_append, ih]
      by_cases hq : q = pool
      · subst hq
        simp
        omega
      · simp [hq]

theorem count_push_le_one (h : Lifo calls pools) (pool : Pool) :
    calls.count (.push pool) ≤ 1 := by
  induction h with
  | nil => exact Nat.zero_le 1
  | @push calls pools q _ hnew ih =>
      rw [List.count_append]
      by_cases hq : q = pool
      · subst hq
        rw [List.count_eq_zero_of_not_mem hnew]
        simp
      · simp [hq, ih]
  | pop _ ih =>
      rw [List.count_append]
      simpa using ih

/-- Once nothing is left, every pool pushed was popped once. -/
theorem popped_once (h : Lifo calls []) {pool : Pool} (hpush : .push pool ∈ calls) :
    calls.count (.push pool) = 1 ∧ calls.count (.pop pool) = 1 := by
  have hone : calls.count (.push pool) = 1 :=
    Nat.le_antisymm (h.count_push_le_one pool) (List.count_pos_iff.mpr hpush)
  have hsum := h.count_push pool
  rw [List.count_nil, Nat.add_zero] at hsum
  exact ⟨hone, hsum.symm.trans hone⟩

end Lifo

/-! ## The two stacks -/

/-- The pools of the open brackets of one kind. -/
def handles (bracket : Bracket) (held : List (Bracket × Pool)) : List Pool :=
  (held.filter fun x => x.1 = bracket).map Prod.snd

/-- Each open bracket holds one pool, the innermost on top of the runtime's stack. -/
structure Tracks (base : Nat) (held : List (Bracket × Pool)) (t : Thread) : Prop where
  pools : t.pools = held.map Prod.snd ++ (List.range base).reverse
  poolStack : t.poolStack.getD [] = (handles .activation held).reverse
  blocks : t.blocks = handles .block held
  lifo : Lifo t.calls (handles .activation held)
  fresh : ∀ pool, .push pool ∈ t.calls → pool < t.made

theorem Thread.objcPop_top {t : Thread} {pool : Pool} {pools : List Pool}
    (h : t.pools = pool :: pools) : t.objcPop pool = .ok { t with pools } := by
  rw [Thread.objcPop, if_pos (h ▸ List.mem_cons_self), h, List.dropWhile_cons_of_neg (by simp),
    List.tail_cons]

namespace Tracks

variable {base : Nat} {held : List (Bracket × Pool)} {t : Thread}

theorem start (base : Nat) : Tracks base [] (.start base) where
  pools := rfl
  poolStack := rfl
  blocks := rfl
  lifo := .nil
  fresh := fun _ h => absurd h List.not_mem_nil

theorem depth (h : Tracks base held t) : t.depth = (held.map Prod.fst).count .activation := by
  rw [Thread.depth, h.poolStack, List.length_reverse, handles, List.length_map,
    List.count, List.countP_map, List.countP_eq_length_filter]
  congr 1

theorem push (h : Tracks base held t) :
    Tracks base ((.activation, t.made) :: held) t.autoreleasePoolPush where
  pools := by
    show t.made :: t.pools = t.made :: held.map Prod.snd ++ (List.range base).reverse
    rw [h.pools, List.cons_append]
  poolStack := by
    show t.poolStack.getD [] ++ [t.made] = (t.made :: handles .activation held).reverse
    rw [h.poolStack, List.reverse_cons]
  blocks := h.blocks
  lifo := h.lifo.push fun hmem => Nat.lt_irrefl _ (h.fresh _ hmem)
  fresh := by
    intro pool hmem
    show pool < t.made + 1
    rcases List.mem_append.mp hmem with hmem | hmem
    · exact Nat.lt_succ_of_lt (h.fresh pool hmem)
    · cases List.mem_singleton.mp hmem
      exact Nat.lt_succ_self _

/-- The last handle is there, and its pool is on top. -/
theorem pop {pool : Pool} (h : Tracks base ((.activation, pool) :: held) t) :
    ∃ t', t.autoreleasePoolPop = .ok t' ∧ Tracks base held t' := by
  have hstack : t.poolStack.getD [] = (handles .activation held).reverse ++ [pool] := by
    rw [h.poolStack, ← List.reverse_cons]
    rfl
  obtain ⟨poolStack, hsome⟩ : ∃ poolStack, t.poolStack = some poolStack := by
    cases hnone : t.poolStack with
    | some poolStack => exact ⟨poolStack, rfl⟩
    | none =>
        rw [hnone] at hstack
        exact absurd hstack (List.append_ne_nil_of_right_ne_nil _ (List.cons_ne_nil _ _)).symm
  rw [hsome, Option.getD_some] at hstack
  have hpop : t.autoreleasePoolPop =
      { t with
        poolStack := some (handles .activation held).reverse
        calls := t.calls ++ [Call.pop pool] }.objcPop pool := by
    rw [Thread.autoreleasePoolPop, hsome]
    simp only [hstack, List.getLast?_concat, List.dropLast_concat]
  refine ⟨_, hpop.trans (Thread.objcPop_top h.pools), ?_⟩
  exact
    { pools := rfl
      poolStack := rfl
      blocks := h.blocks
      lifo := h.lifo.pop
      fresh := fun p hmem => h.fresh p (by simpa using hmem) }

theorem enterBlock (h : Tracks base held t) :
    Tracks base ((.block, t.made) :: held) { t.objcPush with blocks := t.made :: t.blocks } where
  pools := by
    show t.made :: t.pools = t.made :: held.map Prod.snd ++ (List.range base).reverse
    rw [h.pools, List.cons_append]
  poolStack := h.poolStack
  blocks := by
    show t.made :: t.blocks = t.made :: handles .block held
    rw [h.blocks]
  lifo := h.lifo
  fresh := fun pool hmem => Nat.lt_succ_of_lt (h.fresh pool hmem)

theorem leaveBlock {pool : Pool} (h : Tracks base ((.block, pool) :: held) t) :
    ∃ t', t.step .leaveBlock = .ok t' ∧ Tracks base held t' := by
  have hblocks : t.blocks = pool :: handles .block held := h.blocks
  have hleave : t.step .leaveBlock = { t with blocks := handles .block held }.objcPop pool := by
    rw [Thread.step, hblocks]
  refine ⟨_, hleave.trans (Thread.objcPop_top h.pools), ?_⟩
  exact { pools := rfl, poolStack := h.poolStack, blocks := rfl, lifo := h.lifo, fresh := h.fresh }

end Tracks

/-- An activity reaches the callback once, or the callback would do nothing. -/
theorem Thread.activity_eq (t : Thread) (activity : Activity) :
    t.activity activity = t.observerCallBack activity := by
  cases activity with
  | beforeWaiting | exit => exact bind_pure _
  | _ => rfl

/-- Inside of an activation, the callback keeps the stacks together. -/
theorem Tracks.observerCallBack {base : Nat} {held : List (Bracket × Pool)} {pool : Pool}
    {t : Thread} (h : Tracks base ((.activation, pool) :: held) t) {activity : Activity}
    {brackets : List Bracket}
    (he : openAfter (.activation :: held.map Prod.fst) (.activity activity) = some brackets) :
    ∃ held' t', t.observerCallBack activity = .ok t' ∧ Tracks base held' t' ∧
      held'.map Prod.fst = brackets := by
  obtain ⟨t₁, hpop, ht₁⟩ := h.pop
  cases activity with
  | entry =>
      cases he
      exact ⟨_, _, rfl, h.push, rfl⟩
  | beforeWaiting =>
      cases he
      refine ⟨_, t₁.autoreleasePoolPush, ?_, ht₁.push, rfl⟩
      rw [Thread.observerCallBack, hpop]
      rfl
  | exit =>
      cases he
      exact ⟨held, t₁, hpop, ht₁, rfl⟩
  | beforeTimers | beforeSources | afterWaiting =>
      cases he
      exact ⟨_, t, rfl, h, rfl⟩

/-- An event that may come keeps the stacks together. -/
theorem Tracks.step {base : Nat} {held : List (Bracket × Pool)} {t : Thread}
    (h : Tracks base held t) {e : Event} {brackets : List Bracket}
    (he : openAfter (held.map Prod.fst) e = some brackets) :
    ∃ held' t', t.step e = .ok t' ∧ Tracks base held' t' ∧ held'.map Prod.fst = brackets := by
  cases e with
  | enterBlock =>
      cases he
      exact ⟨_, _, rfl, h.enterBlock, rfl⟩
  | leaveBlock =>
      rcases held with _ | ⟨⟨_ | _, pool⟩, held⟩
      · cases he
      · cases he
      · cases he
        obtain ⟨t', hstep, ht'⟩ := h.leaveBlock
        exact ⟨held, t', hstep, ht', rfl⟩
  | activity activity =>
      by_cases hentry : activity = .entry
      · subst hentry
        cases he
        exact ⟨_, _, rfl, h.push, rfl⟩
      · -- any other comes only inside of an activation
        rcases held with _ | ⟨⟨_ | _, pool⟩, held⟩
        · cases activity <;> first | exact absurd rfl hentry | cases he
        · obtain ⟨held', t', hstep, ht'⟩ := h.observerCallBack he
          exact ⟨held', t', (t.activity_eq activity).trans hstep, ht'⟩
        · cases activity <;> first | exact absurd rfl hentry | cases he

theorem Tracks.run {base : Nat} {es : List Event} : ∀ {held : List (Bracket × Pool)} {t : Thread}
    {brackets : List Bracket}, Tracks base held t →
      openAfterAll (held.map Prod.fst) es = some brackets →
      ∃ held' t', t.run es = .ok t' ∧ Tracks base held' t' ∧ held'.map Prod.fst = brackets := by
  induction es with
  | nil =>
      intro held t brackets h hes
      cases hes
      exact ⟨held, t, rfl, h, rfl⟩
  | cons e es ih =>
      intro held t brackets h hes
      obtain ⟨brackets₁, he, hes⟩ := Option.bind_eq_some_iff.mp hes
      obtain ⟨held₁, t₁, hstep, ht₁, rfl⟩ := h.step he
      obtain ⟨held', t', hrun, ht'⟩ := ih ht₁ hes
      refine ⟨held', t', ?_, ht'⟩
      rw [Thread.run, hstep]
      exact hrun

theorem openAfterAll_append {es : List Event} : ∀ {brackets brackets' : List Bracket}
    {es' : List Event}, openAfterAll brackets (es ++ es') = some brackets' →
      ∃ brackets₁, openAfterAll brackets es = some brackets₁ ∧
        openAfterAll brackets₁ es' = some brackets' := by
  induction es with
  | nil => exact fun h => ⟨_, rfl, h⟩
  | cons e es ih =>
      intro brackets brackets' es' h
      obtain ⟨brackets₁, he, hes⟩ := Option.bind_eq_some_iff.mp h
      obtain ⟨brackets₂, h₁, h₂⟩ := ih hes
      exact ⟨brackets₂, Option.bind_eq_some_iff.mpr ⟨brackets₁, he, h₁⟩, h₂⟩

/-! ## Balance -/

/-- The callback pops. -/
def Activity.pops : Activity → Prop
  | beforeWaiting | exit => True
  | _ => False

/-- A popping activity comes inside of an activation. -/
theorem open_of_pops {brackets brackets' : List Bracket} {activity : Activity}
    (h : openAfter brackets (.activity activity) = some brackets') (hpops : activity.pops) :
    0 < brackets.count .activation := by
  match activity, brackets with
  | .beforeWaiting, .activation :: _ | .exit, .activation :: _ =>
      rw [List.count_cons_self]
      exact Nat.succ_pos _

/-- After each event of a well-nested trace there is a handle for every activation
that is open, and the pools above those the thread started with are the pools of
the open activations and blocks; a pop finds a handle; pools come back in the
order opposite to the one they were pushed in; and at the end each was popped once. -/
theorem pools_balanced (base : Nat) (es : List Event) (hes : WellNested es) :
    (∀ es₁ es₂, es = es₁ ++ es₂ → ∃ t brackets pools,
      (Thread.start base).run es₁ = .ok t ∧ openAfterAll [] es₁ = some brackets ∧
        t.depth = brackets.count .activation ∧
        t.pools.length = base + brackets.length ∧
        t.poolStack.getD [] = pools.reverse ∧ Lifo t.calls pools ∧
        ∀ activity es₃, es₂ = .activity activity :: es₃ → activity.pops → 0 < t.depth) ∧
      ∃ t, (Thread.start base).run es = .ok t ∧ t.depth = 0 ∧
        t.pools = (Thread.start base).pools ∧
        ∀ pool, .push pool ∈ t.calls →
          t.calls.count (.push pool) = 1 ∧ t.calls.count (.pop pool) = 1 := by
  constructor
  · rintro es₁ es₂ rfl
    obtain ⟨brackets, h₁, h₂⟩ := openAfterAll_append hes
    obtain ⟨held, t, hrun, ht, rfl⟩ := (Tracks.start base).run h₁
    refine ⟨t, _, _, hrun, h₁, ht.depth, ?_, ht.poolStack, ht.lifo, ?_⟩
    · rw [ht.pools, List.length_append, List.length_map, List.length_reverse, List.length_range,
        List.length_map, Nat.add_comm]
    · rintro activity es₃ rfl hpops
      obtain ⟨brackets', he, -⟩ := Option.bind_eq_some_iff.mp h₂
      rw [ht.depth]
      exact open_of_pops he hpops
  · obtain ⟨held, t, hrun, ht, hheld⟩ := (Tracks.start base).run hes
    obtain rfl : held = [] := List.map_eq_nil_iff.mp hheld
    exact ⟨t, hrun, ht.depth, ht.pools, fun pool hpush => ht.lifo.popped_once hpush⟩

/-- An activation that sleeps, runs another inside of a block, and sleeps again. -/
theorem pools_balanced_nested :
    ∃ t, (Thread.start 1).run
      [.activity .entry, .activity .beforeWaiting, .enterBlock, .activity .entry,
        .activity .beforeWaiting, .activity .exit, .leaveBlock, .activity .beforeWaiting,
        .activity .exit] = .ok t ∧ t.depth = 0 := by
  refine (pools_balanced 1 _ ?_).2.imp fun t ht => ⟨ht.1, ht.2.1⟩
  decide

end AutoreleasePool

end Rx
