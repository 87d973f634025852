/-
# `RxScheduler.RxSchedulerToken` — a block that is run under the lock

`cancel` and `isCancelled` do their work under the token's spin lock, and `cancel`
runs the block it was given there.  What the block does is its author's business: it
may call the token again, any number of times, before it returns.  Such a call is a
frame on top of the one that runs the block (`Frame`), and waits for the lock that
the frame below it holds.

The frame that holds the lock is the only one of its kind (`Holder`), so the token's
fields follow it through one cancellation (`Phase`): the block is run once, and all
answers after a `cancel` are `YES`.  A thread waits for itself exactly in the runs in
which the block calls the token (`selfWaiting_iff`).
-/
import CrashRealm.Lib.Machine
import CrashRealm.RxFoundation.LockingInterface

namespace Rx

namespace RxSchedulerToken

inductive Method where
  | isCancelled
  | cancel
  deriving DecidableEq, Repr

/-- A return of a method. -/
inductive Return where
  | isCancelled (answer : Bool)
  | cancel
  deriving DecidableEq, Repr

/-- The token is known to be cancelled. -/
def Return.yes : Return → Bool
  | isCancelled answer => answer
  | cancel => true

/-- Where a call is. -/
inductive Frame where
  /-- in `lock` of the guard -/
  | locking (method : Method)
  /-- past it -/
  | holding (method : Method)
  /-- `cancel`, in `_block()` -/
  | inBlock
  /-- before the guard's destructor -/
  | leaving (r : Return)
  deriving DecidableEq, Repr

/-- What a call does next. -/
inductive Point where
  | lock
  | body
  | block
  | ret
  deriving DecidableEq, Repr

def Frame.point : Frame → Point
  | locking _ => .lock
  | holding _ => .body
  | inBlock => .block
  | leaving _ => .ret

/-- The call has the lock. -/
def Frame.holds : Frame → Bool
  | locking _ => false
  | holding _ | inBlock | leaving _ => true

variable {T : Type} [DecidableEq T]

structure System (T : Type) where
  spin : Bool
  cancelled : Bool
  /-- `_block` is not `nil` -/
  block : Bool
  /-- the calls a thread is in, innermost first -/
  frames : T → List Frame
  /-- how often the block was called -/
  started : Nat
  /-- how often it has returned -/
  finished : Nat
  /-- the returns so far -/
  returns : List Return

inductive Action (T : Type) where
  /-- thread `t` calls a method, from outside or from the block -/
  | call (t : T) (method : Method)
  /-- one turn of `lock` -/
  | turn (t : T)
  /-- the body of a method, up to the call of the block -/
  | body (t : T)
  /-- the block returns -/
  | blockReturns (t : T)
  | ret (t : T)
  deriving DecidableEq, Repr

namespace System

/-- A token of `whenCancelled:`, or of `init` if no block is given. -/
def init (block : Bool) : System T where
  spin := false
  cancelled := false
  block
  frames := fun _ => []
  started := 0
  finished := 0
  returns := []

def setFrames (s : System T) (t : T) (frames : List Frame) : System T :=
  { s with frames := Function.update s.frames t frames }

@[simp] theorem setFrames_self (s : System T) (t : T) (frames : List Frame) :
    (s.setFrames t frames).frames t = frames :=
  Function.update_self ..

theorem setFrames_of_ne (s : System T) {t u : T} (h : u ≠ t) {frames : List Frame} :
    (s.setFrames t frames).frames u = s.frames u :=
  Function.update_of_ne h ..

/-- What a thread does next, if it is in a call. -/
def point (s : System T) (t : T) : Option Point := (s.frames t).head?.map Frame.point

def enabled (s : System T) : Action T → Prop
  | .call t _ => s.frames t = [] ∨ s.point t = some .block
  | .turn t => s.point t = some .lock
  | .body t => s.point t = some .body
  | .blockReturns t => s.point t = some .block
  | .ret t => s.point t = some .ret

instance (s : System T) : DecidablePred s.enabled
  | .call t _ => inferInstanceAs (Decidable (_ ∨ s.point t = _))
  | .turn t | .body t | .blockReturns t | .ret t => inferInstanceAs (Decidable (s.point t = _))

/-- `SpinLock::lock` tries once. -/
def turn (s : System T) (t : T) : System T :=
  match s.frames t with
  | .locking method :: frames =>
      let (spin, held) := testAndSet s.spin
      { s with spin }.setFrames t ((if held then .locking method else .holding method) :: frames)
  | _ => s

/-- `isCancelled` and `cancel` under the lock. -/
def body (s : System T) (t : T) : System T :=
  match s.frames t with
  | .holding .isCancelled :: frames =>
      s.setFrames t (.leaving (.isCancelled s.cancelled) :: frames)
  | .holding .cancel :: frames =>
      if s.cancelled then s.setFrames t (.leaving .cancel :: frames)
      else if s.block then
        { s with cancelled := true, started := s.started + 1 }.setFrames t (.inBlock :: frames)
      else { s with cancelled := true }.setFrames t (.leaving .cancel :: frames)
  | _ => s

/-- `_block = nil` once it has returned. -/
def blockReturns (s : System T) (t : T) : System T :=
  match s.frames t with
  | .inBlock :: frames =>
      { s with block := false, finished := s.finished + 1 }.setFrames t (.leaving .cancel :: frames)
  | _ => s

/-- `SpinLock::unlock`, and the method returns. -/
def ret (s : System T) (t : T) : System T :=
  match s.frames t with
  | .leaving r :: frames =>
      { s with spin := false, returns := s.returns ++ [r] }.setFrames t frames
  | _ => s

def step (s : System T) : Action T → System T
  | .call t method => s.setFrames t (.locking method :: s.frames t)
  | .turn t => s.turn t
  | .body t => s.body t
  | .blockReturns t => s.blockReturns t
  | .ret t => s.ret t

/-- A thread waits for the lock it holds. -/
def SelfWaiting (s : System T) : Prop :=
  ∃ t, s.point t = some .lock ∧ ∃ f ∈ s.frames t, f.holds = true

end System

/-- One token and any number of threads. -/
def machine (block : Bool) : Machine (System T) (Action T) Fault where
  start := .init block
  enabled := System.enabled
  step s a := .ok (s.step a)

instance (block : Bool) (s : System T) (a : Action T) : Decidable ((machine block).enabled s a) :=
  inferInstanceAs (Decidable (s.enabled a))

/-- The block does not call the token. -/
def outsideBlock (s : System T) : Action T → Prop
  | .call t _ => s.frames t = []
  | _ => True

instance (s : System T) : DecidablePred (outsideBlock s)
  | .call t _ => inferInstanceAs (Decidable (s.frames t = []))
  | .turn _ | .body _ | .blockReturns _ | .ret _ => inferInstanceAs (Decidable True)

/-! ## Who holds the lock -/

/-- The thread is in no call, or waits in one. -/
def System.Idle (s : System T) (t : T) : Prop :=
  s.frames t = [] ∨ ∃ method, s.frames t = [.locking method]

/-- The thread holds the lock with the call `f`, alone or under a call from the block. -/
def System.At (s : System T) (t : T) (f : Frame) : Prop :=
  f.holds = true ∧
    (s.frames t = [f] ∨ f = .inBlock ∧ ∃ method, s.frames t = [.locking method, f])

/-- The flag is set while one thread holds the lock, and nobody else does. -/
def Holder (s : System T) : Option (T × Frame) → Prop
  | none => s.spin = false ∧ ∀ u, s.Idle u
  | some (t, f) => s.spin = true ∧ s.At t f ∧ ∀ u, u ≠ t → s.Idle u

section

variable {s : System T} {holder : Option (T × Frame)} {t : T} {f : Frame} {frames : List Frame}

omit [DecidableEq T] in
theorem System.point_eq_some {p : Point} (h : s.point t = some p) :
    ∃ f frames, s.frames t = f :: frames ∧ f.point = p := by
  obtain ⟨f, hhead, hf⟩ := Option.map_eq_some_iff.mp h
  obtain ⟨frames, hframes⟩ := List.head?_eq_some_iff.mp hhead
  exact ⟨f, frames, hframes, hf⟩

omit [DecidableEq T] in
theorem System.Idle.not_holds (h : s.Idle t) (hf : f ∈ s.frames t) : f.holds = false := by
  rcases h with h | ⟨method, h⟩
  · rw [h] at hf
    exact absurd hf List.not_mem_nil
  · rw [h] at hf
    rw [List.mem_singleton.mp hf]
    rfl

omit [DecidableEq T] in
/-- A call that has the lock is the holder's only one. -/
theorem Holder.eq_some (h : Holder s holder) (hframes : s.frames t = f :: frames)
    (hf : f.holds = true) : holder = some (t, f) ∧ frames = [] := by
  have hbusy : ¬ s.Idle t := fun hidle =>
    Bool.false_ne_true ((hidle.not_holds (hframes ▸ List.mem_cons_self)).symm.trans hf)
  cases holder with
  | none => exact absurd (h.2 t) hbusy
  | some x =>
      obtain ⟨u, g⟩ := x
      obtain ⟨-, hat, hidle⟩ := h
      obtain rfl : t = u := by
        by_contra htu
        exact hbusy (hidle t htu)
      rcases hat.2 with hone | ⟨-, method, htwo⟩
      · rw [hframes] at hone
        cases hone
        exact ⟨rfl, rfl⟩
      · rw [hframes] at htwo
        cases htwo
        cases hf

/-- The holder goes on with another call frame. -/
theorem Holder.move (h : Holder s (some (t, f))) {g : Frame} (hg : g.holds = true) {s' : System T}
    (hs' : s'.frames = Function.update s.frames t [g]) (hspin : s'.spin = s.spin) :
    Holder s' (some (t, g)) := by
  refine ⟨hspin.trans h.1, ⟨hg, .inl ?_⟩, fun u hu => ?_⟩
  · rw [hs', Function.update_self]
  · have hidle := h.2.2 u hu
    rw [System.Idle, hs', Function.update_of_ne hu]
    exact hidle

/-- The holder gives the lock back. -/
theorem Holder.leave (h : Holder s (some (t, f))) {s' : System T}
    (hs' : s'.frames = Function.update s.frames t []) (hspin : s'.spin = false) :
    Holder s' none := by
  refine ⟨hspin, fun u => ?_⟩
  by_cases hu : u = t
  · subst hu
    left
    rw [hs', Function.update_self]
  · have hidle := h.2.2 u hu
    rw [System.Idle, hs', Function.update_of_ne hu]
    exact hidle

/-- A call begins, from outside or from the block. -/
theorem Holder.call (h : Holder s holder) {method : Method} (hen : s.enabled (.call t method)) :
    Holder (s.step (.call t method)) holder := by
  have hidle : ∀ u, (u = t → s.frames t = []) → s.Idle u → (s.step (.call t method)).Idle u := by
    intro u hu hidle
    by_cases hut : u = t
    · subst hut
      right
      refine ⟨method, ?_⟩
      rw [System.step, System.setFrames_self, hu rfl]
    · rw [System.Idle, System.step, System.setFrames_of_ne _ hut]
      exact hidle
  have hempty : s.Idle t → s.frames t = [] := by
    intro hidle
    rcases hen with hnil | hpoint
    · exact hnil
    · obtain ⟨f, frames, hframes, hf⟩ := System.point_eq_some hpoint
      rcases hidle with hnil | ⟨method, hone⟩
      · exact hnil
      · rw [hframes] at hone
        cases hone
        cases hf
  cases holder with
  | none => exact ⟨h.1, fun u => hidle u (fun _ => hempty (h.2 t)) (h.2 u)⟩
  | some x =>
      obtain ⟨u, f⟩ := x
      obtain ⟨hspin, hat, hothers⟩ := h
      refine ⟨hspin, ⟨hat.1, ?_⟩, fun v hv => hidle v (fun hvt => ?_) (hothers v hv)⟩
      · by_cases hut : u = t
        · subst hut
          right
          rcases hen with hnil | hpoint
          · rcases hat.2 with hone | ⟨-, method, htwo⟩
            · rw [hnil] at hone
              cases hone
            · rw [hnil] at htwo
              cases htwo
          · obtain ⟨g, frames, hframes, hg⟩ := System.point_eq_some hpoint
            rcases hat.2 with hone | ⟨-, method, htwo⟩
            · rw [hone] at hframes
              cases hframes
              obtain rfl : f = .inBlock := by
                cases f with
                | inBlock => rfl
                | _ => cases hg
              refine ⟨rfl, method, ?_⟩
              rw [System.step, System.setFrames_self, hone]
            · rw [htwo] at hframes
              cases hframes
              cases hg
        · rw [System.step, System.setFrames_of_ne _ hut]
          exact hat.2
      · subst hvt
        exact hempty (hothers v hv)

/-- `lock` goes on trying while the lock is held. -/
theorem System.turn_held (hspin : s.spin = true) : s.turn t = s := by
  rw [System.turn]
  split
  next method frames hframes =>
    simp only [testAndSet, hspin, if_true, System.setFrames]
    rw [← hframes, Function.update_eq_self, ← hspin]
  next => rfl

/-- `lock` gets the lock that is free. -/
theorem Holder.turn (h : Holder s none) (hpoint : s.point t = some .lock) :
    ∃ method, s.turn t = { s with spin := true }.setFrames t [.holding method] ∧
      Holder (s.turn t) (some (t, .holding method)) := by
  obtain ⟨f, frames, hframes, hf⟩ := System.point_eq_some hpoint
  rcases h.2 t with hnil | ⟨method, hone⟩
  · rw [hnil] at hframes
    cases hframes
  · have hturn : s.turn t = { s with spin := true }.setFrames t [.holding method] := by
      rw [System.turn, hone, h.1]
      rfl
    refine ⟨method, hturn, ?_⟩
    rw [hturn]
    refine ⟨rfl, ⟨rfl, .inl ?_⟩, fun u hu => ?_⟩
    · exact Function.update_self ..
    · have hidle := h.2 u
      rw [System.Idle, System.setFrames_of_ne _ hu]
      exact hidle

end

/-! ## One cancellation -/

/-- The token's fields before, during and after the one call of the block, and what
the frame with the lock can be. -/
inductive Phase (given : Bool) (s : System T) (f : Option Frame) : Prop where
  | before (cancelled : s.cancelled = false) (block : s.block = given) (started : s.started = 0)
      (finished : s.finished = 0) (returns : ∀ r ∈ s.returns, r.yes = false)
      (frame : ∀ g, f = some g → (∃ method, g = .holding method) ∨
        g = .leaving (.isCancelled false))
  | during (isGiven : given = true) (cancelled : s.cancelled = true) (block : s.block = true)
      (started : s.started = 1) (finished : s.finished = 0) (returns : ∀ r ∈ s.returns, r.yes = false)
      (frame : f = some .inBlock)
  | after (cancelled : s.cancelled = true) (block : s.block = false)
      (started : s.started = given.toNat) (finished : s.finished = given.toNat)
      (returns : s.returns.Pairwise fun a b => a.yes = true → b.yes = true)
      (frame : ∀ g, f = some g → (∃ method, g = .holding method) ∨
        ∃ r, g = .leaving r ∧ r.yes = true)

/-- One call at a time has the lock, and is somewhere in the one cancellation. -/
def Inv (given : Bool) (s : System T) : Prop :=
  ∃ holder, Holder s holder ∧ Phase given s (holder.map Prod.snd)

namespace Phase

variable {given : Bool} {s : System T} {t : T}

omit [DecidableEq T] in
theorem init (given : Bool) : Phase given (.init given : System T) none :=
  .before rfl rfl rfl rfl (fun _ h => absurd h List.not_mem_nil) nofun

/-- A call that waits leaves the token alone. -/
theorem setFrames {f : Option Frame} (h : Phase given s f) (spin : Bool) (frames : List Frame) :
    Phase given ({ s with spin }.setFrames t frames) f := by
  cases h with
  | before h₁ h₂ h₃ h₄ h₅ h₆ => exact .before h₁ h₂ h₃ h₄ h₅ h₆
  | during h₁ h₂ h₃ h₄ h₅ h₆ h₇ => exact .during h₁ h₂ h₃ h₄ h₅ h₆ h₇
  | after h₁ h₂ h₃ h₄ h₅ h₆ => exact .after h₁ h₂ h₃ h₄ h₅ h₆

theorem turn (h : Phase given s none) (method : Method) (frames : List Frame) :
    Phase given ({ s with spin := true }.setFrames t frames) (some (.holding method)) := by
  have hframe : ∀ g, some (Frame.holding method) = some g → ∃ method, g = .holding method :=
    fun g hg => ⟨method, (Option.some.inj hg).symm⟩
  cases h with
  | before h₁ h₂ h₃ h₄ h₅ _ => exact .before h₁ h₂ h₃ h₄ h₅ fun g hg => .inl (hframe g hg)
  | during _ _ _ _ _ _ h => cases h
  | after h₁ h₂ h₃ h₄ h₅ _ => exact .after h₁ h₂ h₃ h₄ h₅ fun g hg => .inl (hframe g hg)

theorem body {method : Method} (h : Phase given s (some (.holding method)))
    (hframes : s.frames t = [.holding method]) :
    ∃ g, g.holds = true ∧ (s.body t).frames = Function.update s.frames t [g] ∧
      (s.body t).spin = s.spin ∧ Phase given (s.body t) (some g) := by
  cases method with
  | isCancelled =>
      have hbody : s.body t = s.setFrames t [.leaving (.isCancelled s.cancelled)] := by
        rw [System.body, hframes]
      rw [hbody]
      refine ⟨.leaving (.isCancelled s.cancelled), rfl, rfl, rfl, ?_⟩
      cases h with
      | before h₁ h₂ h₃ h₄ h₅ _ =>
          refine .before h₁ h₂ h₃ h₄ h₅ fun g hg => .inr ?_
          rw [← Option.some.inj hg, h₁]
      | during _ _ _ _ _ _ h => cases h
      | after h₁ h₂ h₃ h₄ h₅ _ =>
          exact .after h₁ h₂ h₃ h₄ h₅ fun g hg => .inr ⟨_, (Option.some.inj hg).symm, h₁⟩
  | cancel =>
      cases h with
      | before h₁ h₂ h₃ h₄ h₅ _ =>
          cases given with
          | true =>
              have hbody : s.body t =
                  { s with cancelled := true, started := s.started + 1 }.setFrames t [.inBlock] := by
                rw [System.body, hframes]
                simp only [h₁, h₂, if_true, if_false, Bool.false_eq_true]
              rw [hbody]
              refine ⟨.inBlock, rfl, rfl, rfl, .during rfl rfl h₂ ?_ h₄ h₅ rfl⟩
              exact congrArg (· + 1) h₃
          | false =>
              have hbody : s.body t =
                  { s with cancelled := true }.setFrames t [.leaving .cancel] := by
                rw [System.body, hframes]
                simp only [h₁, h₂, if_false, Bool.false_eq_true]
              rw [hbody]
              refine ⟨.leaving .cancel, rfl, rfl, rfl, .after rfl h₂ h₃ h₄ ?_ ?_⟩
              · refine List.pairwise_of_forall_mem_list fun a ha b _ hyes => ?_
                exact absurd (hyes.symm.trans (h₅ a ha)) Bool.noConfusion
              · exact fun g hg => .inr ⟨_, (Option.some.inj hg).symm, rfl⟩
      | during _ _ _ _ _ _ h => cases h
      | after h₁ h₂ h₃ h₄ h₅ _ =>
          have hbody : s.body t = s.setFrames t [.leaving .cancel] := by
            rw [System.body, hframes]
            simp only [h₁, if_true]
          rw [hbody]
          refine ⟨.leaving .cancel, rfl, rfl, rfl, .after h₁ h₂ h₃ h₄ h₅ ?_⟩
          exact fun g hg => .inr ⟨_, (Option.some.inj hg).symm, rfl⟩

theorem blockReturns (h : Phase given s (some .inBlock)) (frames : List Frame) :
    Phase given ({ s with block := false, finished := s.finished + 1 }.setFrames t frames)
      (some (.leaving .cancel)) := by
  cases h with
  | before _ _ _ _ _ h =>
      rcases h _ rfl with ⟨_, hg⟩ | hg <;> cases hg
  | during h₁ h₂ h₃ h₄ h₅ h₆ _ =>
      subst h₁
      refine .after h₂ rfl h₄ (congrArg (· + 1) h₅) ?_ ?_
      · refine List.pairwise_of_forall_mem_list fun a ha b _ hyes => ?_
        exact absurd (hyes.symm.trans (h₆ a ha)) Bool.noConfusion
      · exact fun g hg => .inr ⟨_, (Option.some.inj hg).symm, rfl⟩
  | after _ _ _ _ _ h =>
      rcases h _ rfl with ⟨_, hg⟩ | ⟨_, hg, _⟩ <;> cases hg

theorem ret {r : Return} (h : Phase given s (some (.leaving r))) (frames : List Frame) :
    Phase given ({ s with spin := false, returns := s.returns ++ [r] }.setFrames t frames) none := by
  cases h with
  | before h₁ h₂ h₃ h₄ h₅ h₆ =>
      refine .before h₁ h₂ h₃ h₄ (fun q hq => ?_) nofun
      rcases List.mem_append.mp hq with hq | hq
      · exact h₅ q hq
      · rw [List.mem_singleton.mp hq]
        rcases h₆ _ rfl with ⟨_, hg⟩ | hg
        · cases hg
        · cases hg
          rfl
  | during _ _ _ _ _ _ h => cases h
  | after h₁ h₂ h₃ h₄ h₅ h₆ =>
      refine .after h₁ h₂ h₃ h₄ ?_ nofun
      refine List.pairwise_append.mpr ⟨h₅, List.pairwise_singleton .., fun a _ b hb _ => ?_⟩
      rw [List.mem_singleton.mp hb]
      rcases h₆ _ rfl with ⟨_, hg⟩ | ⟨_, hg, hyes⟩
      · cases hg
      · cases hg
        exact hyes

end Phase

namespace Inv

variable {given : Bool} {s : System T}

omit [DecidableEq T] in
theorem init (given : Bool) : Inv given (.init given : System T) :=
  ⟨none, ⟨rfl, fun _ => .inl rfl⟩, Phase.init given⟩

omit [DecidableEq T] in
/-- The frame on top that has the lock is all there is of its thread. -/
theorem top (h : Inv given s) {t : T} {p : Point} (hp : p ≠ .lock) (hpoint : s.point t = some p) :
    ∃ f, f.point = p ∧ s.frames t = [f] ∧ Holder s (some (t, f)) ∧ Phase given s (some f) := by
  obtain ⟨holder, hholder, hphase⟩ := h
  obtain ⟨f, frames, hframes, rfl⟩ := System.point_eq_some hpoint
  have hholds : f.holds = true := by
    cases f with
    | locking => exact absurd rfl hp
    | _ => rfl
  obtain ⟨rfl, rfl⟩ := hholder.eq_some hframes hholds
  exact ⟨f, rfl, hframes, hholder, hphase⟩

theorem step (h : Inv given s) {a : Action T} (hen : s.enabled a) : Inv given (s.step a) := by
  cases a with
  | call t method =>
      obtain ⟨holder, hholder, hphase⟩ := h
      exact ⟨holder, hholder.call hen, hphase.setFrames s.spin _⟩
  | turn t =>
      obtain ⟨holder, hholder, hphase⟩ := h
      cases holder with
      | none =>
          obtain ⟨method, hturn, hholder⟩ := hholder.turn hen
          refine ⟨_, hholder, ?_⟩
          show Phase given (s.turn t) (some (.holding method))
          rw [hturn]
          exact hphase.turn method _
      | some x =>
          refine ⟨some x, ?_⟩
          show Holder (s.turn t) (some x) ∧ Phase given (s.turn t) (some x.2)
          rw [System.turn_held hholder.1]
          exact ⟨hholder, hphase⟩
  | body t =>
      obtain ⟨f, hf, hframes, hholder, hphase⟩ := h.top (p := .body) nofun hen
      cases f with
      | holding method =>
          obtain ⟨g, hg, hs', hspin, hphase⟩ := hphase.body hframes
          exact ⟨_, hholder.move hg hs' hspin, hphase⟩
      | _ => cases hf
  | blockReturns t =>
      obtain ⟨f, hf, hframes, hholder, hphase⟩ := h.top (p := .block) nofun hen
      cases f with
      | inBlock =>
          have hstep : s.step (.blockReturns t) =
              { s with block := false, finished := s.finished + 1 }.setFrames t
                [.leaving .cancel] := by
            rw [System.step, System.blockReturns, hframes]
          rw [hstep]
          exact ⟨_, hholder.move rfl rfl rfl, hphase.blockReturns _⟩
      | _ => cases hf
  | ret t =>
      obtain ⟨f, hf, hframes, hholder, hphase⟩ := h.top (p := .ret) nofun hen
      cases f with
      | leaving r =>
          have hstep : s.step (.ret t) =
              { s with spin := false, returns := s.returns ++ [r] }.setFrames t [] := by
            rw [System.step, System.ret, hframes]
          rw [hstep]
          exact ⟨none, hholder.leave rfl rfl, hphase.ret _⟩
      | _ => cases hf

theorem of_run {as : List (Action T)} {good : System T → Action T → Prop}
    (h : (machine given).Run good as s) : Inv given s := by
  refine h.invariant (init given) fun s a s' hs hen _ hstep => ?_
  cases hstep
  exact hs.step hen

end Inv

omit [DecidableEq T] in
/-- What holds of a token in any run: its block is called once at most, it has
returned when a `cancel` returns, and no answer after that, or after a `YES`, is `NO`. -/
theorem Phase.facts {given : Bool} {s : System T} {f : Option Frame} (h : Phase given s f) :
    s.started ≤ 1 ∧ s.finished ≤ s.started ∧
      (given = true → .cancel ∈ s.returns → s.finished = 1) ∧
      s.returns.Pairwise fun a b => a.yes = true → b.yes = true := by
  have hno : (∀ r ∈ s.returns, r.yes = false) →
      s.returns.Pairwise fun a b => a.yes = true → b.yes = true := by
    intro hno
    refine List.pairwise_of_forall_mem_list fun a ha b _ hyes => ?_
    exact absurd (hyes.symm.trans (hno a ha)) Bool.noConfusion
  have hcancel : (∀ r ∈ s.returns, r.yes = false) → given = true → .cancel ∈ s.returns → 0 = 1 :=
    fun hno _ hmem => absurd (hno _ hmem) Bool.noConfusion
  cases h with
  | before _ _ hstarted hfinished hreturns _ =>
      rw [hstarted, hfinished]
      exact ⟨Nat.zero_le 1, Nat.le_refl 0, hcancel hreturns, hno hreturns⟩
  | during _ _ _ hstarted hfinished hreturns _ =>
      rw [hstarted, hfinished]
      exact ⟨Nat.le_refl 1, Nat.zero_le 1, hcancel hreturns, hno hreturns⟩
  | after _ _ hstarted hfinished hreturns _ =>
      rw [hstarted, hfinished]
      refine ⟨Bool.toNat_le given, Nat.le_refl _, fun hgiven _ => ?_, hreturns⟩
      rw [hgiven]
      rfl

/-! ## Waiting for oneself -/

def Action.thread : Action T → T
  | call t _ | turn t | body t | blockReturns t | ret t => t

namespace System

variable {s : System T} {a : Action T} {t : T}

/-- A step changes the calls its thread is in: one begins, goes on, or is over. -/
theorem step_frames (s : System T) (a : Action T) :
    ∃ frames, (s.step a).frames = Function.update s.frames a.thread frames ∧
      ((∃ t method, a = .call t method ∧ frames = .locking method :: s.frames t) ∨
        frames.tail = (s.frames a.thread).tail ∨ frames = (s.frames a.thread).tail) := by
  have hon : ∀ {t : T} {f g : Frame} {frames : List Frame}, s.frames t = f :: frames →
      (g :: frames).tail = (s.frames t).tail := by
    intro t f g frames hframes
    rw [hframes]
    rfl
  have hstay : ∃ frames, s.frames = Function.update s.frames a.thread frames ∧
      ((∃ t method, a = .call t method ∧ frames = .locking method :: s.frames t) ∨
        frames.tail = (s.frames a.thread).tail ∨ frames = (s.frames a.thread).tail) :=
    ⟨_, (Function.update_eq_self ..).symm, .inr (.inl rfl)⟩
  cases a with
  | call t method => exact ⟨_, rfl, .inl ⟨t, method, rfl, rfl⟩⟩
  | turn t =>
      rw [step, turn]
      split
      next hframes => exact ⟨_, rfl, .inr (.inl (hon hframes))⟩
      next => exact hstay
  | body t =>
      rw [step, body]
      split
      next hframes => exact ⟨_, rfl, .inr (.inl (hon hframes))⟩
      next hframes =>
        split
        · exact ⟨_, rfl, .inr (.inl (hon hframes))⟩
        · split <;> exact ⟨_, rfl, .inr (.inl (hon hframes))⟩
      next => exact hstay
  | blockReturns t =>
      rw [step, blockReturns]
      split
      next hframes => exact ⟨_, rfl, .inr (.inl (hon hframes))⟩
      next => exact hstay
  | ret t =>
      rw [step, ret]
      split
      next hframes => exact ⟨_, rfl, .inr (.inr (congrArg List.tail hframes).symm)⟩
      next => exact hstay

/-- Nobody moves another thread. -/
theorem step_frames_of_ne {u : T} (hu : u ≠ a.thread) : (s.step a).frames u = s.frames u := by
  obtain ⟨frames, hframes, -⟩ := s.step_frames a
  rw [hframes, Function.update_of_ne hu]

/-- A thread that neither calls nor is in two calls has one call at most afterwards. -/
theorem step_frames_tail (ha : outsideBlock s a) (h : (s.frames a.thread).tail = []) :
    ((s.step a).frames a.thread).tail = [] := by
  obtain ⟨frames, hframes, hcases⟩ := s.step_frames a
  rw [hframes, Function.update_self]
  rcases hcases with ⟨t, method, rfl, rfl⟩ | htail | htail
  · exact ha
  · exact htail.trans h
  · rw [htail, h]
    rfl

omit [DecidableEq T] in
/-- In one call at a time, nobody waits for himself. -/
theorem not_selfWaiting (h : ∀ t, (s.frames t).tail = []) : ¬ s.SelfWaiting := by
  rintro ⟨t, hpoint, f, hf, hholds⟩
  obtain ⟨g, frames, hframes, hg⟩ := point_eq_some hpoint
  have htail := h t
  rw [hframes, List.tail_cons] at htail
  rw [hframes, htail] at hf
  rw [List.mem_singleton.mp hf] at hholds
  cases g with
  | locking => cases hholds
  | _ => cases hg

/-- A call from the block waits for the lock the block is run under. -/
theorem selfWaiting_of_call (hen : s.enabled a) (ha : ¬ outsideBlock s a) :
    (s.step a).SelfWaiting := by
  cases a with
  | call t method =>
      have hpoint : s.point t = some .block := hen.resolve_left ha
      obtain ⟨f, frames, hframes, hf⟩ := point_eq_some hpoint
      refine ⟨t, ?_, f, ?_, ?_⟩
      · rw [point, step, setFrames_self]
        rfl
      · rw [step, setFrames_self, hframes]
        exact List.mem_cons_of_mem _ List.mem_cons_self
      · cases f with
        | inBlock => rfl
        | _ => cases hf
  | _ => exact absurd trivial ha

end System

/-- Who waits for himself waits for ever. -/
theorem Inv.selfWaiting {given : Bool} {s : System T} (h : Inv given s) {a : Action T}
    (hen : s.enabled a) (hwait : s.SelfWaiting) : (s.step a).SelfWaiting := by
  obtain ⟨t, hpoint, f, hf, hholds⟩ := hwait
  have hkeep : (s.step a).frames t = s.frames t → (s.step a).SelfWaiting := by
    intro hframes
    refine ⟨t, ?_, f, hframes ▸ hf, hholds⟩
    rw [System.point, hframes]
    exact hpoint
  by_cases hta : t = a.thread
  · subst hta
    have hspin : s.spin = true := by
      obtain ⟨holder, hholder, -⟩ := h
      cases holder with
      | none =>
          have hidle := (hholder.2 a.thread).not_holds hf
          exact absurd (hidle.symm.trans hholds) Bool.false_ne_true
      | some x => exact hholder.1
    have hturn : a = .turn a.thread := by
      cases a with
      | turn t => rfl
      | call t method =>
          rcases hen with hnil | hblock
          · rw [show s.frames (Action.call t method).thread = [] from hnil] at hf
            exact absurd hf List.not_mem_nil
          · cases hpoint.symm.trans hblock
      | body t | blockReturns t | ret t => cases hpoint.symm.trans hen
    rw [hturn] at hkeep ⊢
    refine hkeep ?_
    rw [System.step, System.turn_held hspin]
  · exact hkeep (System.step_frames_of_ne hta)

theorem tail_of_run {given : Bool} {as : List (Action T)} {s : System T}
    (h : (machine given).Run outsideBlock as s) (t : T) : (s.frames t).tail = [] := by
  refine h.invariant (I := fun s => ∀ t, (s.frames t).tail = []) (fun _ => rfl)
    (fun s a s' hs _ hgood hstep t => ?_) t
  cases hstep
  by_cases hta : t = a.thread
  · subst hta
    exact System.step_frames_tail hgood (hs _)
  · rw [System.step_frames_of_ne hta]
    exact hs t

theorem run_outsideBlock {given : Bool} {as : List (Action T)} {s : System T}
    (h : (machine given).Run Machine.anyAction as s) (hs : ¬ s.SelfWaiting) :
    (machine given).Run outsideBlock as s := by
  induction h with
  | start => exact .start
  | @step as s s' a hrun hen _ hstep ih =>
      cases hstep
      refine .step (ih fun hwait => hs ((Inv.of_run hrun).selfWaiting hen hwait)) hen ?_ rfl
      by_contra ha
      exact hs (System.selfWaiting_of_call hen ha)

/-- Any threads, any block and any order of steps: the block is called once at most,
it has returned when a `cancel` returns, and no answer goes back to `NO`.  A thread
waits for the lock it holds exactly if the block has called the token. -/
theorem selfWaiting_iff {given : Bool} {as : List (Action T)} {s : System T}
    (h : (machine given).Run Machine.anyAction as s) :
    (s.started ≤ 1 ∧ s.finished ≤ s.started ∧
      (given = true → .cancel ∈ s.returns → s.finished = 1) ∧
      s.returns.Pairwise fun a b => a.yes = true → b.yes = true) ∧
      (¬ s.SelfWaiting ↔ (machine given).Run outsideBlock as s) := by
  obtain ⟨holder, -, hphase⟩ := Inv.of_run h
  refine ⟨hphase.facts, run_outsideBlock h, fun hrun => ?_⟩
  exact System.not_selfWaiting fun t => tail_of_run hrun t

/-- Two threads cancel, one asks. -/
theorem selfWaiting_iff_cancel :
    ∃ s : System Nat, s.finished = 1 ∧ s.returns = [.cancel, .isCancelled true] ∧
      ¬ s.SelfWaiting := by
  have hrun : (machine true).Run outsideBlock
      [.call 0 .cancel, .call 1 .cancel, .turn 0, .turn 1, .body 0, .blockReturns 0, .ret 0,
        .call 0 .isCancelled, .turn 0, .body 0, .ret 0] _ := Machine.run_of_exec rfl
  have hany : (machine true).Run Machine.anyAction
      [.call 0 .cancel, .call 1 .cancel, .turn 0, .turn 1, .body 0, .blockReturns 0, .ret 0,
        .call 0 .isCancelled, .turn 0, .body 0, .ret 0] _ := Machine.run_of_exec rfl
  exact ⟨_, rfl, rfl, (selfWaiting_iff hany).2.mpr hrun⟩

/-- The block asks whether its token is cancelled. -/
theorem selfWaiting_reached :
    ∃ s : System Nat, (machine true).Reachable s ∧ s.SelfWaiting := by
  have hrun : (machine true).Run Machine.anyAction
      [.call 0 .cancel, .turn 0, .body 0, .call 0 .isCancelled] _ := Machine.run_of_exec rfl
  exact ⟨_, ⟨_, hrun⟩, 0, rfl, .inBlock, by decide, rfl⟩

end RxSchedulerToken

end Rx
