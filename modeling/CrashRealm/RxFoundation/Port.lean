/-
# `RxFoundation.Port` — who holds the right of a port set

A `PortSet` is a raw port name.  `allocate` gets a new port set from the kernel, the
destructor gives one reference back whatever the name, and there is nothing else
that touches the kernel.  The kernel may hand out a name again once the port set it
stood for is gone; that a port set is the same one is a matter of the number it was
allocated under, its right.

Move construction copies the name and leaves it with the source; `swap` overwrites
the receiver's name and clears the argument's.  Each is right only where a name is
null: there a move has nothing to give, and a swap nothing to lose
(`ownership_iff`).
-/
import CrashRealm.Lib.Machine
import CrashRealm.RxFoundation.Fault
import Mathlib.Data.List.Nodup
import Mathlib.Logic.Function.Basic

namespace Rx

abbrev mach_port_t := BitVec 32

/-- `MACH_PORT_NULL`, and `value_type()`. -/
def MACH_PORT_NULL : mach_port_t := 0

/-- The names of the objects that are alive, and the port sets of the kernel: which
right a name stands for, how many were handed out, and those that were released. -/
structure PortTask (O : Type) where
  value : O → Option mach_port_t
  rights : mach_port_t → Option Nat
  next : Nat
  released : List Nat

inductive PortAction (O : Type) where
  /-- `O x = PortSet::allocate()`, with the kernel's answer -/
  | allocate (x : O) (answer : Option mach_port_t)
  /-- `PortSet x(std::move(y))` -/
  | moveConstruct (x y : O)
  /-- `x.swap(y)` -/
  | swap (x y : O)
  /-- `~PortSet()` -/
  | destroy (x : O)
  deriving DecidableEq, Repr

namespace PortTask

variable {O : Type}

def init : PortTask O := ⟨fun _ => none, fun _ => none, 0, []⟩

/-- `mach_port_mod_refs` with `-1` on the right of a port set; a name that stands for
none is refused, and nothing changes. -/
def modRefs (s : PortTask O) (name : mach_port_t) : PortTask O :=
  match s.rights name with
  | some r => { s with
      rights := Function.update s.rights name none
      released := r :: s.released }
  | none => s

variable [DecidableEq O]

def setValue (s : PortTask O) (x : O) (value : Option mach_port_t) : PortTask O :=
  { s with value := Function.update s.value x value }

/-- `PortSet::allocate`, which halts where the kernel has no port set. -/
def allocate (s : PortTask O) (x : O) : Option mach_port_t → Except Fault (PortTask O)
  | some value => .ok { s with
      value := Function.update s.value x (some value)
      rights := Function.update s.rights value (some s.next)
      next := s.next + 1 }
  | none => .error .halt

/-- `PortSet(PortSet &&)`, by way of `Port(value.getValue())`. -/
def moveConstruct (s : PortTask O) (x y : O) : PortTask O := s.setValue x (s.value y)

/-- `PortBase::swap`: two assignments, the second after the first. -/
def swap (s : PortTask O) (x y : O) : PortTask O :=
  (s.setValue x (s.value y)).setValue y (some MACH_PORT_NULL)

/-- `~PortSet`. -/
def destroy (s : PortTask O) (x : O) : PortTask O :=
  match s.value x with
  | some value => (s.modRefs value).setValue x none
  | none => s

/-- An object is constructed once and used while it is alive; the kernel answers with
a name that stands for nothing. -/
def enabled (s : PortTask O) : PortAction O → Prop
  | .allocate x answer => s.value x = none ∧
      ∀ value, answer = some value → value ≠ MACH_PORT_NULL ∧ s.rights value = none
  | .moveConstruct x y => s.value x = none ∧ s.value y ≠ none
  | .swap x y => s.value x ≠ none ∧ s.value y ≠ none
  | .destroy x => s.value x ≠ none

instance (s : PortTask O) : DecidablePred s.enabled
  | .allocate x none => decidable_of_iff (s.value x = none) (by simp [enabled])
  | .allocate x (some value) =>
      decidable_of_iff (s.value x = none ∧ value ≠ MACH_PORT_NULL ∧ s.rights value = none)
        (by simp [enabled])
  | .moveConstruct x y => inferInstanceAs (Decidable (s.value x = none ∧ s.value y ≠ none))
  | .swap x y => inferInstanceAs (Decidable (s.value x ≠ none ∧ s.value y ≠ none))
  | .destroy x => inferInstanceAs (Decidable (s.value x ≠ none))

def step (s : PortTask O) : PortAction O → Except Fault (PortTask O)
  | .allocate x answer => s.allocate x answer
  | .moveConstruct x y => .ok (s.moveConstruct x y)
  | .swap x y => .ok (s.swap x y)
  | .destroy x => .ok (s.destroy x)

end PortTask

def portMachine (O : Type) [DecidableEq O] : Machine (PortTask O) (PortAction O) Fault where
  start := .init
  enabled := PortTask.enabled
  step := PortTask.step

instance (O : Type) [DecidableEq O] (s : PortTask O) (a : PortAction O) :
    Decidable ((portMachine O).enabled s a) :=
  inferInstanceAs (Decidable (s.enabled a))

/-! ## What is promised -/

namespace PortTask

variable {O : Type}

/-- The object's name stands for the right. -/
def Holds (s : PortTask O) (x : O) (r : Nat) : Prop :=
  ∃ name, s.value x = some name ∧ s.rights name = some r

/-- Every right that was handed out has one holder, or was released once; and no
object is left with the name of a right that is gone. -/
structure Owned (s : PortTask O) : Prop where
  held : ∀ r, r < s.next → r ∉ s.released → ∃! x, s.Holds x r
  once : s.released.Nodup
  current : ∀ x name, s.value x = some name → name ≠ MACH_PORT_NULL → ∃ r, s.Holds x r

/-- A swap exchanges the names. -/
def Exchanges [DecidableEq O] (s : PortTask O) : PortAction O → Prop
  | .swap x y => ∀ s', s.step (.swap x y) = .ok s' →
      s'.value x = s.value y ∧ s'.value y = s.value x
  | _ => True

/-- A move is from an object that holds nothing, a swap into one. -/
def Idle (s : PortTask O) : PortAction O → Prop
  | .moveConstruct _ y => s.value y = some MACH_PORT_NULL
  | .swap x _ => s.value x = some MACH_PORT_NULL
  | .allocate _ _ | .destroy _ => True

instance (s : PortTask O) : DecidablePred s.Idle
  | .moveConstruct _ y => inferInstanceAs (Decidable (s.value y = _))
  | .swap x _ => inferInstanceAs (Decidable (s.value x = _))
  | .allocate _ _ => inferInstanceAs (Decidable True)
  | .destroy _ => inferInstanceAs (Decidable True)

/-- Two objects with one name that stands for a right. -/
theorem not_owned_of_two {s : PortTask O} (x y : O) (name : mach_port_t) (r : Nat)
    (hx : s.value x = some name) (hy : s.value y = some name) (hxy : x ≠ y)
    (hr : s.rights name = some r) (hlt : r < s.next) (hlive : r ∉ s.released) : ¬ s.Owned := by
  intro howned
  obtain ⟨z, -, hunique⟩ := howned.held r hlt hlive
  exact hxy ((hunique x ⟨name, hx, hr⟩).trans (hunique y ⟨name, hy, hr⟩).symm)

/-! ## Names and rights -/

/-- Bound names and rights not released are in step, and each bound name is that of
one object. -/
structure Kept (s : PortTask O) : Prop where
  bound : ∀ x name, s.value x = some name → name ≠ MACH_PORT_NULL → ∃ r, s.rights name = some r
  null : s.rights MACH_PORT_NULL = none
  holder : ∀ name r, s.rights name = some r → ∃! x, s.value x = some name
  injective : ∀ name name' r, s.rights name = some r → s.rights name' = some r → name = name'
  range : ∀ name r, s.rights name = some r → r < s.next ∧ r ∉ s.released
  named : ∀ r, r < s.next → r ∉ s.released → ∃ name, s.rights name = some r
  old : ∀ r ∈ s.released, r < s.next
  nodup : s.released.Nodup

namespace Kept

variable {s : PortTask O} {x y : O}

theorem init : Kept (PortTask.init : PortTask O) where
  bound := by simp [PortTask.init]
  null := rfl
  holder := by simp [PortTask.init]
  injective := by simp [PortTask.init]
  range := by simp [PortTask.init]
  named := by simp [PortTask.init]
  old := by simp [PortTask.init]
  nodup := List.nodup_nil

theorem owned (h : Kept s) : s.Owned where
  held := by
    intro r hr hlive
    obtain ⟨name, hname⟩ := h.named r hr hlive
    obtain ⟨x, hx, hunique⟩ := h.holder name r hname
    refine ⟨x, ⟨name, hx, hname⟩, ?_⟩
    rintro y ⟨name', hy, hname'⟩
    obtain rfl := h.injective name' name r hname' hname
    exact hunique y hy
  once := h.nodup
  current := by
    intro x name hx hne
    obtain ⟨r, hr⟩ := h.bound x name hx hne
    exact ⟨r, name, hx, hr⟩

/-- The names of the objects move around, and those that stand for a right stay with
one object each. -/
theorem rename (h : Kept s) {value : O → Option mach_port_t}
    (hbound : ∀ x name, value x = some name → name ≠ MACH_PORT_NULL → ∃ y, s.value y = some name)
    (hholder : ∀ name, name ≠ MACH_PORT_NULL → (∃! x, s.value x = some name) →
      ∃! x, value x = some name) : Kept { s with value } where
  bound := by
    intro x name hx hne
    obtain ⟨y, hy⟩ := hbound x name hx hne
    exact h.bound y name hy hne
  null := h.null
  holder := by
    intro name r hr
    refine hholder name ?_ (h.holder name r hr)
    rintro rfl
    simp [h.null] at hr
  injective := h.injective
  range := h.range
  named := h.named
  old := h.old
  nodup := h.nodup

variable [DecidableEq O]

theorem allocate (h : Kept s) (hx : s.value x = none) {name : mach_port_t}
    (hne : name ≠ MACH_PORT_NULL) (hname : s.rights name = none) :
    ∀ s', s.allocate x (some name) = .ok s' → Kept s' := by
  intro s' hstep
  cases hstep
  have hfree : ∀ y, s.value y ≠ some name := by
    intro y hy
    obtain ⟨r, hr⟩ := h.bound y name hy hne
    simp [hname] at hr
  -- the new right stands under the new name, every other under the name it had
  have hrights : ∀ name' r, Function.update s.rights name (some s.next) name' = some r →
      name' = name ∧ r = s.next ∨ name' ≠ name ∧ s.rights name' = some r := by
    intro name' r hr
    by_cases hsame : name' = name
    · subst hsame
      rw [Function.update_self] at hr
      exact .inl ⟨rfl, (Option.some.inj hr).symm⟩
    · rw [Function.update_of_ne hsame] at hr
      exact .inr ⟨hsame, hr⟩
  exact
    { bound := by
        intro y name' hy hne'
        by_cases hsame : name' = name
        · exact ⟨s.next, by simp [hsame]⟩
        · by_cases hyx : y = x
          · simp [hyx, Ne.symm hsame] at hy
          · obtain ⟨r, hr⟩ := h.bound y name' (by simpa [hyx] using hy) hne'
            exact ⟨r, by simpa [hsame] using hr⟩
      null := by simpa [Ne.symm hne] using h.null
      holder := by
        intro name' r hr
        rcases hrights name' r hr with ⟨rfl, -⟩ | ⟨hne', hr⟩
        · refine ⟨x, by simp, fun y hy => ?_⟩
          by_contra hyx
          exact hfree y (by simpa [hyx] using hy)
        · obtain ⟨z, hz, hunique⟩ := h.holder name' r hr
          have hzx : z ≠ x := by
            rintro rfl
            simp [hx] at hz
          refine ⟨z, by simpa [hzx] using hz, fun y hy => ?_⟩
          by_cases hyx : y = x
          · simp [hyx, Ne.symm hne'] at hy
          · exact hunique y (by simpa [hyx] using hy)
      injective := by
        intro name₁ name₂ r h₁ h₂
        rcases hrights name₁ r h₁ with ⟨hn₁, hr₁⟩ | ⟨-, hold₁⟩
        · rcases hrights name₂ r h₂ with ⟨hn₂, -⟩ | ⟨-, hold₂⟩
          · exact hn₁.trans hn₂.symm
          · have := (h.range name₂ r hold₂).1
            omega
        · rcases hrights name₂ r h₂ with ⟨-, hr₂⟩ | ⟨-, hold₂⟩
          · have := (h.range name₁ r hold₁).1
            omega
          · exact h.injective name₁ name₂ r hold₁ hold₂
      range := by
        intro name' r hr
        rcases hrights name' r hr with ⟨-, rfl⟩ | ⟨-, hr⟩
        · exact ⟨Nat.lt_succ_self _, fun hmem => Nat.lt_irrefl _ (h.old _ hmem)⟩
        · obtain ⟨hlt, hlive⟩ := h.range name' r hr
          exact ⟨Nat.lt_succ_of_lt hlt, hlive⟩
      named := by
        intro r hr hlive
        by_cases hnew : r = s.next
        · exact ⟨name, by simp [hnew]⟩
        · obtain ⟨name', hname'⟩ := h.named r (by have : r < s.next + 1 := hr; omega) hlive
          refine ⟨name', ?_⟩
          have hother : name' ≠ name := by
            rintro rfl
            simp [hname] at hname'
          simpa [hother] using hname'
      old := fun r hr => Nat.lt_succ_of_lt (h.old r hr)
      nodup := h.nodup }

/-- A move that takes nothing adds an object without a name. -/
theorem moveConstruct (h : Kept s) (hx : s.value x = none)
    (hidle : s.value y = some MACH_PORT_NULL) : Kept (s.moveConstruct x y) := by
  refine h.rename ?_ ?_
  · intro z name hz hne
    by_cases hzx : z = x
    · simp [hzx, hidle, Ne.symm hne] at hz
    · exact ⟨z, by simpa [hzx] using hz⟩
  · rintro name hne ⟨z, hz, hunique⟩
    have hzx : z ≠ x := by
      rintro rfl
      simp [hx] at hz
    refine ⟨z, by simpa [hzx] using hz, fun w hw => ?_⟩
    by_cases hwx : w = x
    · simp [hwx, hidle, Ne.symm hne] at hw
    · exact hunique w (by simpa [hwx] using hw)

/-- The names after a swap, the argument's null where it is the receiver. -/
theorem swap_value (s : PortTask O) (x y z : O) :
    (s.swap x y).value z =
      if z = y then some MACH_PORT_NULL else if z = x then s.value y else s.value z := by
  simp only [PortTask.swap, PortTask.setValue, Function.update_apply]

/-- A swap into an object without a name exchanges. -/
theorem swap_exchanges (hidle : s.value x = some MACH_PORT_NULL) :
    (s.swap x y).value x = s.value y ∧ (s.swap x y).value y = s.value x := by
  simp only [swap_value, hidle, if_true, and_true]
  split
  next hxy => rw [← hxy, hidle]
  next => rfl

theorem swap (h : Kept s) (hidle : s.value x = some MACH_PORT_NULL) : Kept (s.swap x y) := by
  obtain ⟨hself, hother⟩ := swap_exchanges (y := y) hidle
  have hrest : ∀ z, z ≠ x → z ≠ y → (s.swap x y).value z = s.value z := by
    intro z hzx hzy
    simp [swap_value, hzx, hzy]
  refine h.rename ?_ ?_
  · intro z name hz hne
    by_cases hzy : z = y
    · subst hzy
      exact absurd (Option.some.inj ((hother.symm.trans hz).symm.trans hidle)) hne
    · by_cases hzx : z = x
      · subst hzx
        exact ⟨y, hself.symm.trans hz⟩
      · exact ⟨z, (hrest z hzx hzy).symm.trans hz⟩
  · rintro name hne ⟨z, hz, hunique⟩
    have hnot : s.value x ≠ some name := by
      intro hx
      exact hne (Option.some.inj (hx.symm.trans hidle))
    have hback : ∀ w, (s.swap x y).value w = some name → w ≠ y := by
      rintro w hw rfl
      exact hnot (hother.symm.trans hw)
    by_cases hzy : z = y
    · subst hzy
      refine ⟨x, hself.trans hz, fun w hw => ?_⟩
      by_contra hwx
      exact hback w hw (hunique w ((hrest w hwx (hback w hw)).symm.trans hw))
    · have hzx : z ≠ x := by
        rintro rfl
        exact hnot hz
      refine ⟨z, (hrest z hzx hzy).trans hz, fun w hw => ?_⟩
      by_cases hwx : w = x
      · subst hwx
        exact absurd (hunique y (hself.symm.trans hw)).symm hzy
      · exact hunique w ((hrest w hwx (hback w hw)).symm.trans hw)

/-- The destructor of an object without a name leaves the kernel alone. -/
theorem destroy_null (h : Kept s) (hx : s.value x = some MACH_PORT_NULL) : Kept (s.destroy x) := by
  have hdestroy : s.destroy x = s.setValue x none := by
    simp [PortTask.destroy, PortTask.modRefs, hx, h.null]
  rw [hdestroy]
  refine h.rename ?_ ?_
  · intro z name hz hne
    by_cases hzx : z = x
    · simp [hzx] at hz
    · exact ⟨z, by simpa [hzx] using hz⟩
  · rintro name hne ⟨z, hz, hunique⟩
    have hzx : z ≠ x := by
      rintro rfl
      exact hne (Option.some.inj (hz.symm.trans hx))
    refine ⟨z, by simpa [hzx] using hz, fun w hw => ?_⟩
    by_cases hwx : w = x
    · simp [hwx] at hw
    · exact hunique w (by simpa [hwx] using hw)

/-- The destructor of a holder releases its right, and nobody else had it. -/
theorem destroy_holder (h : Kept s) {name : mach_port_t} {r : Nat} (hx : s.value x = some name)
    (hr : s.rights name = some r) : Kept (s.destroy x) := by
  have hdestroy : s.destroy x =
      { value := Function.update s.value x none
        rights := Function.update s.rights name none
        next := s.next
        released := r :: s.released } := by
    simp [PortTask.destroy, PortTask.modRefs, PortTask.setValue, hx, hr]
  rw [hdestroy]
  obtain ⟨hlt, hlive⟩ := h.range name r hr
  have hrights : ∀ name' r', Function.update s.rights name none name' = some r' →
      name' ≠ name ∧ s.rights name' = some r' := by
    intro name' r' hr'
    by_cases hsame : name' = name
    · simp [hsame] at hr'
    · exact ⟨hsame, by simpa [hsame] using hr'⟩
  have hvalues : ∀ z name', Function.update s.value x none z = some name' →
      z ≠ x ∧ s.value z = some name' := by
    intro z name' hz
    by_cases hzx : z = x
    · simp [hzx] at hz
    · exact ⟨hzx, by simpa [hzx] using hz⟩
  exact
    { bound := by
        intro z name' hz hne
        obtain ⟨hzx, hbefore⟩ := hvalues z name' hz
        have hother : name' ≠ name := by
          rintro rfl
          obtain ⟨w, -, hunique⟩ := h.holder name' r hr
          exact hzx ((hunique z hbefore).trans (hunique x hx).symm)
        obtain ⟨r', hr'⟩ := h.bound z name' hbefore hne
        exact ⟨r', by simpa [hother] using hr'⟩
      null := by
        by_cases hnull : MACH_PORT_NULL = name
        · simp [hnull]
        · simpa [hnull] using h.null
      holder := by
        intro name' r' hr'
        obtain ⟨hother, hbefore⟩ := hrights name' r' hr'
        obtain ⟨z, hz, hunique⟩ := h.holder name' r' hbefore
        have hzx : z ≠ x := by
          rintro rfl
          exact hother (Option.some.inj (hz.symm.trans hx))
        refine ⟨z, by simpa [hzx] using hz, fun w hw => ?_⟩
        exact hunique w (hvalues w name' hw).2
      injective := fun name₁ name₂ r' h₁ h₂ =>
        h.injective name₁ name₂ r' (hrights name₁ r' h₁).2 (hrights name₂ r' h₂).2
      range := by
        intro name' r' hr'
        obtain ⟨hother, hbefore⟩ := hrights name' r' hr'
        obtain ⟨hlt', hlive'⟩ := h.range name' r' hbefore
        refine ⟨hlt', ?_⟩
        simp only [List.mem_cons, not_or]
        refine ⟨?_, hlive'⟩
        rintro rfl
        exact hother (h.injective name' name r' hbefore hr)
      named := by
        intro r' hr' hlive'
        simp only [List.mem_cons, not_or] at hlive'
        obtain ⟨name', hname'⟩ := h.named r' hr' hlive'.2
        refine ⟨name', ?_⟩
        have hother : name' ≠ name := by
          rintro rfl
          exact hlive'.1 (Option.some.inj (hname'.symm.trans hr))
        simpa [hother] using hname'
      old := by
        intro r' hr'
        rcases List.mem_cons.mp hr' with rfl | hr'
        · exact hlt
        · exact h.old r' hr'
      nodup := List.nodup_cons.mpr ⟨hlive, h.nodup⟩ }

theorem destroy (h : Kept s) (hx : s.value x ≠ none) : Kept (s.destroy x) := by
  obtain ⟨name, hname⟩ := Option.ne_none_iff_exists'.mp hx
  by_cases hnull : name = MACH_PORT_NULL
  · subst hnull
    exact h.destroy_null hname
  · obtain ⟨r, hr⟩ := h.bound x name hname hnull
    exact h.destroy_holder hname hr

/-- An idle action keeps names and rights in step; an allocation may halt. -/
theorem step (h : Kept s) {a : PortAction O} (hen : s.enabled a) (ha : s.Idle a) :
    (∀ e, s.step a = .error e → e = .halt) ∧ ∀ s', s.step a = .ok s' → Kept s' := by
  cases a with
  | allocate x answer =>
      cases answer with
      | none =>
          refine ⟨fun e hstep => ?_, fun s' hstep => ?_⟩
          · cases hstep
            rfl
          · cases hstep
      | some name =>
          obtain ⟨hne, hname⟩ := hen.2 name rfl
          refine ⟨fun e hstep => ?_, h.allocate hen.1 hne hname⟩
          cases hstep
  | moveConstruct x y =>
      refine ⟨fun e hstep => (by cases hstep), fun s' hstep => ?_⟩
      cases hstep
      exact h.moveConstruct hen.1 ha
  | swap x y =>
      refine ⟨fun e hstep => (by cases hstep), fun s' hstep => ?_⟩
      cases hstep
      exact h.swap ha
  | destroy x =>
      refine ⟨fun e hstep => (by cases hstep), fun s' hstep => ?_⟩
      cases hstep
      exact h.destroy hen

/-- A move that takes something leaves two holders; a swap that has something to lose
leaves none. -/
theorem step_broken (h : Kept s) {a : PortAction O} (hen : s.enabled a) (ha : ¬ s.Idle a) :
    (∀ e, s.step a = .error e → e ≠ .halt) ∧ ∀ s', s.step a = .ok s' → ¬ s'.Owned := by
  cases a with
  | allocate x answer => exact absurd trivial ha
  | destroy x => exact absurd trivial ha
  | moveConstruct x y =>
      refine ⟨fun e hstep => (by cases hstep), fun s' hstep => ?_⟩
      cases hstep
      obtain ⟨name, hname⟩ := Option.ne_none_iff_exists'.mp hen.2
      have hne : name ≠ MACH_PORT_NULL := by
        rintro rfl
        exact ha hname
      obtain ⟨r, hr⟩ := h.bound y name hname hne
      obtain ⟨hlt, hlive⟩ := h.range name r hr
      have hyx : y ≠ x := by
        rintro rfl
        simp [hen.1] at hname
      refine not_owned_of_two x y _ _ ?_ ?_ (Ne.symm hyx) hr hlt hlive
      · simpa [PortTask.moveConstruct, PortTask.setValue] using hname
      · simpa [PortTask.moveConstruct, PortTask.setValue, hyx] using hname
  | swap x y =>
      refine ⟨fun e hstep => (by cases hstep), fun s' hstep howned => ?_⟩
      cases hstep
      obtain ⟨name, hname⟩ := Option.ne_none_iff_exists'.mp hen.1
      have hne : name ≠ MACH_PORT_NULL := by
        rintro rfl
        exact ha hname
      obtain ⟨r, hr⟩ := h.bound x name hname hne
      obtain ⟨hlt, hlive⟩ := h.range name r hr
      obtain ⟨w, -, hunique⟩ := h.holder name r hr
      obtain ⟨z, ⟨name', hz, hname'⟩, -⟩ := howned.held r hlt hlive
      obtain rfl := h.injective name' name r hname' hr
      -- whoever has the name after the swap had it before, so it is the receiver
      rw [swap_value] at hz
      split at hz
      next => exact hne (Option.some.inj hz).symm
      next hzy =>
        split at hz
        next hzx =>
          subst hzx
          exact hzy ((hunique z hname).trans (hunique y hz).symm)
        next hzx => exact hzx ((hunique z hz).trans (hunique x hname).symm)

end Kept

/-- Only a halt, where the kernel has no port sets, may end a run. -/
def halts (e : Fault) : Prop := e = .halt

/-- In a run, every right has one holder until it is destroyed and is released once,
and a swap exchanges, exactly if every move is from an object that holds nothing and
every swap is into one. -/
theorem ownership_iff (O : Type) [DecidableEq O] (as : List (PortAction O))
    (hlegal : (portMachine O).Legal .init as) :
    ((portMachine O).Meets halts Owned .init as ∧ (portMachine O).Heeds Exchanges .init as) ↔
      (portMachine O).Heeds Idle .init as := by
  have howned : (portMachine O).Meets halts Owned .init as ↔
      (portMachine O).Heeds Idle .init as :=
    Machine.meets_iff_heeds (fun s (hs : Kept s) => hs.owned)
      (fun _ _ hs hen ha => hs.step hen ha) (fun _ _ hs hen ha => hs.step_broken hen ha) as
      .init hlegal
  rw [howned, and_iff_left_iff_imp]
  refine Machine.Heeds.mono fun s a ha => ?_
  cases a with
  | swap x y =>
      intro s' hstep
      cases hstep
      exact Kept.swap_exchanges ha
  | allocate x answer => trivial
  | moveConstruct x y => trivial
  | destroy x => trivial

/-- Two port sets, destroyed in turn. -/
theorem ownership_iff_twoSets :
    (portMachine Bool).Meets halts Owned .init
      [.allocate false (some 1), .allocate true (some 2), .destroy false, .destroy true] :=
  ((ownership_iff Bool _ (by decide)).mpr (by decide)).1

/-- A port set that is moved has two holders. -/
theorem move_duplicates :
    let as : List (PortAction Bool) := [.allocate false (some 1), .moveConstruct true false]
    (portMachine Bool).Legal .init as ∧ ¬ (portMachine Bool).Meets halts Owned .init as := by
  intro as
  refine ⟨by decide, fun hmeets => ?_⟩
  obtain ⟨-, -, h₁⟩ := hmeets
  obtain ⟨-, -, h₂⟩ := h₁ _ rfl
  have howned : Owned _ := h₂ _ rfl
  exact not_owned_of_two false true 1 0 rfl rfl (by decide) rfl (by decide) (by decide) howned

end PortTask

end Rx
