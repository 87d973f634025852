/-
# `RxFoundation.Fault` — how a call can fail to return

The C++ code is modelled by functions into `Except Fault`.  An `assert` or
`RxCheck` that does not hold, undefined behaviour, `CrashReporter::HALT` and a
loop that is still running when its round budget is spent are all values of
`Fault`, so "no assertion fails", "no byte outside the buffer is touched" and
"the loop terminates" are each the statement that a call is `.ok`.
-/

namespace Rx

/-- What stopped a call. -/
inductive Fault where
  /-- a failed `assert` or `RxCheck`, with its text -/
  | assertion (text : String)
  /-- a loop that has not ended within its round budget -/
  | spinning
  /-- a dereference outside the object pointed into -/
  | outOfBounds
  /-- a dereference of a null, dangling or never initialised pointer or reference -/
  | dangling
  /-- a `free` or `realloc` of what is not the start of a live block of the allocator -/
  | badFree
  /-- a shift or an arithmetic operation the language leaves undefined -/
  | undefinedArithmetic
  /-- `CrashReporter::HALT` or `abort` -/
  | halt
  deriving DecidableEq, Repr

universe u v

variable {ε : Type u} {α β : Type v}

/-- A bind returns exactly when both of its parts do. -/
theorem bind_eq_ok {x : Except ε α} {f : α → Except ε β} {b : β} :
    (x >>= f) = .ok b ↔ ∃ a, x = .ok a ∧ f a = .ok b := by
  cases x with
  | error e =>
      constructor
      · intro h
        cases h
      · rintro ⟨a, ha, -⟩
        cases ha
  | ok a =>
      constructor
      · exact fun h => ⟨a, rfl, h⟩
      · rintro ⟨a', ha, hf⟩
        cases ha
        exact hf

@[simp] theorem ok_bind (a : α) (f : α → Except ε β) : (Except.ok a >>= f) = f a := rfl

@[simp] theorem error_bind (e : ε) (f : α → Except ε β) :
    (Except.error e >>= f) = .error e := rfl

/-! ## How a call ends -/

/-- A call that returns something with `Q`, or is stopped by a fault that is allowed. -/
def Ends (allowed : ε → Prop) (x : Except ε α) (Q : α → Prop) : Prop :=
  match x with
  | .ok a => Q a
  | .error e => allowed e

/-- A call that may fail in any way. -/
def anyFault (_ : Fault) : Prop := True

namespace Ends

variable {allowed : ε → Prop} {P : α → Prop}

theorem bind {x : Except ε α} {f : α → Except ε β} {Q : β → Prop} (hx : Ends allowed x P)
    (hf : ∀ a, P a → Ends allowed (f a) Q) : Ends allowed (x >>= f) Q := by
  cases x with
  | error e => exact hx
  | ok a => exact hf a hx

theorem of_ok {x : Except ε α} {a : α} (hx : x = .ok a) (h : Ends allowed x P) : P a := by
  rw [hx] at h
  exact h

theorem mono {x : Except ε α} {Q : α → Prop} (hx : Ends allowed x P)
    (h : ∀ a, P a → Q a) : Ends allowed x Q := by
  cases x with
  | error e => exact hx
  | ok a => exact h a hx

theorem and {x : Except ε α} {Q : α → Prop} (hP : Ends allowed x P) (hQ : Ends allowed x Q) :
    Ends allowed x fun a => P a ∧ Q a := by
  cases x with
  | error e => exact hP
  | ok a => exact ⟨hP, hQ⟩

theorem forM {β : Type} {l : List β} {f : β → Except ε Unit}
    (h : ∀ b ∈ l, Ends allowed (f b) fun _ => True) : Ends allowed (l.forM f) fun _ => True := by
  induction l with
  | nil => trivial
  | cons b l ih =>
      show Ends allowed (f b >>= fun _ => l.forM f) _
      exact (h b List.mem_cons_self).bind fun _ _ => ih fun c hc => h c (List.mem_cons_of_mem b hc)

theorem any {α : Type} (x : Except Fault α) : Ends anyFault x fun _ => True := by
  cases x <;> trivial

/-- A call beside itself. -/
theorem same {α : Type} (x : Except Fault α) : Ends anyFault x fun a => x = .ok a := by
  cases x <;> trivial

end Ends

end Rx
