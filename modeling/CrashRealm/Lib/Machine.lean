/-
# `Lib.Machine` — runs of a machine whose actions may be refused or may fail

A machine has a start state, says which actions are enabled in a state, and
computes what an enabled action does: a next state, or a failure.  A run is a
finite history of actions from the start, all of them satisfying a condition
`good` on the state they are taken in; with `good` always true it is any run.

**The rules.**  An invariant holds initially and is kept by every good step, so
it holds after every run (`Run.invariant`); it may speak of the history too
(`Run.invariant_history`).

Where the conditions are decidable, `exec` computes runs (`run_of_exec`).  A `Path`
goes on from any state, and keeps what every good action keeps (`Path.invariant`).

**Promises.**  A list of actions that may be taken from a state is `Legal`; it
`Meets` a promise on states if the promise holds in every state passed through and
none of them fails, other than in an allowed way that ends the run.  It `Heeds` a
condition if each action satisfies it in the state it is taken in.  Where good
actions keep an invariant that implies the promise, and the others fail or break
the promise, the two are the same (`meets_iff_heeds`).
-/

universe u v w

/-- A start state, which actions are enabled, and what they do. -/
structure Machine (S : Type u) (A : Type v) (ε : Type w) where
  start : S
  enabled : S → A → Prop
  step : S → A → Except ε S

namespace Machine

variable {S : Type u} {A : Type v} {ε : Type w} (M : Machine S A ε)

/-- `M.Run good as s`: the good actions `as`, in this order, lead from the start to `s`. -/
inductive Run (good : S → A → Prop) : List A → S → Prop where
  | start : Run good [] M.start
  | step {as : List A} {s s' : S} {a : A} : Run good as s → M.enabled s a → good s a →
      M.step s a = .ok s' → Run good (as ++ [a]) s'

/-- Every action is good. -/
def anyAction : S → A → Prop := fun _ _ => True

instance (s : S) (a : A) : Decidable (anyAction s a) := inferInstanceAs (Decidable True)

/-- The states some run leads to. -/
def Reachable (s : S) : Prop := ∃ as, M.Run anyAction as s

/-- Take the actions one after the other, if each is enabled, good and does not fail. -/
def exec (good : S → A → Prop) [∀ s a, Decidable (M.enabled s a)] [∀ s a, Decidable (good s a)] :
    S → List A → Option S
  | s, [] => some s
  | s, a :: as =>
      if M.enabled s a ∧ good s a then
        match M.step s a with
        | .ok s' => exec good s' as
        | .error _ => none
      else none

variable {M} {good : S → A → Prop}

theorem exec_from [∀ s a, Decidable (M.enabled s a)] [∀ s a, Decidable (good s a)]
    (as : List A) : ∀ {bs : List A} {s s' : S}, M.Run good bs s → M.exec good s as = some s' →
      M.Run good (bs ++ as) s' := by
  induction as with
  | nil =>
      intro bs s s' hrun hexec
      cases hexec
      rwa [List.append_nil]
  | cons a as ih =>
      intro bs s s' hrun hexec
      rw [exec] at hexec
      split at hexec
      next hok =>
        split at hexec
        next s₁ hstep =>
          have := ih (.step hrun hok.1 hok.2 hstep) hexec
          rwa [List.append_assoc] at this
        next => cases hexec
      next => cases hexec

/-- What `exec` computes is a run. -/
theorem run_of_exec [∀ s a, Decidable (M.enabled s a)] [∀ s a, Decidable (good s a)]
    {as : List A} {s : S} (h : M.exec good M.start as = some s) : M.Run good as s :=
  exec_from as .start h

/-- An invariant of the state and the history that led to it. -/
theorem Run.invariant_history {I : List A → S → Prop} (hstart : I [] M.start)
    (hstep : ∀ as s a s', I as s → M.enabled s a → good s a → M.step s a = .ok s' →
      I (as ++ [a]) s')
    {as : List A} {s : S} (h : M.Run good as s) : I as s := by
  induction h with
  | start => exact hstart
  | step _ hen hgood hrun ih => exact hstep _ _ _ _ ih hen hgood hrun

theorem Run.invariant {I : S → Prop} (hstart : I M.start)
    (hstep : ∀ s a s', I s → M.enabled s a → good s a → M.step s a = .ok s' → I s')
    {as : List A} {s : S} (h : M.Run good as s) : I s :=
  Run.invariant_history (I := fun _ s => I s) hstart (fun _ => hstep) h

theorem Reachable.step {s s' : S} (h : M.Reachable s) {a : A} (hen : M.enabled s a)
    (hstep : M.step s a = .ok s') : M.Reachable s' := by
  obtain ⟨as, hrun⟩ := h
  exact ⟨as ++ [a], hrun.step hen trivial hstep⟩

theorem Reachable.invariant {I : S → Prop} (hstart : I M.start)
    (hstep : ∀ s a s', I s → M.enabled s a → M.step s a = .ok s' → I s')
    {s : S} (h : M.Reachable s) : I s := by
  obtain ⟨as, hrun⟩ := h
  exact hrun.invariant hstart fun s a s' hs hen _ => hstep s a s' hs hen

/-! ## Later states -/

section Paths

variable (M)

/-- `M.Path good s as s'`: the good actions `as` lead from `s` to `s'`. -/
inductive Path (good : S → A → Prop) (s : S) : List A → S → Prop where
  | here : Path good s [] s
  | step {as : List A} {s₁ s₂ : S} {a : A} : Path good s as s₁ → M.enabled s₁ a → good s₁ a →
      M.step s₁ a = .ok s₂ → Path good s (as ++ [a]) s₂

variable {M}

/-- What holds of a state and every good action keeps holds of the later states. -/
theorem Path.invariant {I : S → Prop} {s s' : S} {as : List A} (h : M.Path good s as s') (hs : I s)
    (hstep : ∀ s a s', I s → M.enabled s a → good s a → M.step s a = .ok s' → I s') : I s' := by
  induction h with
  | here => exact hs
  | step _ hen hgood hrun ih => exact hstep _ _ _ ih hen hgood hrun

theorem Path.cons {s s₁ s' : S} {a : A} {as : List A} (hen : M.enabled s a) (hgood : good s a)
    (hstep : M.step s a = .ok s₁) (h : M.Path good s₁ as s') : M.Path good s (a :: as) s' := by
  induction h with
  | here => exact .step .here hen hgood hstep
  | step _ hen' hgood' hstep' ih => exact .step ih hen' hgood' hstep'

theorem path_of_exec [∀ s a, Decidable (M.enabled s a)] [∀ s a, Decidable (good s a)]
    {as : List A} : ∀ {s s' : S}, M.exec good s as = some s' → M.Path good s as s' := by
  induction as with
  | nil =>
      intro s s' h
      cases h
      exact .here
  | cons a as ih =>
      intro s s' h
      rw [exec] at h
      split at h
      next hok =>
        split at h
        next s₁ hstep => exact Path.cons hok.1 hok.2 hstep (ih h)
        next => cases h
      next => cases h

/-- A run may go on. -/
theorem Run.append {s s' : S} {as bs : List A} (hrun : M.Run good as s)
    (h : M.Path good s bs s') : M.Run good (as ++ bs) s' := by
  induction h with
  | here =>
      rw [List.append_nil]
      exact hrun
  | step _ hen hgood hstep ih =>
      rw [← List.append_assoc]
      exact ih.step hen hgood hstep

end Paths

/-! ## Promises -/

section Promises

variable (M)

/-- Each action is good in the state it is taken in, up to one that fails. -/
def Heeds (good : S → A → Prop) : S → List A → Prop
  | _, [] => True
  | s, a :: as => good s a ∧ ∀ s', M.step s a = .ok s' → Heeds good s' as

/-- The actions are enabled one after the other. -/
abbrev Legal : S → List A → Prop := M.Heeds M.enabled

/-- The promise holds in every state, and no action fails but in an allowed way. -/
def Meets (allowed : ε → Prop) (promise : S → Prop) : S → List A → Prop
  | s, [] => promise s
  | s, a :: as => promise s ∧ (∀ e, M.step s a = .error e → allowed e) ∧
      ∀ s', M.step s a = .ok s' → Meets allowed promise s' as

instance decidableHeeds {good : S → A → Prop} [∀ s a, Decidable (good s a)] :
    ∀ (s : S) (as : List A), Decidable (M.Heeds good s as)
  | _, [] => inferInstanceAs (Decidable True)
  | s, a :: as =>
      match hstep : M.step s a with
      | .error _ => decidable_of_iff (good s a)
          ⟨fun h => ⟨h, fun _ h' => nomatch hstep.symm.trans h'⟩, And.left⟩
      | .ok s' =>
          have : Decidable (M.Heeds good s' as) := decidableHeeds s' as
          decidable_of_iff (good s a ∧ M.Heeds good s' as)
            ⟨fun h => ⟨h.1, fun _ h' => Except.ok.inj (hstep.symm.trans h') ▸ h.2⟩,
              fun h => ⟨h.1, h.2 s' hstep⟩⟩

variable {M} {allowed : ε → Prop} {promise inv : S → Prop}

theorem Meets.head {s : S} {as : List A} (h : M.Meets allowed promise s as) : promise s := by
  cases as with
  | nil => exact h
  | cons a as => exact h.1

theorem Heeds.mono {good' : S → A → Prop} (himp : ∀ s a, good s a → good' s a) {as : List A} :
    ∀ {s : S}, M.Heeds good s as → M.Heeds good' s as := by
  induction as with
  | nil =>
      intro s _
      trivial
  | cons a as ih =>
      intro s h
      exact ⟨himp s a h.1, fun s' hstep => ih (h.2 s' hstep)⟩

/-- The actions that meet a promise are those that heed the condition under which
one action keeps it. -/
theorem meets_iff_heeds (hpromise : ∀ s, inv s → promise s)
    (hgood : ∀ s a, inv s → M.enabled s a → good s a →
      (∀ e, M.step s a = .error e → allowed e) ∧ ∀ s', M.step s a = .ok s' → inv s')
    (hbad : ∀ s a, inv s → M.enabled s a → ¬ good s a →
      (∀ e, M.step s a = .error e → ¬ allowed e) ∧ ∀ s', M.step s a = .ok s' → ¬ promise s')
    (as : List A) : ∀ {s : S}, inv s → M.Legal s as →
      (M.Meets allowed promise s as ↔ M.Heeds good s as) := by
  induction as with
  | nil =>
      intro s hs _
      simp only [Meets, Heeds, hpromise s hs]
  | cons a as ih =>
      intro s hs hlegal
      obtain ⟨hen, hrest⟩ := hlegal
      constructor
      · rintro ⟨-, hallowed, hmeets⟩
        have ha : good s a := by
          refine Classical.byContradiction fun ha => ?_
          obtain ⟨hfails, hbreaks⟩ := hbad s a hs hen ha
          cases hstep : M.step s a with
          | error e => exact hfails e hstep (hallowed e hstep)
          | ok s' => exact hbreaks s' hstep (hmeets s' hstep).head
        refine ⟨ha, fun s' hstep => ?_⟩
        exact (ih ((hgood s a hs hen ha).2 s' hstep) (hrest s' hstep)).mp (hmeets s' hstep)
      · rintro ⟨ha, hheeds⟩
        obtain ⟨hallowed, hinv⟩ := hgood s a hs hen ha
        refine ⟨hpromise s hs, hallowed, fun s' hstep => ?_⟩
        exact (ih (hinv s' hstep) (hrest s' hstep)).mpr (hheeds s' hstep)

end Promises

end Machine
