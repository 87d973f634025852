/-
# `Lib.GraphWalk` — walking a graph depth first, with no record of visits

A graph is given by the successors of each node, a finite list; it may have any number
of nodes.  A walk goes into each successor of a node in turn, whether it has been there
before or not, and does a finite amount of work wherever it comes.

**The rules.**  A walk comes to a node once for each path that leads there, and the
paths from a node are its own and those of its successors (`paths_eq`).  It ends if no
infinite chain starts where it still has to go (`Walk.acc`), and where finitely many
nodes can be reached that is so if none of them leads back to itself (`acc_of_acyclic`).
-/
import Mathlib.Algebra.Order.BigOperators.Group.List
import Mathlib.Data.ENat.Lattice
import Mathlib.Data.Fintype.Card
import Mathlib.Data.Set.Finite.Basic
import Mathlib.Order.CompleteBooleanAlgebra
import Mathlib.Order.CompletePartialOrder

universe u

namespace GraphWalk

variable {K : Type u} (next : K → List K)

/-- From `a` one step leads to `b`. -/
def Follows (a b : K) : Prop := b ∈ next a

/-- The nodes that can be reached. -/
def reachable (k : K) : Set K := {a | Relation.ReflTransGen (Follows next) k a}

/-! ## Paths -/

section paths

variable [DecidableEq K] (j : K)

/-- How many paths of fewer than `n` steps lead to `j`. -/
def pathsWithin : ℕ → K → ℕ
  | 0, _ => 0
  | n + 1, k => (if k = j then 1 else 0) + ((next k).map (pathsWithin n)).sum

/-- How many paths lead to `j`. -/
noncomputable def paths (k : K) : ℕ∞ := ⨆ n, (pathsWithin next j n k : ℕ∞)

theorem pathsWithin_mono (k : K) : Monotone fun n => pathsWithin next j n k := by
  refine monotone_nat_of_le_succ fun n => ?_
  induction n generalizing k with
  | zero => exact Nat.zero_le _
  | succ n ih =>
      rw [pathsWithin, pathsWithin]
      exact Nat.add_le_add_left (List.sum_le_sum fun c _ => ih c) _

/-- The paths of several nodes together. -/
theorem sum_paths (l : List K) :
    (l.map (paths next j)).sum = ⨆ n, ((l.map (pathsWithin next j n)).sum : ℕ∞) := by
  induction l with
  | nil => simp
  | cons c l ih =>
      have hsum : Monotone fun n => ((l.map (pathsWithin next j n)).sum : ℕ∞) := by
        intro m n hmn
        exact Nat.cast_le.mpr (List.sum_le_sum fun c _ => pathsWithin_mono next j c hmn)
      have hone : Monotone fun n => (pathsWithin next j n c : ℕ∞) := by
        intro m n hmn
        exact Nat.cast_le.mpr (pathsWithin_mono next j c hmn)
      rw [List.map_cons, List.sum_cons, ih, paths, ENat.iSup_add_iSup_of_monotone hone hsum]
      simp

/-- A path to `j` is empty, or goes on from a successor. -/
theorem paths_eq (k : K) :
    paths next j k = (if k = j then 1 else 0) + ((next k).map (paths next j)).sum := by
  have hmono : Monotone fun n => (pathsWithin next j n k : ℕ∞) := by
    intro m n hmn
    exact Nat.cast_le.mpr (pathsWithin_mono next j k hmn)
  calc paths next j k = ⨆ n, (pathsWithin next j (n + 1) k : ℕ∞) := (hmono.iSup_nat_add 1).symm
    _ = ⨆ n, ((if k = j then 1 else 0) + ((next k).map (pathsWithin next j n)).sum : ℕ∞) := by
        simp [pathsWithin]
    _ = _ := by rw [sum_paths, ENat.add_iSup]

end paths

/-! ## Walks -/

/-- A visit of a node: the work left there, and the successors left. -/
structure Visit (K : Type u) where
  work : ℕ
  ahead : List K

/-- One step of a walk, the innermost visit first. -/
inductive Walk : List (Visit K) → List (Visit K) → Prop where
  | work {w w' : ℕ} {ahead : List K} {rest : List (Visit K)} : w' < w →
      Walk (⟨w, ahead⟩ :: rest) (⟨w', ahead⟩ :: rest)
  | skip {w : ℕ} {k : K} {ahead : List K} {rest : List (Visit K)} :
      Walk (⟨w, k :: ahead⟩ :: rest) (⟨w, ahead⟩ :: rest)
  | enter {w w' : ℕ} {k : K} {ahead : List K} {rest : List (Visit K)} :
      Walk (⟨w, k :: ahead⟩ :: rest) (⟨w', next k⟩ :: ⟨w, ahead⟩ :: rest)
  | leave {v : Visit K} {rest : List (Visit K)} : Walk (v :: rest) rest

namespace Walk

variable {next}

/-- A visit ends if those it goes into do. -/
theorem acc_cons {rest : List (Visit K)} (hrest : Acc (flip (Walk next)) rest) {ahead : List K}
    (hahead : ∀ k ∈ ahead, ∀ w rest, Acc (flip (Walk next)) rest →
      Acc (flip (Walk next)) (⟨w, next k⟩ :: rest)) (w : ℕ) :
    Acc (flip (Walk next)) (⟨w, ahead⟩ :: rest) := by
  induction ahead generalizing w with
  | nil =>
      induction w using Nat.strongRecOn with
      | ind w ih =>
          refine ⟨_, fun vs hwalk => ?_⟩
          cases hwalk with
          | work hlt => exact ih _ hlt
          | leave => exact hrest
  | cons k ahead ihahead =>
      have hmore := ihahead fun c hc => hahead c (List.mem_cons_of_mem k hc)
      induction w using Nat.strongRecOn with
      | ind w ih =>
          refine ⟨_, fun vs hwalk => ?_⟩
          cases hwalk with
          | work hlt => exact ih _ hlt
          | skip => exact hmore w
          | enter => exact hahead k List.mem_cons_self _ _ (hmore w)
          | leave => exact hrest

/-- A walk ends if no infinite chain starts where it still has to go. -/
theorem acc {vs : List (Visit K)} (h : ∀ v ∈ vs, ∀ k ∈ v.ahead, Acc (flip (Follows next)) k) :
    Acc (flip (Walk next)) vs := by
  have hnode : ∀ k, Acc (flip (Follows next)) k → ∀ w rest, Acc (flip (Walk next)) rest →
      Acc (flip (Walk next)) (⟨w, next k⟩ :: rest) := by
    intro k hk
    induction hk with
    | intro k _ ih => exact fun w rest hrest => acc_cons hrest (fun c hc => ih c hc) w
  induction vs with
  | nil => exact ⟨_, fun _ hwalk => nomatch hwalk⟩
  | cons v vs ih =>
      have hrest := ih fun v' hv' => h v' (List.mem_cons_of_mem v hv')
      exact acc_cons hrest (fun k hk => hnode k (h v List.mem_cons_self k hk)) v.work

end Walk

/-- In a finite graph, no infinite chain starts where no cycle can be reached. -/
theorem acc_of_acyclic {k : K} (hfinite : (reachable next k).Finite)
    (hacyclic : ∀ a ∈ reachable next k, ¬ Relation.TransGen (Follows next) a a) :
    Acc (flip (Follows next)) k := by
  have : Finite (reachable next k) := hfinite
  let later (a b : reachable next k) : Prop := Relation.TransGen (Follows next) b.1 a.1
  have htrans : IsTrans _ later := ⟨fun _ _ _ hab hbc => hbc.trans hab⟩
  have hirrefl : Std.Irrefl later := ⟨fun a => hacyclic a.1 a.2⟩
  have hwf : WellFounded later := Finite.wellFounded_of_trans_of_irrefl later
  have hall : ∀ a : reachable next k, Acc (flip (Follows next)) a.1 := by
    intro a
    induction a using hwf.induction with
    | _ a ih =>
        exact ⟨_, fun b hb => ih ⟨b, a.2.tail hb⟩ (.single hb)⟩
  exact hall ⟨k, .refl⟩

end GraphWalk
