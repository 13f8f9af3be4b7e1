import Mathlib.Tactic
import Mathlib.Order.Bounds.Basic
import Mathlib.Algebra.BigOperators.Group.List.Basic

/-!
# Hypura.Core.Linear

Mixed-integer linear programs as a modelling language builds them, and what it means
for a point to solve one.

The coefficients may be of any type `F`; `val : F → ℚ` says which numbers they stand
for, and satisfaction and optimality are about those numbers. `isLeast_of_reformulation`
is the argument by which a linearised program is shown to optimise a nonlinear
objective: feasible designs lift to feasible points of no greater cost, feasible points
project to feasible designs of no greater cost.
-/

namespace Hypura.Core

/-- A linear expression over the variables `V`. -/
inductive LinExpr (V F : Type)
  | const (c : F)
  | term (c : F) (v : V)
  | add (a b : LinExpr V F)
  | sub (a b : LinExpr V F)

namespace LinExpr
variable {V F : Type}

/-- The sum of a list of expressions, accumulated from `zero`. -/
def sum (zero : F) (es : List (LinExpr V F)) : LinExpr V F :=
  es.foldl add (const zero)

/-- The exact value of an expression at a point. -/
def eval (val : F → ℚ) (σ : V → F) : LinExpr V F → ℚ
  | const c => val c
  | term c v => val c * val (σ v)
  | add a b => eval val σ a + eval val σ b
  | sub a b => eval val σ a - eval val σ b

theorem eval_foldl_add (val : F → ℚ) (σ : V → F) (es : List (LinExpr V F)) (e : LinExpr V F) :
    (es.foldl add e).eval val σ = e.eval val σ + (es.map (eval val σ)).sum := by
  induction es generalizing e with
  | nil => simp
  | cons a es ih =>
      rw [List.foldl_cons, ih, eval, List.map_cons, List.sum_cons, add_assoc]

theorem eval_sum {val : F → ℚ} {zero : F} (hzero : val zero = 0) (σ : V → F)
    (es : List (LinExpr V F)) : (sum zero es).eval val σ = (es.map (eval val σ)).sum := by
  rw [sum, eval_foldl_add, eval, hzero, zero_add]

end LinExpr

/-- The relation of a constraint. -/
inductive Rel
  | le
  | ge
  | eq

structure Constraint (V F : Type) where
  lhs : LinExpr V F
  rel : Rel
  rhs : LinExpr V F

/-- A program to minimise: which variables are binary and which are nonnegative, the
objective, and the constraints in the order they were added. -/
structure Program (V F : Type) where
  binary : List V
  nonneg : List V
  objective : LinExpr V F
  constraints : List (Constraint V F)

section Semantics
variable {V F : Type} (val : F → ℚ)

/-- The constraint holds exactly. -/
def Constraint.Holds (c : Constraint V F) (σ : V → F) : Prop :=
  match c.rel with
  | .le => c.lhs.eval val σ ≤ c.rhs.eval val σ
  | .ge => c.rhs.eval val σ ≤ c.lhs.eval val σ
  | .eq => c.lhs.eval val σ = c.rhs.eval val σ

instance (c : Constraint V F) (σ : V → F) : Decidable (c.Holds val σ) := by
  unfold Constraint.Holds
  split <;> infer_instance

/-- A point that meets the bounds of its variables and every constraint exactly. -/
structure Program.Satisfies (p : Program V F) (σ : V → F) : Prop where
  binary : ∀ v ∈ p.binary, val (σ v) = 0 ∨ val (σ v) = 1
  nonneg : ∀ v ∈ p.nonneg, 0 ≤ val (σ v)
  constraints : ∀ c ∈ p.constraints, c.Holds val σ

instance (p : Program V F) (σ : V → F) : Decidable (p.Satisfies val σ) :=
  decidable_of_iff ((∀ v ∈ p.binary, val (σ v) = 0 ∨ val (σ v) = 1) ∧
      (∀ v ∈ p.nonneg, 0 ≤ val (σ v)) ∧ ∀ c ∈ p.constraints, c.Holds val σ)
    ⟨fun ⟨h₁, h₂, h₃⟩ => ⟨h₁, h₂, h₃⟩, fun ⟨h₁, h₂, h₃⟩ => ⟨h₁, h₂, h₃⟩⟩

/-- A feasible point of least objective. -/
structure Program.IsOptimal (p : Program V F) (σ : V → F) : Prop where
  satisfies : p.Satisfies val σ
  le : ∀ τ, p.Satisfies val τ → p.objective.eval val σ ≤ p.objective.eval val τ

end Semantics

/-- **Exact reformulation.** If every design of `S` lifts to a feasible point that costs
no more, and every feasible point projects to a design of `S` that costs no more, then
the projection of an optimal point is a best design, and its cost is the optimum. -/
theorem isLeast_of_reformulation {V F X : Type} {val : F → ℚ} {p : Program V F} {S : Set X}
    {cost : X → ℚ} {l : X → V → F} {r : (V → F) → X}
    (hlift : ∀ x ∈ S, p.Satisfies val (l x) ∧ p.objective.eval val (l x) ≤ cost x)
    (hproj : ∀ σ, p.Satisfies val σ → r σ ∈ S ∧ cost (r σ) ≤ p.objective.eval val σ)
    {σ : V → F} (hσ : p.IsOptimal val σ) :
    IsLeast (cost '' S) (cost (r σ)) ∧ cost (r σ) = p.objective.eval val σ := by
  obtain ⟨hmem, hle⟩ := hproj σ hσ.satisfies
  have hopt : ∀ x ∈ S, p.objective.eval val σ ≤ cost x := by
    intro x hx
    obtain ⟨hsat, hcost⟩ := hlift x hx
    exact (hσ.le _ hsat).trans hcost
  refine ⟨⟨⟨_, hmem, rfl⟩, ?_⟩, le_antisymm hle (hopt _ hmem)⟩
  rintro _ ⟨x, hx, rfl⟩
  exact hle.trans (hopt x hx)

end Hypura.Core
