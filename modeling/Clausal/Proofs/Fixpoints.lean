import Mathlib
import Clausal.Proofs.Uses

/-!
# Fixpoints of simplification

What a rule makes of an expression is simplified again, so simplification is a
recursion over results. `Pass.simplifyWithin` cuts it off at a number of results
inside one another. A larger number changes nothing where a smaller one suffices
(`Pass.simplifyWithin_approximates`), and the weight of the expression suffices, since
every rule lowers it. The cut-off is therefore never met.
-/

namespace Clausal

open Stateful

section Bounds

theorem Walk.lookUp_bind {σ α : Type} {memo : Memo σ} {e : ExprId} {next : Option ExprId → Walk σ α}
    {workspace : Workspace σ} :
    (lookUp memo e >>= next) workspace = next (memo.find? workspace.memory e) workspace :=
  rfl

/-- A walk from the operands up approximates another one if its step does at every node. -/
theorem Walk.bottomUp_approximates {σ : Type} {memo : Memo σ} {step other : ExprId → Walk σ ExprId}
    (each : ∀ e, Approximates (step e) (other e)) (e : ExprId) :
    Approximates (bottomUp memo step e) (bottomUp memo other e) := by
  -- The operands depend on the pool at that time, but always have smaller indices.
  induction index : e.index using Nat.strong_induction_on generalizing e with
  | _ size inductionHypothesis =>
  subst index
  rw [bottomUp_eq, bottomUp_eq]
  refine (Approximates.refl _).bind fun found => ?_
  cases found with
  | some result => exact .refl _
  | none =>
    refine (Approximates.refl _).bind fun workspace => ?_
    have operands : Approximates ((workspace.pool.operands e).mapM (bottomUp memo step))
        ((workspace.pool.operands e).mapM (bottomUp memo other)) :=
      .mapM fun operand member =>
        inductionHypothesis _ (Pool.index_lt_of_mem_operands member) operand rfl
    refine operands.bind fun new => (Approximates.refl _).bind fun same => ?_
    exact (each same).bind fun result => .refl _

namespace Pass

variable {e : ExprId} {workspace : Workspace PassMemory}

theorem simplifyTop_approximates {again other : ExprId → Work ExprId}
    (each : ∀ e, Approximates (again e) (other e)) (e : ExprId) :
    Approximates (simplifyTop again e) (simplifyTop other e) := by
  refine (Approximates.refl _).bind fun result => ?_
  split
  · exact .refl _
  · exact each result

theorem simplifyWithin_approximates_succ (bound : Nat) (e : ExprId) :
    Approximates (simplifyWithin bound e) (simplifyWithin (bound + 1) e) := by
  induction bound generalizing e with
  | zero =>
    intro state last result ended
    cases ended
  | succ bound inductionHypothesis =>
    exact Walk.bottomUp_approximates (simplifyTop_approximates inductionHypothesis) e

/-- With a larger bound, simplification ends as it does with a sufficient one. -/
theorem simplifyWithin_approximates {bound larger : Nat} (le : bound ≤ larger) (e : ExprId) :
    Approximates (simplifyWithin bound e) (simplifyWithin larger e) := by
  induction larger, le using Nat.le_induction with
  | base => exact .refl _
  | succ larger _ inductionHypothesis =>
    exact inductionHypothesis.trans (simplifyWithin_approximates_succ larger e)

/-- The pass is simplification with the weight as a bound, also where the memory has a
result: the walk finds it too. -/
theorem run_simplify_eq :
    run .simplify e workspace = simplifyWithin (workspace.pool.weight e) e workspace := by
  obtain ⟨bound, same⟩ := Nat.exists_eq_succ_of_ne_zero (workspace.pool.weight_pos e).ne'
  rw [run, simplifyExpr, lookUpOr, Walk.lookUp_bind]
  cases found : (memo .simplify).find? workspace.memory e with
  | some result => rw [same, simplifyWithin, Walk.bottomUp_eq, Walk.lookUp_bind, found]
  | none => rfl

end Pass

end Bounds

namespace Workspace

variable {workspace : Workspace PassMemory} {e : ExprId}

/-- A negation of a stored boolean can be added. -/
theorem Reachable.exists_negation {x : ExprId} (reachable : workspace.Reachable)
    (isBool : workspace.pool.HasTy x .bool) :
    ∃ (after : Workspace PassMemory) (e : ExprId), after.Reachable ∧
      workspace.pool.Extends after.pool ∧ after.pool.node? e = some ⟨.bool, .apply .not [x]⟩ := by
  have applies : workspace.pool.Applies .not [x] .bool :=
    ⟨⟨_, .cons isBool .nil, .not⟩, by simp⟩
  exact reachable.exists_built (.apply .not [x]) (Build.apply_yields applies)

/-- In every workspace, whatever operations led to it, simplification ends, and it does so
in the same way with every bound that is no less than the weight. No rule applies to
an application that occurs in the result. -/
theorem Used.simplify_fixpoint (used : workspace.Used) (stored : workspace.pool.Has e) :
    ∃ r after, Pass.run .simplify e workspace = .ok r after ∧
      (∀ bound, workspace.pool.weight e ≤ bound →
        Pass.simplifyWithin bound e workspace = .ok r after) ∧
      ∀ x ty op operands, after.pool.Reaches r x →
        after.pool.node? x = some ⟨ty, .apply op operands⟩ →
          Rules.simplify op operands after.pool = .ok none after.pool := by
  obtain ⟨r, after, ended, -, result⟩ :=
    (Pass.simplifyWithin_yields used.coherent stored le_rfl).exists_ok
  refine ⟨r, after, Pass.run_simplify_eq.trans ended, fun bound enough => ?_, ?_⟩
  · exact Pass.simplifyWithin_approximates enough e ended
  · intro x ty op operands reaches found
    have noRule := result.settles reaches op (Pool.op?_of_apply found)
    rw [Pool.operands_of_node? found] at noRule
    exact Pass.simplify_eq_none_iff.mpr noRule

/-- A negation of a negation does not stay. -/
theorem simplify_fixpoint_negations :
    ∃ (workspace after : Workspace PassMemory) (e inner x r : ExprId), workspace.Used ∧
      workspace.pool.node? inner = some ⟨.bool, .apply .not [x]⟩ ∧
      workspace.pool.node? e = some ⟨.bool, .apply .not [inner]⟩ ∧
      Pass.run .simplify e workspace = .ok r after ∧ r ≠ e := by
  obtain ⟨first, x, firstReachable, xStored⟩ :=
    exists_reachable_variable "x" (show Ty.bool.Sized from trivial)
  obtain ⟨second, inner, secondReachable, -, innerStored⟩ :=
    firstReachable.exists_negation ⟨_, xStored⟩
  obtain ⟨workspace, e, reachable, extension, stored⟩ :=
    secondReachable.exists_negation ⟨_, innerStored⟩
  replace innerStored := extension innerStored
  have used := reachable.evolved.used
  have isStored : workspace.pool.Has e := Pool.has_iff.mpr ⟨_, stored⟩
  obtain ⟨r, after, ended, -, fixed⟩ := used.simplify_fixpoint isStored
  refine ⟨workspace, after, e, inner, x, r, used, innerStored, stored, ended, ?_⟩
  rintro rfl
  have later := ((Pass.run_tries .simplify used.coherent isStored).of_ok ended).1.extension
  have noRule := Pass.simplify_eq_none_iff.mp (fixed r .bool .not [inner] .refl (later stored))
  have notConstant : after.pool.constant? inner = none := by
    simp [Pool.constant?, later innerStored]
  have pair : after.pool.negated? inner = some x := Pool.negated?_eq_some_iff.mpr ⟨_, _, later innerStored⟩
  simp [Rules.simplification, notConstant, pair] at noRule

end Workspace

end Clausal
