import Mathlib
import Clausal.Pool.Evaluate
import Clausal.Proofs.Growth

/-!
# Evaluation of stored expressions

The value of an expression by its top node: `evaluate_var`, `evaluate_const` and
`evaluate_apply` say when there is a value, and proofs about values go by
induction over stored nodes with `Has.induction`.

The value does not change when the pool grows, belongs to the type of the
expression, depends on the reachable variables only, and exists as soon as these
have values of their types.
-/

namespace Clausal

namespace Node

@[simp] theorem operands_var (ty : Ty) (name : String) : operands ⟨ty, .var name⟩ = [] := rfl

@[simp] theorem operands_const (ty : Ty) (value : Value) : operands ⟨ty, .const value⟩ = [] := rfl

@[simp] theorem operands_apply (ty : Ty) (op : Op) (arguments : List ExprId) :
    operands ⟨ty, .apply op arguments⟩ = arguments := rfl

end Node

namespace Pool

variable {pool before after : Pool} {e : ExprId} {env : Env}

/-- What holds of a node when it holds of its operands holds of all stored
expressions. -/
theorem Has.induction {motive : (e : ExprId) → pool.Has e → Prop}
    (step : ∀ (e : ExprId) (node : Node) (found : pool.node? e = some node),
      (∀ (operand : ExprId) (member : operand ∈ node.operands),
        motive operand (has_of_mem_operands found member)) → motive e (has_iff.mpr ⟨node, found⟩))
    {e : ExprId} (stored : pool.Has e) : motive e stored := by
  induction index : e.index using Nat.strong_induction_on generalizing e with
  | _ bound inductionHypothesis =>
    obtain ⟨node, found⟩ := has_iff.mp stored
    refine step e node found fun operand member => ?_
    have smaller := index_lt_of_node? found member
    exact inductionHypothesis operand.index (by omega) (has_of_mem_operands found member) rfl

theorem operands_of_node? {node : Node} (stored : pool.node? e = some node) :
    pool.operands e = node.operands := by
  simp only [operands, stored]

section Equations

/-- The value of a node comes from the prepared values of its operands. -/
theorem evaluate_eq_of_node? {node : Node} (stored : pool.node? e = some node) :
    pool.evaluate e env =
      node.evaluate env (node.operands.map (pool.fold (pool.prepare env))) := by
  unfold evaluate
  rw [fold_eq, operands_of_node? stored]
  simp only [prepare, Thunk.get, node_eq_ok_iff.mpr stored, Except.mapError, bind, Except.bind]

/-- A variable has the value that is given to its name, if that is of its type. -/
theorem evaluate_var {ty : Ty} {name : String} {value : Value}
    (stored : pool.node? e = some ⟨ty, .var name⟩) :
    pool.evaluate e env = .ok value ↔ env name = some value ∧ ty.admits value := by
  rw [evaluate_eq_of_node? stored]
  simp only [Node.evaluate]
  cases env name with
  | none => simp
  | some given =>
    by_cases admitted : ty.admits given
    · simp only [admitted, if_true, Except.ok.injEq, Option.some.injEq]
      exact ⟨fun same => ⟨same, same ▸ admitted⟩, And.left⟩
    · simp only [if_neg admitted]
      grind

theorem evaluate_const {ty : Ty} {value : Value}
    (stored : pool.node? e = some ⟨ty, .const value⟩) : pool.evaluate e env = .ok value := by
  rw [evaluate_eq_of_node? stored]
  rfl

theorem evaluate_apply_eq {ty : Ty} {op : Op} {operands : List ExprId}
    (stored : pool.node? e = some ⟨ty, .apply op operands⟩) :
    pool.evaluate e env = (do
      let values ← operands.mapM fun operand => pool.evaluate operand env
      (op.eval values).mapError .fault) := by
  rw [evaluate_eq_of_node? stored]
  simp only [Node.evaluate, Node.operands, Form.operands, List.mapM_map]
  rfl

/-- An application has a value when its operands have values on which the
operator has one. -/
theorem evaluate_apply {ty : Ty} {op : Op} {operands : List ExprId} {value : Value}
    (stored : pool.node? e = some ⟨ty, .apply op operands⟩) :
    pool.evaluate e env = .ok value ↔
      ∃ values, List.Forall₂ (fun operand value => pool.evaluate operand env = .ok value) operands
        values ∧ op.eval values = .ok value := by
  simp only [evaluate_apply_eq stored, bind_eq_ok_iff, mapError_eq_ok_iff, mapM_eq_ok_iff]

end Equations

/-- An expression occurs in another one. -/
def Reaches (pool : Pool) : ExprId → ExprId → Prop :=
  Relation.ReflTransGen fun e operand => operand ∈ pool.operands e

theorem Reaches.of_operand {node : Node} {operand other : ExprId}
    (stored : pool.node? e = some node) (member : operand ∈ node.operands)
    (further : pool.Reaches operand other) : pool.Reaches e other :=
  .head (by rwa [operands_of_node? stored]) further

/-- What occurs in an application, other than the application, occurs in an operand. -/
theorem Reaches.exists_operand {node : Node} {other : ExprId} (stored : pool.node? e = some node)
    (reaches : pool.Reaches e other) (differ : other ≠ e) :
    ∃ operand ∈ node.operands, pool.Reaches operand other := by
  rcases Relation.ReflTransGen.cases_head reaches with same | ⟨operand, member, further⟩
  · exact (differ same.symm).elim
  · exact ⟨operand, operands_of_node? stored ▸ member, further⟩

theorem reaches_iff {node : Node} {other : ExprId} (stored : pool.node? e = some node) :
    pool.Reaches e other ↔ other = e ∨ ∃ operand ∈ node.operands, pool.Reaches operand other := by
  constructor
  · intro reaches
    by_cases same : other = e
    · exact .inl same
    · exact .inr (reaches.exists_operand stored same)
  · rintro (rfl | ⟨operand, member, further⟩)
    · exact .refl
    · exact .of_operand stored member further

/-- Nothing but a leaf itself occurs in the leaf. -/
theorem Reaches.eq_of_leaf {node : Node} {other : ExprId} (stored : pool.node? e = some node)
    (leaf : node.operands = []) (reaches : pool.Reaches e other) : other = e := by
  by_contra differ
  obtain ⟨operand, member, -⟩ := reaches.exists_operand stored differ
  rw [leaf] at member
  cases member

theorem Reaches.has {other : ExprId} (reaches : pool.Reaches e other) (stored : pool.Has e) :
    pool.Has other := by
  induction reaches with
  | refl => exact stored
  | tail _ isOperand inductionHypothesis =>
    obtain ⟨node, found⟩ := has_iff.mp inductionHypothesis
    rw [operands_of_node? found] at isOperand
    exact has_of_mem_operands found isOperand

/-- What occurs in an expression has no larger number. -/
theorem Reaches.index_le {other : ExprId} (reaches : pool.Reaches e other) :
    other.index ≤ e.index := by
  induction reaches with
  | refl => exact le_rfl
  | tail _ isOperand inductionHypothesis =>
    exact (index_lt_of_mem_operands isOperand).le.trans inductionHypothesis

/-- What occurs in a stored expression stays the same when the pool grows. -/
theorem Extends.reaches_iff {other : ExprId} (extension : before.Extends after)
    (stored : before.Has e) : after.Reaches e other ↔ before.Reaches e other := by
  constructor
  · intro reaches
    induction reaches with
    | refl => exact .refl
    | tail _ isOperand inductionHypothesis =>
      rw [extension.operands_eq (inductionHypothesis.has stored)] at isOperand
      exact inductionHypothesis.tail isOperand
  · intro reaches
    induction reaches with
    | refl => exact .refl
    | tail reaches isOperand inductionHypothesis =>
      rw [← extension.operands_eq (Reaches.has reaches stored)] at isOperand
      exact inductionHypothesis.tail isOperand

/-- The value of an expression depends on the nodes and on the values of the
variables that occur in it. -/
theorem evaluate_congr {other : Env} (extension : before.Extends after) (stored : before.Has e)
    (agree : ∀ {x ty name}, before.Reaches e x → before.node? x = some ⟨ty, .var name⟩ →
      other name = env name) : after.evaluate e other = before.evaluate e env := by
  induction stored using Has.induction with
  | step e node found inductionHypothesis =>
    obtain ⟨ty, form⟩ := node
    cases form with
    | var name =>
      rw [evaluate_eq_of_node? found, evaluate_eq_of_node? (extension found)]
      simp only [Node.evaluate, agree .refl found]
    | const value => rw [evaluate_const found, evaluate_const (extension found)]
    | apply op operands =>
      rw [evaluate_apply_eq found, evaluate_apply_eq (extension found)]
      congr 1
      refine mapM_congr fun operand member => inductionHypothesis operand member ?_
      exact fun reaches => agree (.of_operand found member reaches)

/-- Stored expressions keep their values when the pool grows. -/
theorem Extends.evaluate_eq (extension : before.Extends after) (stored : before.Has e) :
    after.evaluate e env = before.evaluate e env :=
  evaluate_congr extension stored fun _ _ => rfl

section Typed

variable {ty : Ty} (typed : pool.WellTyped)
include typed

/-- A value belongs to the type of its expression. -/
theorem WellTyped.admits {value : Value} (hasTy : pool.HasTy e ty)
    (evaluated : pool.evaluate e env = .ok value) : ty.admits value := by
  induction hasTy.has using Has.induction generalizing ty value with
  | step e node found inductionHypothesis =>
    obtain ⟨form, stored⟩ := hasTy
    obtain rfl := Option.some.inj (found.symm.trans stored)
    have fits := typed.fits found
    cases form with
    | var name => exact ((evaluate_var found).mp evaluated).2
    | const constant =>
      obtain rfl := Except.ok.inj ((evaluate_const found).symm.trans evaluated)
      exact fits
    | apply op operands =>
      obtain ⟨types, each, operator⟩ := fits.typed
      obtain ⟨values, operandValues, computed⟩ := (evaluate_apply found).mp evaluated
      have admitted := forall₂_join each operandValues fun operand member operandTy operandValue
        operandTyped operandEvaluated =>
          inductionHypothesis operand member operandTyped operandEvaluated
      obtain ⟨result, resultComputed, resultAdmitted⟩ := operator.exists_eval admitted
      obtain rfl := Except.ok.inj (computed.symm.trans resultComputed)
      exact resultAdmitted

/-- The values of operands belong to the types of the operands. -/
theorem WellTyped.admitsAll {operands : List ExprId} {types : List Ty} {values : List Value}
    (each : List.Forall₂ pool.HasTy operands types)
    (evaluated : List.Forall₂ (fun operand value => pool.evaluate operand env = .ok value) operands
      values) : List.Forall₂ (fun ty value => ty.admits value) types values :=
  forall₂_join each evaluated fun _ _ _ _ hasTy value => typed.admits hasTy value

end Typed

/-- The variables that occur in an expression have values of their types. -/
def Binds (pool : Pool) (env : Env) (e : ExprId) : Prop :=
  ∀ ⦃x : ExprId⦄ ⦃ty : Ty⦄ ⦃name : String⦄, pool.Reaches e x →
    pool.node? x = some ⟨ty, .var name⟩ → ∃ value, env name = some value ∧ ty.admits value

theorem Extends.binds_iff (extension : before.Extends after) (stored : before.Has e) :
    after.Binds env e ↔ before.Binds env e := by
  unfold Binds
  refine forall_congr' fun x => forall_congr' fun ty => forall_congr' fun name => ?_
  rw [extension.reaches_iff stored]
  refine imp_congr_right fun reaches => ?_
  rw [extension.node?_eq (reaches.has stored)]

/-- An expression with a value has only variables with values of their types. -/
theorem binds_of_evaluate {value : Value} (stored : pool.Has e)
    (evaluated : pool.evaluate e env = .ok value) : pool.Binds env e := by
  induction stored using Has.induction generalizing value with
  | step e node found inductionHypothesis =>
    intro x ty name reaches isVar
    by_cases same : x = e
    · subst same
      exact ⟨value, (evaluate_var isVar).mp evaluated⟩
    · obtain ⟨operand, member, further⟩ := reaches.exists_operand found same
      obtain ⟨operandTy, _ | _ | ⟨op, operands⟩⟩ := node
      · cases member
      · cases member
      · obtain ⟨values, each, -⟩ := (evaluate_apply found).mp evaluated
        obtain ⟨operandValue, -, operandEvaluated⟩ := exists_of_forall₂_of_mem each member
        exact inductionHypothesis operand member operandEvaluated further isVar

/-- An expression has a value as soon as its variables have values. -/
theorem WellTyped.exists_evaluate (typed : pool.WellTyped) (stored : pool.Has e)
    (bound : pool.Binds env e) : ∃ value, pool.evaluate e env = .ok value := by
  induction stored using Has.induction with
  | step e node found inductionHypothesis =>
    obtain ⟨ty, form⟩ := node
    cases form with
    | var name =>
      obtain ⟨value, given, admitted⟩ := bound .refl found
      exact ⟨value, (evaluate_var found).mpr ⟨given, admitted⟩⟩
    | const value => exact ⟨value, evaluate_const found⟩
    | apply op operands =>
      obtain ⟨types, each, operator⟩ := (typed.fits found).typed
      obtain ⟨values, evaluated⟩ := exists_forall₂ fun operand member =>
        inductionHypothesis operand member fun _ _ _ reaches =>
          bound (.of_operand found member reaches)
      obtain ⟨value, computed, -⟩ := operator.exists_eval (typed.admitsAll each evaluated)
      exact ⟨value, (evaluate_apply found).mpr ⟨values, evaluated, computed⟩⟩

end Pool

end Clausal
