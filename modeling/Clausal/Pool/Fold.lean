import Std.Data.DHashMap
import Clausal.Pool

/-!
# Folds over expressions

A fold computes a result for an expression from the results for its operands.
`Pool.foldTree` says what is computed, by following the tree of the expression.
`Pool.fold` computes it with a table of results, so that a shared part is looked
at once and nodes that do not belong to the expression are not looked at. A
result in the table comes with a proof that it is the right one, and `fold_eq`
follows.
-/

namespace Clausal.Pool

variable {α : Type}

/-- The result for an expression, by following its tree. -/
def foldTree (pool : Pool) (step : ExprId → List α → α) (e : ExprId) : α :=
  step e ((pool.operands e).attach.map fun operand => pool.foldTree step operand.1)
termination_by e.index
decreasing_by
  exact index_lt_of_mem_operands operand.2

/-- The result for an expression comes from the results for its operands. -/
theorem foldTree_eq (pool : Pool) (step : ExprId → List α → α) (e : ExprId) :
    pool.foldTree step e = step e ((pool.operands e).map (pool.foldTree step)) := by
  rw [foldTree, List.attach_map_val (f := pool.foldTree step)]

/-- A computed result. -/
abbrev Result (pool : Pool) (step : ExprId → List α → α) (e : ExprId) : Type :=
  { result : α // result = pool.foldTree step e }

/-- Computed results by expression. -/
abbrev Results (pool : Pool) (step : ExprId → List α → α) : Type :=
  Std.DHashMap ExprId (pool.Result step)

mutual

/-- The result for an expression, and the results that were computed for it. -/
def foldShared (pool : Pool) (step : ExprId → List α → α) (e : ExprId)
    (results : pool.Results step) : pool.Result step e × pool.Results step :=
  match results.get? e with
  | some result => (result, results)
  | none =>
    match pool.foldOperands step e.index (pool.operands e)
        (fun _ member => index_lt_of_mem_operands member) results with
    | (operands, results) =>
      let result : pool.Result step e :=
        ⟨step e operands.1, by rw [operands.2, foldTree_eq pool step e]⟩
      (result, results.insert e result)
termination_by (e.index, 1, 0)

/-- The results for expressions with numbers below `bound`. -/
def foldOperands (pool : Pool) (step : ExprId → List α → α) (bound : Nat)
    (operands : List ExprId) (below : ∀ operand ∈ operands, operand.index < bound)
    (results : pool.Results step) :
    { found : List α // found = operands.map (pool.foldTree step) } × pool.Results step :=
  match operands with
  | [] => (⟨[], rfl⟩, results)
  | operand :: rest =>
    have smaller : operand.index < bound := below operand List.mem_cons_self
    match pool.foldShared step operand results with
    | (first, results) =>
      match pool.foldOperands step bound rest
          (fun other member => below other (List.mem_cons_of_mem operand member)) results with
      | (others, results) =>
        (⟨first.1 :: others.1, by rw [first.2, others.2, List.map_cons]⟩, results)
termination_by (bound, 0, operands.length)

end

/-- The result for an expression. -/
def fold (pool : Pool) (step : ExprId → List α → α) (e : ExprId) : α :=
  (pool.foldShared step e ∅).1.1

/-- Sharing makes no difference to the result. -/
theorem fold_eq_foldTree (pool : Pool) (step : ExprId → List α → α) (e : ExprId) :
    pool.fold step e = pool.foldTree step e :=
  (pool.foldShared step e ∅).1.2

/-- The result for an expression comes from the results for its operands. -/
theorem fold_eq (pool : Pool) (step : ExprId → List α → α) (e : ExprId) :
    pool.fold step e = step e ((pool.operands e).map (pool.fold step)) := by
  have same : pool.fold step = pool.foldTree step := funext (pool.fold_eq_foldTree step)
  rw [same, foldTree_eq]

end Clausal.Pool
