import Clausal.Rules.Simplify

/-!
# Canonical operand order

The operands of a commutative operator in the structural order of expressions.
-/

namespace Clausal.Rules

/-- Operands in structural order. -/
def sorted (pool : Pool) (operands : List ExprId) : List ExprId :=
  operands.mergeSort fun a b => (pool.compare a b).isLE

/-- The operator on sorted operands, unless the order is fixed or is sorted
already. -/
def canonicalization (pool : Pool) (op : Op) (operands : List ExprId) : Option Draft :=
  if op.isCommutative then
    let inOrder := sorted pool operands
    if inOrder = operands then none else some (.ofKnown op inOrder)
  else none

/-- Store the operator on sorted operands, if the order changes. -/
def canonicalize (op : Op) (operands : List ExprId) : Build (Option ExprId) := do
  Draft.build? (canonicalization (← get) op operands)

end Clausal.Rules
