import Std.Data.HashSet
import Clausal.Pool.Tree

/-!
# Reachable expressions

The expressions reachable from a list of roots, each once, in depth-first order
with a node before its operands and operands from left to right.
-/

namespace Clausal.Pool

/-- Continue a traversal: `pending` holds the expressions still to look at, the
next one first. -/
def visit (pool : Pool) (visited : Std.HashSet ExprId) (order : Array ExprId)
    (pending : List ExprId) : Array ExprId :=
  match pending with
  | [] => order
  | e :: rest =>
    if visited.contains e then pool.visit visited order rest
    else pool.visit (visited.insert e) (order.push e) (pool.operands e ++ rest)
termination_by total pool.treeSize pending
decreasing_by
  · rw [total_cons, pool.treeSize_eq e]
    omega
  · rw [total_append, total_cons, pool.treeSize_eq e]
    omega

/-- The expressions reachable from `roots`, in order of first visit. -/
def descendants (pool : Pool) (roots : List ExprId) : List ExprId :=
  (pool.visit ∅ #[] roots).toList

/-- The variables reachable from `roots`, in order of first visit. -/
def variablesOf (pool : Pool) (roots : List ExprId) : List ExprId :=
  (pool.descendants roots).filter pool.isVariable

/-- The number of distinct nodes of an expression. -/
def dagSize (pool : Pool) (e : ExprId) : Nat :=
  (pool.descendants [e]).length

end Clausal.Pool
