import Clausal.Pool.Fold
import Clausal.Total

/-!
# Measures of expressions

Two numbers that bound how long the passes over an expression can go on. The
weight counts tree nodes, a choice twice, and goes down with every
simplification. The rank is a height with a surcharge for the operators that
are expressed by others, and goes down from a node to the operands of what
replaces it.
-/

namespace Clausal

mutual

/-- How many levels an equality at a type adds until it is an equality of
booleans. -/
def Ty.equalityRank : Ty → Nat
  | .bool => 1
  | .uint _ => 3
  | .tuple fields => 2 + equalityRanks fields

/-- The largest number of levels among the fields of a tuple. -/
def Ty.equalityRanks : List Ty → Nat
  | [] => 0
  | field :: fields => max field.equalityRank (Ty.equalityRanks fields)

end

/-- The levels that an operator adds above its operands, given the type that
decides how it is expressed by others. -/
def Op.rankCost (ty : Ty) : Op → Nat
  | .implies => 2
  | .ite => if ty.isBool then 3 else 5
  | .eq => ty.equalityRank
  | .add width => 2 * width + 6
  | .mul width => (width + 1) * (2 * width + 4) + 6
  | _ => 1

/-- The tree nodes that an operator counts for. -/
def Op.weightCost : Op → Nat
  | .ite => 2
  | _ => 1

namespace Pool

/-- The weight of a node whose operands have the given weights. -/
def weightFrom (pool : Pool) (e : ExprId) (weights : List Nat) : Nat :=
  match pool.op? e with
  | some op => op.weightCost + total id weights
  | none => 1

/-- The weight of an expression. -/
def weight (pool : Pool) (e : ExprId) : Nat :=
  pool.fold pool.weightFrom e

/-- The type that decides how an application is expressed by others: that of
the first operand for an equality, and the result type otherwise. -/
def decidingTy (pool : Pool) (node : Node) : Ty :=
  match node.form with
  | .apply .eq (operand :: _) =>
    match pool.node? operand with
    | some node => node.ty
    | none => .bool
  | _ => node.ty

/-- The rank of a node whose operands have the given ranks. -/
def rankFrom (pool : Pool) (e : ExprId) (ranks : List Nat) : Nat :=
  match pool.node? e with
  | none => 0
  | some node =>
    match node.op? with
    | some op => op.rankCost (pool.decidingTy node) + ranks.foldl max 0
    | none => 1

/-- The rank of an expression. -/
def rank (pool : Pool) (e : ExprId) : Nat :=
  pool.fold pool.rankFrom e

end Pool

end Clausal
