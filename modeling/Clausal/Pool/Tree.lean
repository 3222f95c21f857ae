import Clausal.Pool
import Clausal.Total

/-!
# Expressions as trees

A stored expression unfolds to a finite tree. This module has the questions
that are answered by following operands down that tree without memory: the size
of the tree, whether an expression selects from a variable, and the order of
expressions.
-/

namespace Clausal.Pool

/-- The number of nodes of the tree that an expression unfolds to. It may be
exponential in the number of stored nodes; it serves as a measure. -/
def treeSize (pool : Pool) (e : ExprId) : Nat :=
  1 + total (fun operand => pool.treeSize operand.1) (pool.operands e).attach
termination_by e.index
decreasing_by
  exact index_lt_of_mem_operands operand.2

/-- The tree of an expression has a top node and the trees of its operands. -/
theorem treeSize_eq (pool : Pool) (e : ExprId) :
    pool.treeSize e = 1 + total pool.treeSize (pool.operands e) := by
  rw [treeSize, total_attach]

/-- Whether a chain of `bit` and `field` selections ends at a variable. -/
def selectsFromVariable (pool : Pool) (e : ExprId) : Bool :=
  match _stored : pool.node? e with
  | some ⟨_, .var _⟩ => true
  | some ⟨_, .apply (.bit _) (operand :: _)⟩ => pool.selectsFromVariable operand
  | some ⟨_, .apply (.field _) (operand :: _)⟩ => pool.selectsFromVariable operand
  | _ => false
termination_by e.index
decreasing_by
  all_goals exact index_lt_of_node? _stored (by simp [Node.operands, Form.operands])

/-- Whether an expression is a boolean selected from a variable, or a boolean
variable itself. -/
def isAtom (pool : Pool) (e : ExprId) : Bool :=
  match pool.node? e with
  | some node => node.ty.isBool && pool.selectsFromVariable e
  | none => false

/-- Whether an expression is an atom or the negation of one. -/
def isLiteral (pool : Pool) (e : ExprId) : Bool :=
  pool.isAtom ((pool.negated? e).getD e)

end Clausal.Pool

namespace Clausal

/-- Lexicographic order of lists; a proper initial part comes first. -/
def compareLists {α β : Type} (compare : α → β → Ordering) : List α → List β → Ordering
  | [], [] => .eq
  | [], _ :: _ => .lt
  | _ :: _, [] => .gt
  | x :: xs, y :: ys => (compare x y).then (compareLists compare xs ys)

/-- A total order of expressions by structure. Constants come first, ordered by
type and value, then variables by name, then applications by operator and
operands. Numbers play no part, except that equal numbers mean equal
expressions. -/
def Pool.compare (pool : Pool) (left right : ExprId) : Ordering :=
  if left = right then .eq
  else
    match _stored : pool.node? left, pool.node? right with
    | some ⟨s, .const x⟩, some ⟨t, .const y⟩ => (Ord.compare s t).then (Ord.compare x y)
    | some ⟨_, .var x⟩, some ⟨_, .var y⟩ => Ord.compare x y
    | some ⟨_, .apply f xs⟩, some ⟨_, .apply g ys⟩ =>
      (Ord.compare f g).then
        (compareLists (fun (x : { x // x ∈ xs }) y => pool.compare x.1 y) xs.attach ys)
    | some m, some n => Ord.compare m.form.rank n.form.rank
    | _, _ => .eq
termination_by left.index
decreasing_by
  exact index_lt_of_node? _stored x.2

end Clausal
