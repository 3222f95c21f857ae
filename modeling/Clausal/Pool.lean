import Clausal.InternTable
import Clausal.Node

/-!
# Expression pools

A pool stores the nodes of expressions, each distinct node once, and remembers
which variables were declared. The operands of a stored node are stored before
it, so an expression is a finite tree with shared parts, and a definition may
recurse from a node to its operands.

This module has the pool, the questions about single nodes, and `intern`, the
only way to add a node. Checked construction is in `Clausal.Pool.Build`.
-/

namespace Clausal

/-- Stored nodes and declared variables. Operands are always numbered below
the node that has them. -/
structure Pool where
  table : InternTable Node
  declared : Std.HashMap String ExprId
  closed : ∀ (position : Nat) (node : Node), table.items[position]? = some node →
    ∀ operand ∈ node.operands, 0 < operand.index ∧ operand.index ≤ position

namespace Pool

/-- A pool without nodes, with `2 ^ bits` buckets and a chosen key for leaves. -/
def empty (bits : Nat) (leafKey : Node → UInt64 := hash) : Pool where
  table := InternTable.empty (Node.key leafKey) bits
  declared := ∅
  closed := by
    intro position node stored
    simp [InternTable.empty] at stored

/-- A pool without nodes, provided that the number of buckets is in range. -/
def empty? (bits : Nat) : Except Fault Pool :=
  if bits ≤ 31 then .ok (empty bits) else .error .poolBits

/-- The number of stored nodes. -/
def size (pool : Pool) : Nat :=
  pool.table.size

/-- Whether a name was given out. -/
def Has (pool : Pool) (e : ExprId) : Prop :=
  0 < e.index ∧ e.index ≤ pool.size

instance (pool : Pool) (e : ExprId) : Decidable (pool.Has e) :=
  inferInstanceAs (Decidable (_ ∧ _))

/-- The node with a name. -/
def node? (pool : Pool) (e : ExprId) : Option Node :=
  pool.table.get? e.index

/-- The node with a name, which must have been given out. -/
def node (pool : Pool) (e : ExprId) : Except Fault Node :=
  pool.table.get e.index

/-- The type of an expression, which must be stored. -/
def ty (pool : Pool) (e : ExprId) : Except Fault Ty := do
  let node ← pool.node e
  return node.ty

/-- The top operator of an expression. -/
def op? (pool : Pool) (e : ExprId) : Option Op :=
  (pool.node? e).bind Node.op?

/-- The operands of an expression; leaves have none. -/
def operands (pool : Pool) (e : ExprId) : List ExprId :=
  match pool.node? e with
  | some node => node.operands
  | none => []

/-- The value of a constant. -/
def constant? (pool : Pool) (e : ExprId) : Option Value :=
  match pool.node? e with
  | some ⟨_, .const value⟩ => some value
  | _ => none

/-- The truth value of a boolean constant. -/
def truth? (pool : Pool) (e : ExprId) : Option Bool :=
  match pool.node? e with
  | some ⟨_, .const (.bool truth)⟩ => some truth
  | _ => none

/-- The name of a variable. -/
def variableName? (pool : Pool) (e : ExprId) : Option String :=
  match pool.node? e with
  | some ⟨_, .var name⟩ => some name
  | _ => none

/-- Whether an expression is a variable. -/
def isVariable (pool : Pool) (e : ExprId) : Bool :=
  (pool.variableName? e).isSome

/-- The operand of a negation. -/
def negated? (pool : Pool) (e : ExprId) : Option ExprId :=
  match pool.node? e with
  | some ⟨_, .apply .not (operand :: _)⟩ => some operand
  | _ => none

/-- The declared variable with a name. -/
def declared? (pool : Pool) (name : String) : Option ExprId :=
  pool.declared[name]?

/-- The operands of a stored node have smaller numbers. -/
theorem index_lt_of_node? {pool : Pool} {e operand : ExprId} {node : Node}
    (stored : pool.node? e = some node) (member : operand ∈ node.operands) :
    operand.index < e.index := by
  unfold node? InternTable.get? at stored
  split at stored
  · simp at stored
  · rename_i position index
    have below := (pool.closed position node stored operand member).2
    omega

/-- The operands of an expression have smaller numbers. -/
theorem index_lt_of_mem_operands {pool : Pool} {e operand : ExprId}
    (member : operand ∈ pool.operands e) : operand.index < e.index := by
  unfold operands at member
  split at member
  · rename_i node stored
    exact index_lt_of_node? stored member
  · simp at member

/-- Store a node whose operands are stored, unless it is stored already. -/
def intern (pool : Pool) (node : Node) (known : ∀ operand ∈ node.operands, pool.Has operand) :
    ExprId × Pool :=
  match stored : pool.table.put node with
  | (number, table) =>
    (⟨number⟩,
      { pool with
        table := table
        closed := by
          have items := InternTable.items_put pool.table node
          rw [stored] at items
          intro position found at_position operand member
          rcases items with same | pushed
          · rw [same] at at_position
            exact pool.closed position found at_position operand member
          · rw [pushed, Array.getElem?_push] at at_position
            split at at_position
            · rename_i last
              cases at_position
              have known := known operand member
              exact ⟨known.1, by rw [last]; exact known.2⟩
            · exact pool.closed position found at_position operand member })

end Pool

end Clausal
