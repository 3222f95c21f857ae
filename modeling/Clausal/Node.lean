import Clausal.Op.Semantics

/-!
# Expression nodes

An expression is named by the number under which its top node is stored. A node
has a type and is a variable, a constant, or an operator applied to expressions
that are named in the same way.
-/

namespace Clausal

/-- The name of a stored expression. Numbers start at one. -/
structure ExprId where
  index : Nat
  deriving DecidableEq, Repr, Hashable, Inhabited, Ord

/-- The written form of a name, as in `@7`. -/
def ExprId.render (e : ExprId) : String :=
  "@" ++ e.index.repr

/-- What a node is, its type apart. -/
inductive Form where
  | var (name : String)
  | const (value : Value)
  | apply (op : Op) (operands : List ExprId)
  deriving DecidableEq, Repr, Hashable, Inhabited

/-- A stored expression node. -/
structure Node where
  ty : Ty
  form : Form
  deriving DecidableEq, Repr, Hashable, Inhabited

/-- The operands of a node; leaves have none. -/
def Form.operands : Form → List ExprId
  | .apply _ operands => operands
  | _ => []

/-- Constants come before variables, variables before applications. -/
def Form.rank : Form → Nat
  | .const _ => 0
  | .var _ => 1
  | .apply _ _ => 2

/-- A word that depends on the kind of a type and on its width or number of
fields. -/
def Ty.hint : Ty → UInt64
  | .bool => 0
  | .uint width => width.toUInt64 + 1
  | .tuple fields => Pairing.pair fields.length.toUInt64 1

namespace Node

/-- The operands of a node; leaves have none. -/
def operands (node : Node) : List ExprId :=
  node.form.operands

/-- The operator of a node, if it is an application. -/
def op? (node : Node) : Option Op :=
  match node.form with
  | .apply op _ => some op
  | _ => none

/-- The key of an application, from its operator, operands and type. -/
def applyKey (ty : Ty) (op : Op) (operands : List ExprId) : UInt64 :=
  Pairing.pair3 2
    (Pairing.pair op.key (Pairing.pairList (operands.map fun e => e.index.toUInt64))) ty.hint

/-- The key of a node, with the keys of leaves taken from `leafKey`. -/
def key (leafKey : Node → UInt64) (node : Node) : UInt64 :=
  match node.form with
  | .apply op operands => applyKey node.ty op operands
  | _ => leafKey node

end Node

end Clausal
