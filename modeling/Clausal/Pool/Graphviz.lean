import Clausal.Pool.Descendants

/-!
# Graphviz drawings

The text of a Graphviz drawing of expressions. Leaves are grouped at the bottom
and roots at the top, a shared expression is drawn once, and the operands of
operators that are not commutative are numbered.
-/

namespace Clausal

/-- Shapes, the style of edges, and whether labels show types. -/
structure DrawingOptions where
  opShape : String
  variableShape : String
  constantShape : String
  rootShape : String
  edgeStyle : String
  showTypes : Bool
  deriving DecidableEq, Repr

/-- The standard shapes and style. -/
def DrawingOptions.standard : DrawingOptions where
  opShape := "ellipse"
  variableShape := "box"
  constantShape := "plaintext"
  rootShape := "rect"
  edgeStyle := "solid"
  showTypes := false

namespace Drawing

/-- A text with backslashes and quotation marks escaped. -/
def escape (text : String) : String :=
  String.ofList (text.toList.flatMap fun c =>
    if c = '\\' ∨ c = '\"' then ['\\', c] else [c])

/-- A text in quotation marks. -/
def quoted (text : String) : String :=
  "\"" ++ text ++ "\""

/-- The label of a node. -/
def label (options : DrawingOptions) (node : Node) : String :=
  let text :=
    match node.form with
    | .var name => name
    | .const value => node.ty.renderValue value
    | .apply op _ => op.render
  escape (if options.showTypes then text ++ " : " ++ node.ty.render else text)

/-- The line of a leaf; other nodes have none here. -/
def leafLine (options : DrawingOptions) (e : ExprId) (node : Node) : String :=
  let line (shape : String) :=
    e.index.repr ++ " [shape=" ++ shape ++ ", label=" ++ quoted (label options node) ++ "];\n"
  match node.form with
  | .var _ => line options.variableShape
  | .const _ => line options.constantShape
  | .apply _ _ => ""

/-- The line of an edge to the operand at a position. -/
def edgeLine (options : DrawingOptions) (e : ExprId) (op : Op) (operand : ExprId)
    (position : Nat) : String :=
  let numbered := if op.isCommutative then "" else ", label=" ++ quoted position.repr
  e.index.repr ++ " -> " ++ operand.index.repr ++ " [style=" ++ options.edgeStyle ++ numbered ++
    "];\n"

/-- The lines of an application and its edges; leaves have none here. -/
def applyLines (options : DrawingOptions) (e : ExprId) (node : Node) : String :=
  match node.form with
  | .apply op operands =>
    e.index.repr ++ " [label=" ++ quoted (label options node) ++ "];\n" ++
      String.join (operands.zipIdx.map fun (operand, position) =>
        edgeLine options e op operand position)
  | _ => ""

/-- The line of a root. -/
def rootLine (options : DrawingOptions) (root : ExprId) (position : Nat) : String :=
  "r" ++ position.repr ++ " [shape=" ++ options.rootShape ++ ", label=" ++ quoted root.render ++
    "];\n"

/-- The line of the edge from a root to its expression. -/
def rootEdgeLine (root : ExprId) (position : Nat) : String :=
  "r" ++ position.repr ++ " -> " ++ root.index.repr ++ ";\n"

end Drawing

namespace Pool

open Drawing in
/-- The drawing of the expressions below `roots`. -/
def draw (pool : Pool) (roots : List ExprId) (options : DrawingOptions) : String :=
  let nodes := (pool.descendants roots).filterMap fun e =>
    (pool.node? e).map fun node => (e, node)
  "digraph \x7b\n" ++
    "node [shape=" ++ options.opShape ++ "];\n" ++
    "\x7b rank=sink\n" ++
    String.join (nodes.map fun (e, node) => leafLine options e node) ++
    "\x7d\n" ++
    String.join (nodes.map fun (e, node) => applyLines options e node) ++
    "\x7b rank=source\n" ++
    String.join (roots.zipIdx.map fun (root, position) => rootLine options root position) ++
    "\x7d\n" ++
    String.join (roots.zipIdx.map fun (root, position) => rootEdgeLine root position) ++
    "\x7d\n"

end Pool

end Clausal
