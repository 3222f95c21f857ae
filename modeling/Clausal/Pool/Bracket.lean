import Clausal.Pool.Descendants

/-!
# Bracketed text

An expression is written as `(and x (not y))`. An application that occurs more
than once as an operand is written out at its first occurrence only, with a
label as in `@7=(xor x y)`, and as `@7` from then on, so the text grows with
the number of stored nodes and not with the tree.

The text is first a sequence of pieces, which say what is opened, closed and
referred to, and then a string.
-/

namespace Clausal

/-- A part of a bracketed text. -/
inductive Piece where
  /-- A variable or a constant. -/
  | leaf (text : String)
  /-- The start of an application, with or without a label. -/
  | opening (e : ExprId) (op : Op) (labelled : Bool)
  /-- The space in front of an operand. -/
  | gap
  /-- The end of an application. -/
  | closing (e : ExprId)
  /-- A reference to an application that was written out. -/
  | reference (e : ExprId)
  deriving DecidableEq, Repr

/-- The text of a piece. -/
def Piece.render : Piece → String
  | .leaf text => text
  | .opening e op labelled => (if labelled then e.render ++ "=(" else "(") ++ op.render
  | .gap => " "
  | .closing _ => ")"
  | .reference e => e.render

/-- A text in the making: its pieces and the labels that were given. -/
structure Writing where
  pieces : Array Piece
  labels : Std.HashSet ExprId

namespace Pool

/-- How often each expression occurs as an operand below `e`. -/
def occurrences (pool : Pool) (e : ExprId) : Std.HashMap ExprId Nat :=
  (pool.descendants [e]).foldl
    (fun counts parent => (pool.operands parent).foldl
      (fun counts operand => counts.insert operand (counts.getD operand 0 + 1)) counts)
    ∅

/-- Append the pieces of an expression to a text, with a label for the
applications that are shared. -/
def write (pool : Pool) (shared : ExprId → Bool) (e : ExprId) (writing : Writing) : Writing :=
  match _stored : pool.node? e with
  | none => writing
  | some ⟨_, .var name⟩ => { writing with pieces := writing.pieces.push (.leaf name) }
  | some ⟨ty, .const value⟩ =>
    { writing with pieces := writing.pieces.push (.leaf (ty.renderValue value)) }
  | some ⟨_, .apply op operands⟩ =>
    if shared e && writing.labels.contains e then
      { writing with pieces := writing.pieces.push (.reference e) }
    else
      let opened : Writing :=
        { pieces := writing.pieces.push (.opening e op (shared e))
          labels := if shared e then writing.labels.insert e else writing.labels }
      let filled := operands.attach.foldl
        (fun (writing : Writing) ⟨operand, _⟩ =>
          pool.write shared operand { writing with pieces := writing.pieces.push .gap })
        opened
      { filled with pieces := filled.pieces.push (.closing e) }
termination_by e.index
decreasing_by
  rename_i member
  exact index_lt_of_node? _stored member

/-- The pieces of the text of an expression. -/
def pieces (pool : Pool) (e : ExprId) : List Piece :=
  let counts := pool.occurrences e
  (pool.write (fun operand => 1 < counts.getD operand 0) e ⟨#[], ∅⟩).pieces.toList

/-- The bracketed text of an expression. -/
def render (pool : Pool) (e : ExprId) : String :=
  String.join ((pool.pieces e).map Piece.render)

end Pool

end Clausal
