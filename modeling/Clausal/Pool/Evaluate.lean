import Clausal.Pool.Fold

/-!
# Evaluation

The value of an expression under values for its variables. A fold prepares the
values of the nodes of the expression. A prepared value is computed when it is
first asked for, and then kept. So a shared node is evaluated once, and operands
behind one without a value are not evaluated.
-/

namespace Clausal

/-- Values for variables, by name. -/
abbrev Env := String → Option Value

/-- Why an expression has no value. -/
inductive EvalError where
  /-- A variable without a value. -/
  | unbound (name : String)
  /-- A variable whose value is outside its type. -/
  | outside (name : String) (value : Value)
  /-- An operator on operands that do not fit it. -/
  | fault (breach : Fault)
  deriving DecidableEq, Repr

/-- A value that is computed when it is asked for. -/
abbrev Prepared := Thunk (Except EvalError Value)

/-- The value of a node, given the values of its operands. -/
def Node.evaluate (env : Env) (node : Node) (operands : List Prepared) : Except EvalError Value :=
  match node.form with
  | .var name =>
    match env name with
    | none => .error (.unbound name)
    | some value => if node.ty.admits value then .ok value else .error (.outside name value)
  | .const value => .ok value
  | .apply op _ => do
    let values ← operands.mapM Thunk.get
    (op.eval values).mapError .fault

namespace Pool

/-- The value of a node, to be computed later from the values of its operands. -/
def prepare (pool : Pool) (env : Env) (e : ExprId) (operands : List Prepared) : Prepared :=
  Thunk.mk fun _ => do
    let node ← (pool.node e).mapError .fault
    node.evaluate env operands

/-- The value of an expression. -/
def evaluate (pool : Pool) (e : ExprId) (env : Env) : Except EvalError Value :=
  (pool.fold (pool.prepare env) e).get

end Pool

end Clausal
