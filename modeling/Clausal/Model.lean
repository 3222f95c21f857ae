import Clausal.Pool.Evaluate

/-!
# Models

Values for the variables of constraints, with the bits on which the constraints
do not depend.
-/

namespace Clausal

/-- A variable with its value. -/
structure Binding where
  var : ExprId
  name : String
  value : Value
  deriving DecidableEq, Repr

/-- Values of variables in the order of their first occurrence. The bits listed
in `unconstrained` occur in no clause and are false in the values. The
expression `generator`, if any, holds exactly for the values that agree on the
other bits. -/
structure Model where
  bindings : List Binding
  unconstrained : List (ExprId × List Nat)
  generator : Option ExprId
  deriving DecidableEq, Repr

namespace Model

/-- The value of the variable with a name. -/
def get? (model : Model) (name : String) : Option Value :=
  (model.bindings.find? fun binding => binding.name == name).map Binding.value

/-- The value of a variable. -/
def value? (model : Model) (var : ExprId) : Option Value :=
  (model.bindings.find? fun binding => binding.var == var).map Binding.value

/-- The values by name. -/
def env (model : Model) : Env :=
  model.get?

/-- Whether the values are determined by the clauses. -/
def isFullyConstrained (model : Model) : Bool :=
  model.unconstrained.isEmpty

/-- Whether constraints are true in a model. -/
def verify (model : Model) (pool : Pool) (constraints : List ExprId) : Bool :=
  constraints.all fun constraint =>
    match pool.evaluate constraint model.env with
    | .ok value => value == .bool true
    | .error _ => false

/-- Names and values in order. -/
def entries (model : Model) : List (String × Value) :=
  model.bindings.map fun binding => (binding.name, binding.value)

/-- Lists of names and values in lexicographic order, a name before its value. -/
def compareEntries : List (String × Value) → List (String × Value) → Ordering
  | [], [] => .eq
  | [], _ :: _ => .lt
  | _ :: _, [] => .gt
  | (name, value) :: rest, (otherName, otherValue) :: others =>
    ((compare name otherName).then (compare value otherValue)).then (compareEntries rest others)

/-- The lists of names and values of models, in lexicographic order. -/
def sortedEntries (models : List Model) : List (List (String × Value)) :=
  (models.map entries).mergeSort fun left right => (compareEntries left right).isLE

end Model

end Clausal
