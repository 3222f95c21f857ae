import Clausal.Fault
import Clausal.Op

/-!
# Construction errors

The reasons why an expression cannot be built, and their wording.
-/

namespace Clausal

/-- What the type of an operand should have been. -/
inductive Expectation where
  | bool
  | boolOrUint
  | uint
  | tuple
  | exactly (ty : Ty)
  deriving DecidableEq, Repr

/-- The wording of an expectation. -/
def Expectation.render : Expectation → String
  | .bool => "bool"
  | .boolOrUint => "bool or a bitvector"
  | .uint => "a bitvector"
  | .tuple => "a product"
  | .exactly ty => ty.render

/-- Why an expression cannot be built. -/
inductive BuildError where
  /-- A number of operands that the operator does not take. -/
  | arity (op : Op) (actual : Nat)
  /-- An operand of the wrong type. -/
  | operand (op : Op) (position : Nat) (expected : Expectation) (actual : Ty)
  /-- An operand of a clause that is no literal, with its text. -/
  | notLiteral (position : Nat) (text : String)
  /-- The index of a selection is not below the limit. -/
  | index (op : Op) (given limit : Nat)
  /-- The result of an arithmetic operator needs at least one bit. -/
  | width (op : Op)
  /-- A value outside the type of the constant. -/
  | constant (ty : Ty) (value : Value)
  /-- A variable that was declared with another type. -/
  | redeclared (name : String) (existing requested : Ty)
  deriving DecidableEq, Repr

/-- The wording of an operand that is not as it should be. -/
def BuildError.operandMessage (op : Op) (position : Nat) (expected actual : String) : String :=
  op.name ++ ": operand #" ++ position.repr ++ " must be " ++ expected ++ ", got " ++ actual

/-- The wording of an attribute that is not as it should be. -/
def BuildError.attributeMessage (op : Op) (parameter expected actual : String) : String :=
  op.name ++ ": attribute `" ++ parameter ++ "` must be " ++ expected ++ ", got " ++ actual

/-- The wording of an error. -/
def BuildError.message : BuildError → String
  | .arity op actual =>
    op.name ++ ": expected " ++ op.arity.render ++ " operands, got " ++ actual.repr
  | .operand op position expected actual =>
    operandMessage op position expected.render actual.render
  | .notLiteral position text => operandMessage .clause position "a literal" text
  | .index op given limit => attributeMessage op "index" ("less than " ++ limit.repr) given.repr
  | .width op => attributeMessage op "width" "at least 1" "0"
  | .constant ty value => "constant: value " ++ value.render ++ " does not belong to " ++ ty.render
  | .redeclared name existing requested =>
    "variable: `" ++ name ++ "` is already declared as " ++ existing.render ++
      ", cannot redeclare as " ++ requested.render

end Clausal
