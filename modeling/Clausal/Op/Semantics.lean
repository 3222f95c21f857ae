import Clausal.Bits
import Clausal.Op

/-!
# Meaning of the operators

`Op.eval` computes an operator on values and `Op.resultTy` its result type.
Both are defined on every operand list; where the operands do not fit, the
result is the fault of the first operand that is looked at and does not fit.
Disjunction, conjunction, implication and choice look at no operand beyond the
ones that decide the result.
-/

namespace Clausal

/-- The truth value of a boolean. -/
def truthOf : Value → Except Fault Bool
  | .bool truth => .ok truth
  | value => .error (.notBool value)

/-- The truth value at a position of an operand list. -/
def truthAt (values : List Value) (position : Nat) : Except Fault Bool := do
  let value ← entry values position
  truthOf value

/-- The number at a position of an operand list. -/
def numberAt (values : List Value) (position : Nat) : Except Fault Nat := do
  match ← entry values position with
  | .uint number => pure number
  | value => throw (.notUint value)

/-- Whether all values are true, read up to the first false one. -/
def allTrue : List Value → Except Fault Bool
  | [] => .ok true
  | .bool true :: values => allTrue values
  | .bool false :: _ => .ok false
  | value :: _ => .error (.notBool value)

/-- Whether some value is true, read up to the first true one. -/
def anyTrue : List Value → Except Fault Bool
  | [] => .ok false
  | .bool false :: values => anyTrue values
  | .bool true :: _ => .ok true
  | value :: _ => .error (.notBool value)

/-- The component of a tuple at a position. -/
def componentAt (value : Value) (position : Nat) : Except Fault Value :=
  match value with
  | .tuple fields => entry fields position
  | value => .error (.notTuple value)

namespace Op

/-- The value of an operator on operand values. -/
def eval (op : Op) (values : List Value) : Except Fault Value :=
  match op with
  | .not => do
    let a ← truthAt values 0
    return .bool !a
  | .and => do
    let result ← allTrue values
    return .bool result
  | .or | .clause => do
    let result ← anyTrue values
    return .bool result
  | .xor => do
    let a ← truthAt values 0
    let b ← truthAt values 1
    return .bool (a != b)
  | .implies => do
    let a ← truthAt values 0
    if a then
      let b ← truthAt values 1
      return .bool b
    else
      return .bool true
  | .ite => do
    let condition ← truthAt values 0
    entry values (if condition then 1 else 2)
  | .eq => do
    let a ← entry values 0
    let b ← entry values 1
    return .bool (decide (a = b))
  | .bit index => do
    let a ← numberAt values 0
    return .bool (a.testBit index)
  | .bits => do
    let bits ← values.mapM truthOf
    return .uint (numberOfBits bits)
  | .add width => do
    let a ← numberAt values 0
    let b ← numberAt values 1
    return .uint (truncate width (a + b))
  | .mul width => do
    let a ← numberAt values 0
    let b ← numberAt values 1
    return .uint (truncate width (a * b))
  | .tuple => .ok (.tuple values)
  | .field index => do
    let a ← entry values 0
    componentAt a index

/-- The type of an operator's result on operands of the given types. -/
def resultTy (op : Op) (types : List Ty) : Except Fault Ty :=
  match op with
  | .not | .and | .or | .clause | .xor | .implies | .eq | .bit _ => .ok .bool
  | .ite => entry types 1
  | .bits => Ty.uint? types.length
  | .add width | .mul width => Ty.uint? width
  | .tuple => .ok (.tuple types)
  | .field index => do
    match ← entry types 0 with
    | .tuple fields => entry fields index
    | ty => throw (.notTupleTy ty)

end Op

end Clausal
