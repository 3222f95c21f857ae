import Clausal.ClauseStore
import Clausal.Pool.Bracket

/-!
# Lowering sessions

A session turns expressions into clauses over variables of its own. Every
lowered expression has one literal per bit of its type, tied to the literals of
its operands by clauses that hold exactly when the bits agree. A shared
expression is lowered once. The constants share one literal that a unit clause
makes true; it is made when the first constant is lowered.

Operators that are expressed by others before lowering have no clauses of their
own, and meeting one is an error.
-/

namespace Clausal

/-- Why an expression cannot be lowered. -/
inductive LowerError where
  /-- An operator without clauses of its own. -/
  | unsupported (op : Op)
  /-- A boolean was needed. -/
  | notBoolean (ty : Ty)
  /-- A variable, given by its text, that was not lowered. -/
  | notLowered (text : String)
  deriving DecidableEq, Repr

/-- The wording of an error. -/
def LowerError.message : LowerError → String
  | .unsupported op => op.name ++ ": cannot lower to CNF: no direct encoding, decompose it first"
  | .notBoolean ty => "constraint must be bool, got " ++ ty.render
  | .notLowered text => "variable: cannot lower to CNF: " ++ text ++ " was not lowered"

/-- The state of a session. With `flatten` the operands of an asserted
conjunction are asserted one by one. -/
structure Session where
  flatten : Bool
  numVars : Nat
  literals : Std.HashMap ExprId (Array Lit)
  top : Option Lit
  surface : Array (ExprId × Array Lit)
  store : ClauseStore

/-- An action of a session. -/
abbrev Lower (α : Type) := Stateful LowerError Session α

namespace Session

/-- A session before any action. -/
def start (flatten : Bool) : Session where
  flatten := flatten
  numVars := 0
  literals := ∅
  top := none
  surface := #[]
  store := .empty

end Session

namespace Lower

/-- The opposite literal. -/
def neg (lit : Lit) : Lower Lit :=
  Stateful.ofExcept lit.neg

/-- The positive literal of a new variable. -/
def fresh : Lower Lit := do
  let number := (← get).numVars + 1
  modify fun session => { session with numVars := number }
  Stateful.ofExcept (Lit.ofVar number)

/-- Store a clause as it is. -/
def keep (clause : Clause) : Lower Unit :=
  modify fun session => { session with store := (session.store.insert clause).2 }

/-- Store a clause in normal form, unless it holds in any case. -/
def addClause (lits : Clause) : Lower Unit := do
  match ← Stateful.ofExcept (Clause.normalize (← get).top lits) with
  | some clause => keep clause
  | none => return ()

/-- The literal that is true. -/
def top : Lower Lit := do
  match (← get).top with
  | some lit => return lit
  | none =>
    let lit ← fresh
    modify fun session => { session with top := some lit }
    keep [lit]
    return lit

/-- A literal that is equal to the conjunction of the inputs. -/
def andGate (inputs : List Lit) : Lower Lit := do
  match inputs with
  | [only] => return only
  | _ =>
    let out ← fresh
    let notOut ← neg out
    inputs.forM fun input => addClause [notOut, input]
    let opposites ← inputs.mapM neg
    addClause (out :: opposites)
    return out

/-- A literal that is equal to the disjunction of the inputs. -/
def orGate (inputs : List Lit) : Lower Lit := do
  match inputs with
  | [only] => return only
  | _ =>
    let out ← fresh
    inputs.forM fun input => do
      let opposite ← neg input
      addClause [out, opposite]
    let notOut ← neg out
    addClause (notOut :: inputs)
    return out

/-- A literal that is equal to the exclusive disjunction of two others. -/
def xorGate (a b : Lit) : Lower Lit := do
  let out ← fresh
  let notOut ← neg out
  let notA ← neg a
  let notB ← neg b
  addClause [notOut, a, b]
  addClause [notOut, notA, notB]
  addClause [out, notA, b]
  addClause [out, a, notB]
  return out

/-- A literal that tells whether two others agree. -/
def agreement (x y : Lit) : Lower Lit := do
  let differ ← xorGate x y
  neg differ

/-- Literals that tell where two rows of literals agree. -/
def agreements (xs ys : Array Lit) : Lower (List Lit) :=
  (xs.toList.zip ys.toList).mapM fun (x, y) => agreement x y

/-- New literals for the bits of a variable. -/
def variableBits (e : ExprId) (ty : Ty) : Lower (Array Lit) := do
  let fresh ← (List.range ty.bitSize).mapM fun _ => fresh
  let lits := fresh.toArray
  modify fun session => { session with surface := session.surface.push (e, lits) }
  return lits

/-- The literals for the bits of a constant. -/
def constantBits (ty : Ty) (value : Value) : Lower (Array Lit) := do
  let yes ← top
  let no ← neg yes
  let bits ← Stateful.ofExcept (ty.toBits value)
  return (bits.map fun bit => if bit then yes else no).toArray

/-- The only literal of an expression, which must be a boolean. -/
def sole (pool : Pool) (e : ExprId) (lits : Array Lit) : Lower Lit :=
  match lits.toList with
  | [lit] => return lit
  | _ => do
    let ty ← Stateful.ofExcept (pool.ty e)
    Stateful.fail (.notBoolean ty)

/-- The only literals of several expressions. -/
def soles (pool : Pool) (operands : List (ExprId × Array Lit)) : Lower (List Lit) :=
  operands.mapM fun (e, lits) => sole pool e lits

/-- Whether an operator has clauses of its own. -/
def supports : Op → Bool
  | .implies | .ite | .add _ | .mul _ => false
  | _ => true

/-- The literals of one component of a tuple. -/
def component (ty : Ty) (index : Nat) (lits : Array Lit) : Except Fault (Array Lit) :=
  match ty.fieldOffset? index, ty.fields? with
  | some offset, some fields => do
    let field ← entry fields index
    slice lits offset field.bitSize
  | _, _ => .error (.unreachable "field of a non-product")

/-- The literal of one bit. -/
def bitAt (lits : Array Lit) (index : Nat) : Except Fault Lit :=
  match lits[index]? with
  | some lit => .ok lit
  | none => .error .outOfRange

/-- The literals of an operator on lowered operands. -/
def combine (pool : Pool) (op : Op) (operands : List (ExprId × Array Lit)) :
    Lower (Array Lit) := do
  match op, operands with
  | .not, operand :: _ =>
    let a ← sole pool operand.1 operand.2
    let opposite ← neg a
    return #[opposite]
  | .and, _ =>
    let inputs ← soles pool operands
    let out ← andGate inputs
    return #[out]
  | .or, _ | .clause, _ =>
    let inputs ← soles pool operands
    let out ← orGate inputs
    return #[out]
  | .xor, left :: right :: _ =>
    let a ← sole pool left.1 left.2
    let b ← sole pool right.1 right.2
    let out ← xorGate a b
    return #[out]
  | .eq, left :: right :: _ =>
    let same ← agreements left.2 right.2
    let out ← andGate same
    return #[out]
  | .bit index, operand :: _ =>
    let lit ← Stateful.ofExcept (bitAt operand.2 index)
    return #[lit]
  | .bits, _ | .tuple, _ => return operands.foldl (fun lits operand => lits ++ operand.2) #[]
  | .field index, operand :: _ =>
    let ty ← Stateful.ofExcept (pool.ty operand.1)
    Stateful.ofExcept (component ty index operand.2)
  | _, _ => Stateful.fail (.unsupported op)

/-- Remember the literals of an expression. -/
def remember (e : ExprId) (lits : Array Lit) : Lower Unit :=
  modify fun session => { session with literals := session.literals.insert e lits }

/-- The literals for the bits of an expression. -/
def lower (pool : Pool) (e : ExprId) : Lower (Array Lit) := do
  match (← get).literals[e]? with
  | some lits => return lits
  | none =>
    let lits ←
      match _stored : pool.node? e with
      | some ⟨ty, .var _⟩ => variableBits e ty
      | some ⟨ty, .const value⟩ => constantBits ty value
      | some ⟨_, .apply op operands⟩ =>
        if supports op then
          let lowered ← operands.attach.mapM fun ⟨operand, _⟩ => do
            let lits ← lower pool operand
            return (operand, lits)
          combine pool op lowered
        else Stateful.fail (.unsupported op)
      | none => Stateful.breach .outOfRange
    remember e lits
    return lits
termination_by e.index
decreasing_by
  rename_i member
  exact Pool.index_lt_of_node? _stored member

/-- The literal of a boolean expression. -/
def literal (pool : Pool) (e : ExprId) : Lower Lit := do
  let lits ← lower pool e
  sole pool e lits

/-- Add a clause that makes the literal of a boolean expression true. -/
def assertLiteral (pool : Pool) (e : ExprId) : Lower Unit := do
  let lit ← literal pool e
  addClause [lit]

/-- Add clauses that make a boolean expression true. -/
def assert (pool : Pool) (e : ExprId) : Lower Unit := do
  let ty ← Stateful.ofExcept (pool.ty e)
  if ty.isBool then
    match _stored : pool.node? e with
    | some ⟨_, .apply .and operands⟩ =>
      if (← get).flatten then
        operands.attach.forM fun ⟨operand, _⟩ => assert pool operand
      else assertLiteral pool e
    | some ⟨_, .apply .or operands⟩ | some ⟨_, .apply .clause operands⟩ =>
      let lits ← operands.mapM (literal pool)
      addClause lits
    | _ => assertLiteral pool e
  else Stateful.fail (.notBoolean ty)
termination_by e.index
decreasing_by
  rename_i member
  exact Pool.index_lt_of_node? _stored member

end Lower

end Clausal
