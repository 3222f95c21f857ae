import Clausal.BuildError
import Clausal.Pool.Bracket

/-!
# Checked construction

Expressions are built by actions on a pool. An action either returns the name of
the expression, stored now or before, or fails and says why; what it stored on
the way stays stored.
-/

namespace Clausal

/-- An action that builds expressions in a pool. -/
abbrev Build (α : Type) := Stateful BuildError Pool α

/-- Check that all types pass a test, and report the first that does not.
Positions are counted from `position`. -/
def Op.requireAll (op : Op) (expected : Expectation) (test : Ty → Bool) (position : Nat) :
    List Ty → Except BuildError Unit
  | [] => .ok ()
  | ty :: types =>
    if test ty then op.requireAll expected test (position + 1) types
    else .error (.operand op position expected ty)

/-- Check the types of operands, whose number is one that the operator takes. -/
def Op.checkTypes (op : Op) (types : List Ty) : Except BuildError Unit :=
  match op, types with
  | .not, _ | .and, _ | .or, _ | .clause, _ | .xor, _ | .implies, _ | .bits, _ =>
    op.requireAll .bool Ty.isBool 0 types
  | .ite, condition :: whenTrue :: whenFalse :: _ =>
    if !condition.isBool then .error (.operand op 0 .bool condition)
    else if !(whenTrue.isBool || whenTrue.isUint) then .error (.operand op 1 .boolOrUint whenTrue)
    else if whenFalse ≠ whenTrue then .error (.operand op 2 (.exactly whenTrue) whenFalse)
    else .ok ()
  | .eq, left :: right :: _ =>
    if left ≠ right then .error (.operand op 1 (.exactly left) right) else .ok ()
  | .bit index, ty :: _ =>
    match ty.width? with
    | none => .error (.operand op 0 .uint ty)
    | some width => if index < width then .ok () else .error (.index op index width)
  | .add width, _ | .mul width, _ =>
    if width = 0 then .error (.width op) else op.requireAll .uint Ty.isUint 0 types
  | .field index, ty :: _ =>
    match ty.fields? with
    | none => .error (.operand op 0 .tuple ty)
    | some fields =>
      if index < fields.length then .ok () else .error (.index op index fields.length)
  | _, _ => .ok ()

namespace Pool

/-- The types of a list of expressions. -/
def tys (pool : Pool) (operands : List ExprId) : Except Fault (List Ty) :=
  operands.mapM pool.ty

/-- Check that all operands are literals, and report the first that is not. -/
def requireLiterals (pool : Pool) (position : Nat) : List ExprId → Except BuildError Unit
  | [] => .ok ()
  | e :: operands =>
    if pool.isLiteral e then pool.requireLiterals (position + 1) operands
    else .error (.notLiteral position (pool.render e))

/-- Check an operator and its operands, and return the types of the operands. -/
def validate (pool : Pool) (op : Op) (operands : List ExprId) :
    Except (Failure BuildError) (List Ty) := do
  unless op.arity.accepts operands.length do
    throw (.error (.arity op operands.length))
  let types ← (pool.tys operands).mapError .fault
  (op.checkTypes types).mapError .error
  if op = .clause then
    (pool.requireLiterals 0 operands).mapError .error
  return types

/-- Check an operator and its operands, and return the type of the result. -/
def typing (pool : Pool) (op : Op) (operands : List ExprId) : Except (Failure BuildError) Ty := do
  let types ← pool.validate op operands
  (op.resultTy types).mapError .fault

end Pool

namespace Build

/-- Store a leaf. -/
def leaf (ty : Ty) (form : Form) (isLeaf : form.operands = []) : Build ExprId := fun pool =>
  match pool.intern ⟨ty, form⟩ (by simp [Node.operands, isLeaf]) with
  | (e, pool) => .ok e pool

/-- The variable with a name and a type, declared now or before. -/
def var (name : String) (ty : Ty) : Build ExprId := fun pool =>
  match pool.declared? name with
  | some e =>
    match pool.ty e with
    | .error fault => .error (.fault fault) pool
    | .ok existing =>
      if existing = ty then .ok e pool else .error (.error (.redeclared name existing ty)) pool
  | none =>
    match pool.intern ⟨ty, .var name⟩ (by simp [Node.operands, Form.operands]) with
    | (e, pool) => .ok e { pool with declared := pool.declared.insert name e }

/-- The boolean variable with a name, declared now or before. -/
def boolVar (name : String) : Build ExprId :=
  var name .bool

/-- A boolean constant. -/
def truth (value : Bool) : Build ExprId :=
  leaf .bool (.const (.bool value)) rfl

/-- A constant, whose value must belong to the type. -/
def const (ty : Ty) (value : Value) : Build ExprId :=
  if ty.admits value then leaf ty (.const value) rfl
  else Stateful.fail (.constant ty value)

/-- A word constant of a width, which must not be zero. -/
def word (width number : Nat) : Build ExprId :=
  if width = 0 then Stateful.fail (.constant (.uint 0) (.uint number))
  else const (.uint width) (.uint number)

/-- An operator applied to operands that fit it. -/
def apply (op : Op) (operands : List ExprId) : Build ExprId := fun pool =>
  match pool.typing op operands with
  | .error failure => .error failure pool
  | .ok ty =>
    if known : ∀ operand ∈ operands, pool.Has operand then
      match pool.intern ⟨ty, .apply op operands⟩ known with
      | (e, pool) => .ok e pool
    else
      .error (.fault .outOfRange) pool

/-- The negation of a boolean. -/
def not (a : ExprId) : Build ExprId :=
  apply .not [a]

/-- The conjunction of booleans. -/
def and (operands : List ExprId) : Build ExprId :=
  apply .and operands

/-- The disjunction of booleans. -/
def or (operands : List ExprId) : Build ExprId :=
  apply .or operands

/-- The exclusive disjunction of two booleans. -/
def xor (a b : ExprId) : Build ExprId :=
  apply .xor [a, b]

/-- The choice between two expressions. -/
def ite (condition whenTrue whenFalse : ExprId) : Build ExprId :=
  apply .ite [condition, whenTrue, whenFalse]

/-- The equality of two expressions. -/
def eq (a b : ExprId) : Build ExprId :=
  apply .eq [a, b]

/-- One bit of a word. -/
def bit (index : Nat) (a : ExprId) : Build ExprId :=
  apply (.bit index) [a]

/-- A word made of booleans, the least significant first. -/
def bits (operands : List ExprId) : Build ExprId :=
  apply .bits operands

/-- One component of a tuple. -/
def field (index : Nat) (a : ExprId) : Build ExprId :=
  apply (.field index) [a]

/-- The results of `step` at `index` and the numbers after it, `count` of them,
behind those that were found, the latest first. -/
def collectAfter (step : Nat → Build ExprId) :
    (count index : Nat) → (found : List ExprId) → Build (List ExprId)
  | 0, _, found => pure found.reverse
  | count + 1, index, found => do
    let e ← step index
    collectAfter step count (index + 1) (e :: found)

/-- The results of `step` at the numbers below `count`, in order. A step is taken
only if those before it succeed. -/
def collect (count : Nat) (step : Nat → Build ExprId) : Build (List ExprId) :=
  collectAfter step count 0 []

/-- The type of an expression. -/
def tyOf (e : ExprId) : Build Ty := do
  Stateful.ofExcept ((← get).ty e)

end Build

end Clausal
