import Clausal.Draft

/-!
# Simplification rules

For an operator on simplified operands, a simpler expression of the same
meaning, if a rule applies. `and`, `or` and `clause` are flattened and lose
repeated operands; constants are folded; selections from what was just
assembled are resolved.

A rule only looks at the pool. The one that folds constants computes the
operator, so it has a fault where the operator has one.
-/

namespace Clausal.Rules

/-- A proposal, or nothing if no rule applies. -/
abbrev Proposal := Except Fault (Option Draft)

/-- The first occurrences in a list, given those that were found in front of it,
the latest first, and the set of them. -/
def distinctAfter (found : List ExprId) (seen : Std.HashSet ExprId) : List ExprId → List ExprId
  | [] => found.reverse
  | e :: rest =>
    if seen.contains e then distinctAfter found seen rest
    else distinctAfter (e :: found) (seen.insert e) rest

/-- The first occurrences in a list. -/
def distinct (operands : List ExprId) : List ExprId :=
  distinctAfter [] ∅ operands

/-- Whether a list has an expression together with its negation. -/
def complementary (pool : Pool) (operands : List ExprId) : Bool :=
  let members := Std.HashSet.ofList operands
  operands.any fun e => (pool.negated? e).any members.contains

/-- Whether an operand of `op`, which is `and` or `or`, is merged into it. -/
def merges (op nested : Op) : Bool :=
  match op with
  | .and => nested == .and
  | _ => nested == .or || nested == .clause

/-- The constant that does not change `op`, which is `and` or `or`. -/
def neutral (op : Op) : Bool :=
  op == .and

/-- What an operand contributes to `op`, which is `and` or `or`: the parts of
nested applications in order, without the neutral constant. Nothing is returned
if a part is the constant that decides `op`; parts behind it are not looked at. -/
def unnest (pool : Pool) (op : Op) (e : ExprId) : Option (List ExprId) :=
  match pool.truth? e with
  | some truth => if truth = neutral op then some [] else none
  | none =>
    if (pool.op? e).any (merges op) then do
      let parts ← (pool.operands e).attach.mapM fun ⟨operand, _⟩ => unnest pool op operand
      return parts.flatten
    else some [e]
termination_by e.index
decreasing_by
  rename_i member
  exact Pool.index_lt_of_mem_operands member

/-- Rules for `and`, whose neutral constant is `true`, and `or`, whose neutral
constant is `false`. -/
def simplifyJunction (pool : Pool) (op : Op) (operands : List ExprId) : Option Draft :=
  match operands.mapM (unnest pool op) with
  | none => some (.truth !neutral op)
  | some parts =>
    let kept := distinct parts.flatten
    if complementary pool kept then some (.truth !neutral op)
    else
      match kept with
      | [] => some (.truth (neutral op))
      | [e] => some (.known e)
      | _ => if kept = operands then none else some (.ofKnown op kept)

/-- Rules for `clause`, whose operands are literals. -/
def simplifyClause (pool : Pool) (operands : List ExprId) : Option Draft :=
  let kept := distinct operands
  if complementary pool kept then some (.truth true)
  else
    match kept with
    | [e] => some (.known e)
    | _ => if kept = operands then none else some (.ofKnown .clause kept)

/-- Whether one of two expressions is the negation of the other. -/
def opposed (pool : Pool) (a b : ExprId) : Bool :=
  pool.negated? a == some b || pool.negated? b == some a

/-- Rules for `xor`. -/
def simplifyXor (pool : Pool) (a b : ExprId) : Option Draft :=
  match pool.truth? a, pool.truth? b with
  | some false, _ => some (.known b)
  | some true, _ => some (.negation b)
  | none, some false => some (.known a)
  | none, some true => some (.negation a)
  | none, none =>
    if a = b then some (.truth false)
    else if opposed pool a b then some (.truth true)
    else
      match pool.negated? a, pool.negated? b with
      | some x, some y => some (.ofKnown .xor [x, y])
      | _, _ => none

/-- Rules for `implies`. -/
def simplifyImplies (pool : Pool) (a b : ExprId) : Option Draft :=
  match pool.truth? a, pool.truth? b with
  | some true, _ => some (.known b)
  | some false, _ => some (.truth true)
  | none, some true => some (.truth true)
  | none, some false => some (.negation a)
  | none, none => if a = b then some (.truth true) else none

/-- Whether a stored expression is a boolean. -/
def isBoolean (pool : Pool) (e : ExprId) : Bool :=
  (pool.node? e).any fun node => node.ty.isBool

/-- Rules for a choice between booleans of which one or both are constants. -/
def simplifyBoolIte (pool : Pool) (c t e : ExprId) : Option Draft :=
  match pool.truth? t, pool.truth? e with
  | some true, some false => some (.known c)
  | some false, some true => some (.negation c)
  | some true, none => some (.ofKnown .or [c, e])
  | some false, none => some (.apply .and [.negation c, .known e])
  | none, some true => some (.apply .or [.negation c, .known t])
  | none, some false => some (.ofKnown .and [c, t])
  | _, _ => none

/-- Rules for `ite`. -/
def simplifyIte (pool : Pool) (c t e : ExprId) : Option Draft :=
  match pool.truth? c with
  | some true => some (.known t)
  | some false => some (.known e)
  | none =>
    if t = e then some (.known t)
    else
      match pool.negated? c with
      | some inner => some (.ofKnown .ite [inner, e, t])
      | none => if isBoolean pool t then simplifyBoolIte pool c t e else none

/-- Rules for `eq`. -/
def simplifyEq (pool : Pool) (a b : ExprId) : Option Draft :=
  if a = b then some (.truth true)
  else if isBoolean pool a then
    match pool.truth? a, pool.truth? b with
    | some true, _ => some (.known b)
    | some false, _ => some (.negation b)
    | none, some true => some (.known a)
    | none, some false => some (.negation a)
    | none, none => if opposed pool a b then some (.truth false) else none
  else none

/-- Resolve the selection of a part from an expression that `assembles` made of
its parts. -/
def simplifySelection (pool : Pool) (assembles : Op) (index : Nat) (e : ExprId) : Proposal :=
  if pool.op? e = some assembles then do
    let part ← entry (pool.operands e) index
    return some (.known part)
  else return none

/-- Whether expressions are the bits `position`, `position + 1` and so on of a
word. -/
def areBitsOf (pool : Pool) (source : ExprId) (position : Nat) : List ExprId → Bool
  | [] => true
  | e :: rest =>
    pool.op? e == some (.bit position) && (pool.operands e).head? == some source &&
      areBitsOf pool source (position + 1) rest

/-- The width of a stored word. -/
def width? (pool : Pool) (e : ExprId) : Option Nat :=
  (pool.node? e).bind fun node => node.ty.width?

/-- Recognise a word that is assembled from its own bits. -/
def simplifyBits (pool : Pool) (operands : List ExprId) : Proposal := do
  let first ← entry operands 0
  if pool.op? first = some (.bit 0) then
    let source ← entry (pool.operands first) 0
    if width? pool source = some operands.length ∧ areBitsOf pool source 0 operands then
      return some (.known source)
  return none

/-- Whether an expression is a word constant with a number. -/
def isNumber (pool : Pool) (e : ExprId) (number : Nat) : Bool :=
  pool.constant? e == some (.uint number)

/-- Rules for `add`: zero is neutral where nothing is cut off. -/
def simplifyAdd (pool : Pool) (width : Nat) (a b : ExprId) : Option Draft :=
  if isNumber pool a 0 ∧ width? pool b = some width then some (.known b)
  else if isNumber pool b 0 ∧ width? pool a = some width then some (.known a)
  else none

/-- Rules for `mul` with a first factor that is a constant. -/
def simplifyMulBy (pool : Pool) (width : Nat) (factor other : ExprId) : Option Draft :=
  if isNumber pool factor 0 then some (.word width 0)
  else if isNumber pool factor 1 ∧ width? pool other = some width then some (.known other)
  else none

/-- Rules for `mul`: zero and, where nothing is cut off, one. -/
def simplifyMul (pool : Pool) (width : Nat) (a b : ExprId) : Option Draft :=
  (simplifyMulBy pool width a b).or (simplifyMulBy pool width b a)

/-- Compute an operator whose operands are all constants. -/
def fold (pool : Pool) (op : Op) (operands : List ExprId) (values : List Value) :
    Except Fault Draft := do
  let types ← pool.tys operands
  let value ← op.eval values
  let ty ← op.resultTy types
  return .const ty value

/-- The simpler expression for an operator on operands, if a rule applies. -/
def simplification (pool : Pool) (op : Op) (operands : List ExprId) : Proposal :=
  match operands.mapM pool.constant? with
  | some values => do
    let folded ← fold pool op operands values
    return some folded
  | none =>
    match op, operands with
    | .not, a :: _ => .ok ((pool.negated? a).map .known)
    | .and, _ | .or, _ => .ok (simplifyJunction pool op operands)
    | .clause, _ => .ok (simplifyClause pool operands)
    | .xor, a :: b :: _ => .ok (simplifyXor pool a b)
    | .implies, a :: b :: _ => .ok (simplifyImplies pool a b)
    | .ite, c :: t :: e :: _ => .ok (simplifyIte pool c t e)
    | .eq, a :: b :: _ => .ok (simplifyEq pool a b)
    | .bit index, a :: _ => simplifySelection pool .bits index a
    | .bits, _ => simplifyBits pool operands
    | .add width, a :: b :: _ => .ok (simplifyAdd pool width a b)
    | .mul width, a :: b :: _ => .ok (simplifyMul pool width a b)
    | .tuple, _ => .ok none
    | .field index, a :: _ => simplifySelection pool .tuple index a
    | _, _ => .error .outOfRange

/-- Store the simpler expression for an operator on operands, if a rule
applies. -/
def simplify (op : Op) (operands : List ExprId) : Build (Option ExprId) := do
  let proposal ← Stateful.ofExcept (simplification (← get) op operands)
  Draft.build? proposal

end Clausal.Rules
