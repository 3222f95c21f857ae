import Clausal.Rules.Simplify

/-!
# Negation rules

For an operator on operands, an expression of the opposite meaning whose top is
not a negation, where the operator can take the negation in.
-/

namespace Clausal.Rules

/-- The opposite of an operator on operands, if a rule applies. -/
def negation (pool : Pool) (op : Op) (operands : List ExprId) : Proposal :=
  match op, operands with
  | .not, a :: _ => .ok (some (.known a))
  | .and, _ => .ok (some (.apply .or (operands.map .negation)))
  | .or, _ | .clause, _ => .ok (some (.apply .and (operands.map .negation)))
  | .xor, a :: b :: _ => .ok (some (.apply .xor [.known a, .negation b]))
  | .implies, a :: b :: _ => .ok (some (.apply .and [.known a, .negation b]))
  | .ite, c :: t :: e :: _ =>
    if isBoolean pool t then .ok (some (.apply .ite [.known c, .negation t, .negation e]))
    else .ok none
  | .eq, a :: b :: _ => if isBoolean pool a then .ok (some (.ofKnown .xor [a, b])) else .ok none
  | .bit _, _ | .bits, _ | .add _, _ | .mul _, _ | .tuple, _ | .field _, _ => .ok none
  | _, _ => .error .outOfRange

/-- Store the opposite of an operator on operands, if a rule applies. -/
def negate (op : Op) (operands : List ExprId) : Build (Option ExprId) := do
  let proposal ← Stateful.ofExcept (negation (← get) op operands)
  Draft.build? proposal

end Clausal.Rules
