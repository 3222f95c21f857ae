import Clausal.Rules.Circuit
import Clausal.Rules.Simplify

/-!
# Decomposition rules

For an operator on operands, an equal expression over simpler operators:
implication and boolean choice over `and`, `or` and `not`, the choice of words
bit by bit, equality of words and tuples part by part, arithmetic as circuits.

Parts are made one after the other, and the first that cannot be made ends the
work; a word may be too wide to list its parts beforehand.
-/

namespace Clausal.Rules

/-- An implication over `or` and `not`. -/
def implication (a b : ExprId) : Draft :=
  .apply .or [.negation a, .known b]

/-- A choice between booleans over `and`, `or` and `not`. -/
def boolChoice (c t e : ExprId) : Draft :=
  .apply .or [.ofKnown .and [c, t], .apply .and [.negation c, .known e]]

/-- The choice of one bit of two words. -/
def bitChoice (c t e : ExprId) (index : Nat) : Draft :=
  .apply .ite [.known c, .ofKnown (.bit index) [t], .ofKnown (.bit index) [e]]

/-- The choice between two words of a width, bit by bit. -/
def wordChoice (width : Nat) (c t e : ExprId) : Build ExprId := do
  let bits ← Build.collect width fun index => (bitChoice c t e index).build
  Build.bits bits

/-- The equality of the parts of two expressions that `select` picks. -/
def partEquality (select : Nat → Op) (a b : ExprId) (index : Nat) : Draft :=
  .apply .eq [.ofKnown (select index) [a], .ofKnown (select index) [b]]

/-- The conjunction of the equalities of all parts. -/
def partwiseEquality (select : Nat → Op) (count : Nat) (a b : ExprId) : Build ExprId := do
  let equalities ← Build.collect count fun index => (partEquality select a b index).build
  Build.and equalities

/-- A choice between expressions of a type over simpler operators. Tuples are
not chosen between. -/
def decomposeChoice (ty : Ty) (c t e : ExprId) : Build (Option ExprId) := do
  match ty with
  | .bool => return some (← (boolChoice c t e).build)
  | .uint width => return some (← wordChoice width c t e)
  | .tuple _ => return none

/-- An equality of expressions of a type over simpler equalities. Booleans are
simple, and tuples without fields are equal. -/
def decomposeEquality (ty : Ty) (a b : ExprId) : Build (Option ExprId) := do
  match ty with
  | .bool => return none
  | .uint width => return some (← partwiseEquality .bit width a b)
  | .tuple [] => return some (← Build.truth true)
  | .tuple fields => return some (← partwiseEquality .field fields.length a b)

/-- Store an operator on operands over simpler ones, if a rule applies. -/
def decompose (op : Op) (operands : List ExprId) : Build (Option ExprId) := do
  match op, operands with
  | .implies, a :: b :: _ => return some (← (implication a b).build)
  | .ite, c :: t :: e :: _ => decomposeChoice (← Build.tyOf t) c t e
  | .eq, a :: b :: _ => decomposeEquality (← Build.tyOf a) a b
  | .add width, a :: b :: _ => return some (← Circuit.add width a b)
  | .mul width, a :: b :: _ => return some (← Circuit.mul width a b)
  | .implies, _ | .ite, _ | .eq, _ | .add _, _ | .mul _, _ => Stateful.breach .outOfRange
  | _, _ => return none

end Clausal.Rules
