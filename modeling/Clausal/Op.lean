import Clausal.Pairing

/-!
# Operators

The closed set of operators with their attributes, and the facts about an
operator that do not depend on its operands: name, number of operands, order,
key, and which transformations apply to it.
-/

namespace Clausal

/-- An operator. `bit` and `field` carry a position, `add` and `mul` the width
of their result. -/
inductive Op where
  /-- Negation. -/
  | not
  /-- Conjunction. -/
  | and
  /-- Disjunction. -/
  | or
  /-- A disjunction of literals. -/
  | clause
  /-- Exclusive disjunction of two booleans. -/
  | xor
  /-- Implication. -/
  | implies
  /-- Choice between two booleans or two words. -/
  | ite
  /-- Equality of two values of one type. -/
  | eq
  /-- One bit of a word. -/
  | bit (index : Nat)
  /-- A word made of booleans, the least significant first. -/
  | bits
  /-- Addition modulo a power of two. -/
  | add (width : Nat)
  /-- Multiplication modulo a power of two. -/
  | mul (width : Nat)
  /-- A tuple made of its components. -/
  | tuple
  /-- One component of a tuple. -/
  | field (index : Nat)
  deriving DecidableEq, Repr, Hashable, Inhabited

/-- How many operands an operator takes. -/
inductive Arity where
  | exactly (count : Nat)
  | atLeast (count : Nat)
  deriving DecidableEq, Repr

namespace Arity

/-- Whether a number of operands is allowed. -/
def accepts : Arity → Nat → Bool
  | .exactly count, n => n == count
  | .atLeast count, n => count ≤ n

/-- The written form: `2`, or `at least 1`. -/
def render : Arity → String
  | .exactly count => count.repr
  | .atLeast count => "at least " ++ count.repr

end Arity

namespace Op

/-- The operator's name, without its attribute. -/
def name : Op → String
  | .not => "not"
  | .and => "and"
  | .or => "or"
  | .clause => "clause"
  | .xor => "xor"
  | .implies => "implies"
  | .ite => "ite"
  | .eq => "eq"
  | .bit _ => "bit"
  | .bits => "bits"
  | .add _ => "add"
  | .mul _ => "mul"
  | .tuple => "tuple"
  | .field _ => "field"

/-- The operator's place in the list of operators. -/
def tag : Op → Nat
  | .not => 0
  | .and => 1
  | .or => 2
  | .clause => 3
  | .xor => 4
  | .implies => 5
  | .ite => 6
  | .eq => 7
  | .bit _ => 8
  | .bits => 9
  | .add _ => 10
  | .mul _ => 11
  | .tuple => 12
  | .field _ => 13

/-- The position or width that the operator carries, if any. -/
def parameter? : Op → Option Nat
  | .bit index | .field index => some index
  | .add width | .mul width => some width
  | _ => none

/-- The written form: the name, with an attribute in brackets, as in `bit[2]`. -/
def render (op : Op) : String :=
  match op.parameter? with
  | some parameter => op.name ++ "[" ++ parameter.repr ++ "]"
  | none => op.name

/-- Operators are ordered by their place in the list, then by attribute. -/
def compare (left right : Op) : Ordering :=
  (Ord.compare left.tag right.tag).then
    (Ord.compare (left.parameter?.getD 0) (right.parameter?.getD 0))

instance : Ord Op := ⟨compare⟩

/-- A word that tells operators with attributes below `2 ^ 32` apart. -/
def key (op : Op) : UInt64 :=
  Pairing.pair op.tag.toUInt64 (op.parameter?.getD 0).toUInt64

/-- How many operands the operator takes. -/
def arity : Op → Arity
  | .not | .bit _ | .field _ => .exactly 1
  | .xor | .implies | .eq | .add _ | .mul _ => .exactly 2
  | .ite => .exactly 3
  | .and | .or | .clause | .bits | .tuple => .atLeast 1

/-- Whether the operands may be given in any order. -/
def isCommutative : Op → Bool
  | .and | .or | .clause | .xor | .eq | .add _ | .mul _ => true
  | _ => false

/-- Whether applications of the operator are simplified. All are. -/
def simplifies (_ : Op) : Bool :=
  true

/-- Whether a negation in front of the operator can be moved to its operands. -/
def absorbsNegation : Op → Bool
  | .not | .and | .or | .clause | .xor | .implies | .ite | .eq => true
  | _ => false

/-- Whether applications of the operator are put into canonical operand order. -/
def canonicalizes (op : Op) : Bool :=
  op.isCommutative

/-- Whether the operator can be expressed by simpler ones. -/
def decomposes : Op → Bool
  | .implies | .ite | .eq | .add _ | .mul _ => true
  | _ => false

end Op

end Clausal
