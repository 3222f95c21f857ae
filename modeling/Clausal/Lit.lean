import Clausal.Fault

/-!
# Literals

A literal is a variable or its negation, written as a positive or negative
number. Literals are 32-bit signed numbers other than zero, so the smallest of
them, `-2 ^ 31`, has no negation.
-/

namespace Clausal

/-- A variable, or with a negative code its negation. -/
structure Lit where
  code : Int
  nonzero : code ≠ 0
  deriving DecidableEq, Repr

namespace Lit

instance : Hashable Lit := ⟨fun lit => hash lit.code⟩

instance : Ord Lit := ⟨fun left right => Ord.compare left.code right.code⟩

/-- The literal with a code, which must not be zero. -/
def ofInt (code : Int) : Except Fault Lit :=
  if zero : code = 0 then .error .zeroLiteral else .ok ⟨code, zero⟩

/-- The number of 32-bit codes, `2 ^ 32`. -/
def codeCount : Nat :=
  4294967296

/-- The smallest code, `-2 ^ 31`. Its opposite is not a code. -/
def leastCode : Int :=
  -2147483648

/-- The positive literal of a variable. Variables are 32-bit numbers, and those
from `2 ^ 31` on are read as negative codes. -/
def ofVar (number : Nat) : Except Fault Lit :=
  ofInt (Int.bmod number codeCount)

/-- The variable of a literal. -/
def var (lit : Lit) : Nat :=
  lit.code.natAbs

/-- Whether a literal is a negation. -/
def isNegated (lit : Lit) : Bool :=
  lit.code < 0

/-- The opposite literal. -/
def neg (lit : Lit) : Except Fault Lit :=
  if lit.code = leastCode then .error .overflow
  else .ok ⟨-lit.code, by have := lit.nonzero; omega⟩

/-- The truth of a literal, given that of its variable. -/
def eval (lit : Lit) (truth : Bool) : Bool :=
  truth != lit.isNegated

/-- The written form. -/
def render (lit : Lit) : String :=
  lit.code.repr

/-- Literals in the order of their codes. -/
def sort (lits : List Lit) : List Lit :=
  lits.mergeSort fun left right => left.code ≤ right.code

end Lit

end Clausal
