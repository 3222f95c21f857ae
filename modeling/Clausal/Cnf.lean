import Clausal.ClauseStore

/-!
# Numbered formulas

A formula in conjunctive normal form over the variables from one to `numVars`,
with literals as plain numbers. `Cnf.ofClauses` makes one from clauses over
arbitrary variables by numbering these in the order of first occurrence.
-/

namespace Clausal

/-- A conjunction of disjunctions of literals. -/
structure Cnf where
  numVars : Nat
  clauses : List (List Int)
  deriving DecidableEq, Repr

/-- Numbers for variables. -/
structure Numbering where
  numbers : Std.HashMap Nat Nat

namespace Numbering

/-- No variable has a number. -/
def empty : Numbering :=
  ⟨∅⟩

/-- The number of variables that have a number. -/
def size (numbering : Numbering) : Nat :=
  numbering.numbers.size

/-- Whether no variable has a number. -/
def isEmpty (numbering : Numbering) : Bool :=
  numbering.numbers.isEmpty

/-- The number of a variable. -/
def get? (numbering : Numbering) (var : Nat) : Option Nat :=
  numbering.numbers[var]?

/-- A number with the sign of a literal. -/
def signed (lit : Lit) (number : Nat) : Int :=
  if lit.isNegated then -(number : Int) else number

/-- A literal with its variable replaced by the number. -/
def lit? (numbering : Numbering) (lit : Lit) : Option Int :=
  (numbering.get? lit.var).map (signed lit)

/-- Number a literal; a new variable gets the next number. -/
def numberLit (lit : Lit) : StateM Numbering Int := fun numbering =>
  match numbering.get? lit.var with
  | some number => (signed lit number, numbering)
  | none =>
    let number := numbering.size + 1
    (signed lit number, ⟨numbering.numbers.insert lit.var number⟩)

/-- Number the literals of a clause from left to right. -/
def numberClause (clause : Clause) : StateM Numbering (List Int) :=
  clause.mapM numberLit

/-- Number clauses from first to last. -/
def numberClauses (clauses : List Clause) : StateM Numbering (List (List Int)) :=
  clauses.mapM numberClause

end Numbering

namespace Cnf

/-- The formula of clauses whose variables are numbered in the order of first
occurrence, with the numbering. -/
def ofClauses (clauses : List Clause) : Cnf × Numbering :=
  let (codes, numbering) := Numbering.numberClauses clauses .empty
  (⟨numbering.size, codes⟩, numbering)

/-- The truth of a literal in a model, which lists the truth of the variables
and has an unused entry at zero. -/
def litHolds (model : Array Bool) (code : Int) : Except Fault Bool := do
  let lit ← Lit.ofInt code
  match model[lit.var]? with
  | some truth => return lit.eval truth
  | none => throw .outOfRange

/-- Whether some literal holds, read up to the first that does. -/
def clauseHolds (model : Array Bool) : List Int → Except Fault Bool
  | [] => .ok false
  | code :: rest => do
    let holds ← litHolds model code
    if holds then return true else clauseHolds model rest

/-- Whether all clauses hold, read up to the first that does not. -/
def clausesHold (model : Array Bool) : List (List Int) → Except Fault Bool
  | [] => .ok true
  | clause :: rest => do
    let holds ← clauseHolds model clause
    if holds then clausesHold model rest else return false

/-- The truth of a formula in a model. -/
def eval (cnf : Cnf) (model : Array Bool) : Except Fault Bool :=
  clausesHold model cnf.clauses

end Cnf

end Clausal
