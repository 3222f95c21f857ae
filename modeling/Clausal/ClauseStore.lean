import Std.Data.HashSet
import Clausal.Lit

/-!
# Clauses and clause stores

A clause is a list of literals, read as their disjunction. `Clause.normalize`
brings it into the form in which it is stored: sorted by variable, without
repetitions, and without the literal that is known to be false. Clauses that
hold in any case are dropped.

A clause store keeps distinct clauses in the order in which they were added.
-/

namespace Clausal

/-- A disjunction of literals. -/
abbrev Clause := List Lit

namespace Clause

/-- Literals go by variable, and a variable before its negation. -/
def inOrder (left right : Lit) : Bool :=
  left.var < right.var ||
    (left.var == right.var && (!left.isNegated || right.isNegated))

/-- Whether two neighbours have the same variable. -/
def repeatsVariable : Clause → Bool
  | first :: second :: rest => first.var == second.var || repeatsVariable (second :: rest)
  | _ => false

/-- The literals of a clause other than the negation of `top`. -/
def withoutFalse (top : Option Lit) (lits : Clause) : Except Fault Clause :=
  lits.filterM fun lit => do
    let opposite ← lit.neg
    return top != some opposite

/-- The form in which a clause is stored, when `top` is known to be true.
Nothing is left of a clause that holds in any case. -/
def normalize (top : Option Lit) (lits : Clause) : Except Fault (Option Clause) := do
  let kept ← withoutFalse top lits
  if top.any kept.contains then return none
  let clause := (kept.mergeSort inOrder).eraseReps
  return if repeatsVariable clause then none else some clause

end Clause

/-- Distinct clauses in the order of insertion. -/
structure ClauseStore where
  clauses : Array Clause
  members : Std.HashSet Clause

namespace ClauseStore

/-- A store without clauses. -/
def empty : ClauseStore :=
  ⟨#[], ∅⟩

/-- Add a clause, and say whether it is new. -/
def insert (store : ClauseStore) (clause : Clause) : Bool × ClauseStore :=
  if store.members.contains clause then (false, store)
  else (true, ⟨store.clauses.push clause, store.members.insert clause⟩)

/-- The number of clauses. -/
def size (store : ClauseStore) : Nat :=
  store.clauses.size

/-- The clauses in the order of insertion. -/
def toList (store : ClauseStore) : List Clause :=
  store.clauses.toList

/-- The clauses that were added after the first `count`. -/
def since (store : ClauseStore) (count : Nat) : List Clause :=
  (store.clauses.extract count store.clauses.size).toList

end ClauseStore

end Clausal
