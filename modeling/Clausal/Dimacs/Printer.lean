import Clausal.Cnf

/-!
# Writing formulas

The DIMACS text of a formula: a problem line with the numbers of variables and
clauses, then a line for each clause, ended by a zero.
-/

namespace Clausal.Dimacs

/-- The line of a clause. -/
def printClause (clause : List Int) : String :=
  String.join (clause.map fun code => code.repr ++ " ") ++ "0\n"

/-- The text of a formula. -/
def print (cnf : Cnf) : String :=
  "p cnf " ++ cnf.numVars.repr ++ " " ++ cnf.clauses.length.repr ++ "\n" ++
    String.join (cnf.clauses.map printClause)

end Clausal.Dimacs
