import Clausal.Pool.Measure
import Clausal.Rules.Canonical
import Clausal.Rules.Decompose
import Clausal.Rules.Negate
import Clausal.Walk

/-!
# Passes

A pass applies one family of rules to every node of an expression: simplify,
decompose, push negations to the leaves, or sort operands. `Pass.normalize` runs
them in the order that prepares a boolean expression for lowering.

Results are remembered by pass and node for the life of the workspace, and a
result is remembered as its own result. A pass that replaces nodes by new ones
is bounded by a measure of its expression.
-/

namespace Clausal

/-- The families of rules. -/
inductive Pass where
  | simplify
  | pushNegation
  | canonicalize
  | decompose
  deriving DecidableEq, Repr, Hashable

/-- Results of passes. -/
abbrev PassMemory := Std.HashMap (Pass × ExprId) ExprId

/-- An action that runs passes. -/
abbrev Work (α : Type) := Walk PassMemory α

/-- A workspace without expressions, with `2 ^ bits` buckets. -/
def Workspace.empty? (bits : Nat) : Except Fault (Workspace PassMemory) := do
  let pool ← Pool.empty? bits
  return ⟨pool, ∅⟩

/-- The counts that describe a workspace. -/
def Workspace.describe (workspace : Workspace PassMemory) : String :=
  "Context \x7b nodes: " ++ workspace.pool.size.repr ++
    ", buckets: " ++ workspace.pool.table.bucketCount.repr ++
    ", variables: " ++ workspace.pool.declared.size.repr ++
    ", rewrites: " ++ workspace.memory.size.repr ++ " \x7d"

namespace Pass

/-- The memory of a pass. A result is also remembered as its own result. -/
def memo (pass : Pass) : Memo PassMemory where
  find? memory e := memory[(pass, e)]?
  record memory e result :=
    let memory := memory.insert (pass, e) result
    if result = e then memory else memory.insert (pass, result) result

/-- The remembered result of a pass, or else what `run` makes of the pool. -/
def lookUpOr (pass : Pass) (e : ExprId) (run : Pool → Work ExprId) : Work ExprId := do
  match ← Walk.lookUp pass.memo e with
  | some result => return result
  | none => run (← get).pool

/-- A rule applied to the top of an expression, if it is an application. The
result is the expression itself where no rule applies. -/
def atTop (applies : Op → Bool) (rule : Op → List ExprId → Build (Option ExprId)) (e : ExprId) :
    Build ExprId := do
  match (← get).node? e with
  | some ⟨_, .apply op operands⟩ =>
    if applies op then
      let result ← rule op operands
      return result.getD e
    else return e
  | _ => return e

/-- Simplify the top of an expression, and the result with `again`. -/
def simplifyTop (again : ExprId → Work ExprId) (e : ExprId) : Work ExprId := do
  let result ← Walk.ofBuild (atTop Op.simplifies Rules.simplify e)
  if result = e then return e else again result

/-- Simplify an expression, where results of rules are simplified again up to
`bound` times one inside the other. -/
def simplifyWithin : Nat → ExprId → Work ExprId
  | 0, _ => Stateful.breach .outOfFuel
  | bound + 1, e => Walk.bottomUp (memo .simplify) (simplifyTop (simplifyWithin bound)) e

/-- Simplify an expression until no rule applies. Every rule lowers the weight,
which is therefore a bound. -/
def simplifyExpr (e : ExprId) : Work ExprId :=
  lookUpOr .simplify e fun pool => simplifyWithin (pool.weight e) e

/-- An expression without pairs of negations at the top. -/
def stripPairs (pool : Pool) (e : ExprId) : ExprId :=
  match _outer : pool.node? e with
  | some ⟨_, .apply .not (inner :: _)⟩ =>
    match _stored : pool.node? inner with
    | some ⟨_, .apply .not (operand :: _)⟩ => stripPairs pool operand
    | _ => e
  | _ => e
termination_by e.index
decreasing_by
  have below : inner.index < e.index :=
    Pool.index_lt_of_node? _outer (by simp [Node.operands, Form.operands])
  have further : operand.index < inner.index :=
    Pool.index_lt_of_node? _stored (by simp [Node.operands, Form.operands])
  omega

/-- Move a negation at the top of an expression to the operands below it. -/
def absorb (e : ExprId) : Build ExprId := do
  let pool ← get
  let top := stripPairs pool e
  match pool.negated? top with
  | none => return top
  | some inner =>
    match pool.truth? inner with
    | some truth => Build.truth !truth
    | none =>
      match pool.node? inner with
      | some ⟨_, .apply op operands⟩ =>
        if op.absorbsNegation then
          let result ← Rules.negate op operands
          return result.getD top
        else return top
      | _ => return top

/-- Push negations down until they stand in front of what cannot absorb them. -/
def pushNegations (e : ExprId) : Work ExprId :=
  lookUpOr .pushNegation e fun pool =>
    Walk.topDown (memo .pushNegation) (fun e => Walk.ofBuild (absorb e)) (pool.rank e) e

/-- Express every operator by simpler ones where a rule does so. -/
def decomposeExpr (e : ExprId) : Work ExprId :=
  lookUpOr .decompose e fun pool =>
    Walk.topDown (memo .decompose)
      (fun e => Walk.ofBuild (atTop Op.decomposes Rules.decompose e)) (pool.rank e) e

/-- Sort the operands of commutative operators. -/
def canonicalizeExpr (e : ExprId) : Work ExprId :=
  Walk.bottomUp (memo .canonicalize)
    (fun e => Walk.ofBuild (atTop Op.canonicalizes Rules.canonicalize e)) e

/-- Run a pass on an expression. -/
def run : Pass → ExprId → Work ExprId
  | .simplify => simplifyExpr
  | .pushNegation => pushNegations
  | .canonicalize => canonicalizeExpr
  | .decompose => decomposeExpr

/-- The normal form of an expression. -/
def normalize (e : ExprId) : Work ExprId := do
  let e ← run .simplify e
  let e ← run .decompose e
  let e ← run .simplify e
  let e ← run .pushNegation e
  let e ← run .simplify e
  run .canonicalize e

end Pass

end Clausal
