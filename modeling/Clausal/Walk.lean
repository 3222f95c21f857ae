import Clausal.Pool.Build

/-!
# Walks over shared expressions

A walk applies a step to every node of an expression and puts the results
together, from the operands up or from the top down. A node that is reached
several times is treated once: its result is found again in a memory, which the
walk carries along with the pool.

The memory is a parameter. `Trace` is the memory of a single walk and also
lists the nodes to which the step was applied; the passes of `Clausal.Pass`
share one memory for their whole life.
-/

namespace Clausal

/-- How results are found in a memory and added to it. -/
structure Memo (σ : Type) where
  find? : σ → ExprId → Option ExprId
  record : σ → ExprId → ExprId → σ

/-- A pool together with a memory of results. -/
structure Workspace (σ : Type) where
  pool : Pool
  memory : σ

/-- An action on a pool and a memory. -/
abbrev Walk (σ α : Type) := Stateful BuildError (Workspace σ) α

namespace Walk

variable {σ α : Type}

/-- Build expressions and leave the memory as it is. -/
def ofBuild (action : Build α) : Walk σ α := fun ⟨pool, memory⟩ =>
  match action pool with
  | .ok result pool => .ok result ⟨pool, memory⟩
  | .error failure pool => .error failure ⟨pool, memory⟩

/-- The remembered result for a node. -/
def lookUp (memo : Memo σ) (e : ExprId) : Walk σ (Option ExprId) := do
  return memo.find? (← get).memory e

/-- Remember the result for a node. -/
def remember (memo : Memo σ) (e result : ExprId) : Walk σ Unit :=
  modify fun ⟨pool, memory⟩ => ⟨pool, memo.record memory e result⟩

/-- The application `e` with other operands; `e` itself if they are the same. -/
def withOperands (e : ExprId) (old new : List ExprId) : Build ExprId := do
  if new = old then return e
  match (← get).op? e with
  | some op => Build.apply op new
  | none => return e

/-- Apply a step to every node after its operands. -/
def bottomUp (memo : Memo σ) (step : ExprId → Walk σ ExprId) (e : ExprId) : Walk σ ExprId := do
  match ← lookUp memo e with
  | some result => return result
  | none =>
    let pool := (← get).pool
    let operands := pool.operands e
    let new ← operands.attach.mapM fun ⟨operand, _⟩ => bottomUp memo step operand
    let same ← ofBuild (withOperands e operands new)
    let result ← step same
    remember memo e result
    return result
termination_by e.index
decreasing_by
  rename_i member
  exact Pool.index_lt_of_mem_operands member

/-- Apply a step to every node before the operands of its result. The walk goes
down at most `depth` levels. -/
def topDown (memo : Memo σ) (step : ExprId → Walk σ ExprId) : Nat → ExprId → Walk σ ExprId
  | 0, _ => Stateful.breach .outOfFuel
  | depth + 1, e => do
    match ← lookUp memo e with
    | some result => return result
    | none =>
      let top ← step e
      let operands := (← get).pool.operands top
      let new ← operands.mapM (topDown memo step depth)
      let result ← ofBuild (withOperands top operands new)
      remember memo e result
      return result

end Walk

/-- The memory of a single walk: results, and the nodes to which the step was
applied. -/
structure Trace where
  results : Std.HashMap ExprId ExprId
  visits : Array ExprId

namespace Trace

/-- A trace before the walk. -/
def empty : Trace :=
  ⟨∅, #[]⟩

/-- Results by node. -/
def memo : Memo Trace where
  find? trace e := trace.results[e]?
  record trace e result := { trace with results := trace.results.insert e result }

/-- A step that is noted before it is taken. -/
def noting (step : ExprId → Build ExprId) (e : ExprId) : Walk Trace ExprId := do
  modify fun ⟨pool, trace⟩ => ⟨pool, { trace with visits := trace.visits.push e }⟩
  Walk.ofBuild (step e)

end Trace

namespace Build

/-- A depth that suffices for a walk from the top down whose step replaces some
nodes by expressions in which they do not occur. -/
def walkDepth (pool : Pool) : Nat :=
  2 * pool.size + 2

/-- Run a walk with a memory of its own, and return how it ended and which
nodes the step was applied to. -/
def runTraced (walk : Walk Trace ExprId) (pool : Pool) :
    Except (Failure BuildError) ExprId × List ExprId × Pool :=
  match walk ⟨pool, .empty⟩ with
  | .ok result ⟨pool, trace⟩ => (.ok result, trace.visits.toList, pool)
  | .error failure ⟨pool, trace⟩ => (.error failure, trace.visits.toList, pool)

/-- Apply a step to every node of an expression after its operands. -/
def bottomUp (step : ExprId → Build ExprId) (e : ExprId) (pool : Pool) :
    Except (Failure BuildError) ExprId × List ExprId × Pool :=
  runTraced (Walk.bottomUp Trace.memo (Trace.noting step) e) pool

/-- Apply a step to every node of an expression before the operands of its
result. -/
def topDown (step : ExprId → Build ExprId) (e : ExprId) (pool : Pool) :
    Except (Failure BuildError) ExprId × List ExprId × Pool :=
  runTraced (Walk.topDown Trace.memo (Trace.noting step) (walkDepth pool) e) pool

/-- The step that puts `replacement` in the place of `target`. -/
def replacing (target replacement e : ExprId) : Build ExprId :=
  pure (if e = target then replacement else e)

/-- The step that puts the operator `new` in the place of `old`. -/
def relabelling (old new : Op) (e : ExprId) : Build ExprId := do
  let pool ← get
  if pool.op? e = some old then Build.apply new (pool.operands e) else pure e

end Build

end Clausal
