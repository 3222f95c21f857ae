import Clausal.Engine
import Clausal.Model
import Clausal.Pass
import Clausal.Session

/-!
# Problems

A problem collects boolean constraints and is solved once. Solving normalizes
every constraint, lowers it to clauses, numbers the clauses, asks an engine, and
reads the engine's model back as values of the variables.

`enumerate` solves a growing list of constraints: after each model it demands
that the next one differ in a bit that matters.
-/

namespace Clausal

/-- Why constraints cannot be solved. -/
inductive SolveError where
  | build (cause : BuildError)
  | lower (cause : LowerError)
  /-- The engine gave up. -/
  | engine (reason : String)
  /-- The problem was solved before. -/
  | alreadySolved
  deriving DecidableEq, Repr

namespace SolveError

/-- The wording of the cause of an error, if there is one. -/
def detail? : SolveError → Option String
  | .build cause => some cause.message
  | .lower cause => some cause.message
  | .engine reason => some ("SAT engine failure: " ++ reason)
  | .alreadySolved => none

/-- The wording of an error, with the kind in front of the cause. -/
def message : SolveError → String
  | .build cause => "Construction error: " ++ cause.message
  | .lower cause => "Lowering error: " ++ cause.message
  | .engine reason => "Solver error: SAT engine failure: " ++ reason
  | .alreadySolved => "problem has already been solved"

end SolveError

/-- How a problem is solved. With `flatten` the operands of a conjunction are
asserted one by one, and with `generator` models come with their generator. -/
structure SolveOptions where
  flatten : Bool
  generator : Bool
  deriving DecidableEq, Repr

/-- Flatten, and make generators. -/
def SolveOptions.standard : SolveOptions :=
  ⟨true, true⟩

/-- The life of a problem. -/
inductive Status where
  | unsolved
  | solving
  | sat
  | unsat
  | error
  deriving DecidableEq, Repr

/-- Constraints with the options and the progress of solving them. -/
structure Problem where
  constraints : List ExprId
  options : SolveOptions
  status : Status
  deriving DecidableEq, Repr

/-- An action of solving. -/
abbrev Solve (α : Type) := Stateful SolveError (Workspace PassMemory) α

/-- Constraints as a numbered formula, with what is needed to read a model back:
the variables and their literals. -/
structure Compiled where
  session : Session
  surface : List ExprId
  cnf : Cnf
  numbering : Numbering

namespace Solve

/-- Run passes. -/
def ofWork {α : Type} (action : Work α) : Solve α := fun workspace =>
  match action workspace with
  | .ok result workspace => .ok result workspace
  | .error failure workspace => .error (failure.map .build) workspace

/-- Build expressions. -/
def ofBuild {α : Type} (action : Build α) : Solve α :=
  ofWork (Walk.ofBuild action)

/-- Go on with a lowering session. -/
def ofLower {α : Type} (action : Lower α) (session : Session) : Solve Session :=
  match action session with
  | .ok _ session => pure session
  | .error failure _ => throw (failure.map .lower)

/-- Normalize and assert constraints from first to last. -/
def assertAll (session : Session) : List ExprId → Solve Session
  | [] => return session
  | constraint :: rest => do
    let normal ← ofWork (Pass.normalize constraint)
    let pool := (← get).pool
    let session ← ofLower (Lower.assert pool normal) session
    assertAll session rest

/-- Lower variables that may have been lost in normalization. -/
def lowerAll (session : Session) : List ExprId → Solve Session
  | [] => return session
  | var :: rest => do
    let pool := (← get).pool
    let session ← ofLower (Lower.lower pool var) session
    lowerAll session rest

/-- The formula of constraints. -/
def compile (constraints : List ExprId) (options : SolveOptions) : Solve Compiled := do
  let surface := (← get).pool.variablesOf constraints
  let session ← assertAll (.start options.flatten) constraints
  let session ← lowerAll session surface
  let (cnf, numbering) := Cnf.ofClauses session.store.toList
  return ⟨session, surface, cnf, numbering⟩

/-- The bits that are given, with their positions. -/
def givenBits (bits : List (Option Bool)) : List (Nat × Bool) :=
  bits.zipIdx.filterMap fun (bit, index) => bit.map fun truth => (index, truth)

/-- The positions of the bits that are not given. -/
def openBits (bits : List (Option Bool)) : List Nat :=
  bits.zipIdx.filterMap fun (bit, index) => if bit.isNone then some index else none

/-- The equality of one bit of a word with a constant. -/
def bitEquality (e : ExprId) (index : Nat) (truth : Bool) : Build ExprId := do
  let bit ← Build.bit index e
  let value ← Build.truth truth
  Build.eq bit value

/-- Equalities for the bits of a word that are given. -/
def wordConstraints (e : ExprId) (bits : List (Option Bool)) : Build (List ExprId) :=
  (givenBits bits).mapM fun (index, truth) => bitEquality e index truth

mutual

/-- Equalities that hold exactly when an expression has the given bits. Bits
that are not given are left open. -/
def bitConstraints (e : ExprId) (ty : Ty) (bits : List (Option Bool)) : Build (List ExprId) :=
  if bits.all Option.isNone then return []
  else
    match bits.mapM id with
    | some given => do
      let value ← Stateful.ofExcept (ty.ofBits given)
      let constant ← Build.const ty value
      let equality ← Build.eq e constant
      return [equality]
    | none =>
      match ty with
      | .bool => Stateful.breach (.unreachable "a single bit is either constrained or not")
      | .uint _ => wordConstraints e bits
      | .tuple fields => fieldConstraints e 0 fields bits

/-- Equalities for the fields of a tuple, counted from `index`. -/
def fieldConstraints (e : ExprId) (index : Nat) (fields : List Ty) (bits : List (Option Bool)) :
    Build (List ExprId) :=
  match fields with
  | [] => return []
  | field :: fields => do
    let component ← Build.field index e
    let own ← Stateful.ofExcept (front bits field.bitSize)
    let first ← bitConstraints component field own
    let rest ← fieldConstraints e (index + 1) fields (bits.drop field.bitSize)
    return first ++ rest

end

/-- The truth of a literal in an engine's model, if the literal has a number. -/
def litTruth (numbering : Numbering) (model : Array Bool) (lit : Lit) :
    Except Fault (Option Bool) :=
  match numbering.lit? lit with
  | none => .ok none
  | some code =>
    match model[code.natAbs]? with
    | some truth => .ok (some (truth != decide (code < 0)))
    | none => .error .outOfRange

/-- What an engine's model says about a variable. -/
structure Reading where
  binding : Binding
  free : List Nat
  parts : List ExprId

/-- Read the value of a variable from an engine's model. -/
def readVariable (compiled : Compiled) (model : Array Bool) (generate : Bool) (var : ExprId) :
    Solve Reading := do
  let pool := (← get).pool
  match compiled.session.literals[var]? with
  | none => Stateful.fail (.lower (.notLowered (pool.render var)))
  | some lits =>
    let bits ← Stateful.ofExcept (lits.toList.mapM (litTruth compiled.numbering model))
    let ty ← Stateful.ofExcept (pool.ty var)
    let value ← Stateful.ofExcept (ty.ofBits (bits.map fun bit => bit.getD false))
    let name := (pool.variableName? var).getD ""
    let parts ← if generate then ofBuild (bitConstraints var ty bits) else pure []
    return ⟨⟨var, name, value⟩, openBits bits, parts⟩

/-- The conjunction of equalities, if there are any. -/
def conjunction : List ExprId → Build (Option ExprId)
  | [] => return none
  | [part] => return some part
  | parts => do
    let whole ← Build.and parts
    return some whole

/-- Read the values of all variables from an engine's model. -/
def invert (compiled : Compiled) (model : Array Bool) (generate : Bool) : Solve Model := do
  let readings ← compiled.surface.mapM (readVariable compiled model generate)
  let generator ← ofBuild (conjunction (readings.flatMap Reading.parts))
  return {
    bindings := readings.map Reading.binding
    unconstrained := readings.filterMap fun reading =>
      if reading.free.isEmpty then none else some (reading.binding.var, reading.free)
    generator := generator }

/-- Compile constraints, ask an engine, and read its model. -/
def decide (engine : Engine) (constraints : List ExprId) (options : SolveOptions) :
    Solve (Option Model) := do
  let compiled ← compile constraints options
  match engine compiled.cnf with
  | .error failure => throw (failure.map .engine)
  | .ok none => return none
  | .ok (some model) => do
    let found ← invert compiled model options.generator
    return some found

end Solve

namespace Problem

/-- A problem without constraints. -/
def start (options : SolveOptions) : Problem :=
  ⟨[], options, .unsolved⟩

/-- Add a boolean constraint to a problem that was not solved. -/
def add (problem : Problem) (pool : Pool) (constraint : ExprId) :
    Except (Failure SolveError) Problem := do
  if problem.status ≠ .unsolved then
    throw (.error .alreadySolved)
  let ty ← (pool.ty constraint).mapError .fault
  if !ty.isBool then
    throw (.error (.lower (.notBoolean ty)))
  return { problem with constraints := problem.constraints ++ [constraint] }

/-- The formula of a problem. -/
def compile (problem : Problem) : Solve Cnf := do
  let compiled ← Solve.compile problem.constraints problem.options
  return compiled.cnf

/-- The status after an attempt. A fault leaves the problem as it is being
solved. -/
def statusOf : EStateM.Result (Failure SolveError) (Workspace PassMemory) (Option Model) → Status
  | .ok (some _) _ => .sat
  | .ok none _ => .unsat
  | .error (.error _) _ => .error
  | .error (.fault _) _ => .solving

/-- Solve a problem that was not solved. The constraints are used up. -/
def solve (engine : Engine) (problem : Problem) (workspace : Workspace PassMemory) :
    EStateM.Result (Failure SolveError) (Workspace PassMemory) (Option Model) × Problem :=
  if problem.status ≠ .unsolved then (.error (.error .alreadySolved) workspace, problem)
  else
    let result := Solve.decide engine problem.constraints problem.options workspace
    (result, { problem with constraints := [], status := statusOf result })

/-- A standard problem with the given constraints. -/
def ofConstraints (pool : Pool) (constraints : List ExprId) :
    Except (Failure SolveError) Problem :=
  constraints.foldlM (fun problem constraint => problem.add pool constraint) (start .standard)

end Problem

namespace Solve

/-- Solve constraints as a standard problem. -/
def once (engine : Engine) (constraints : List ExprId) : Solve (Option Model) := fun workspace =>
  match Problem.ofConstraints workspace.pool constraints with
  | .error failure => .error failure workspace
  | .ok problem => (problem.solve engine workspace).1

/-- Up to `limit` models of constraints. After each model the negation of its
generator is added to the constraints; a model without one is the last. -/
def enumerate (engine : Engine) : Nat → List ExprId → Solve (List Model)
  | 0, _ => return []
  | limit + 1, constraints => do
    match ← once engine constraints with
    | none => return []
    | some model =>
      match model.generator with
      | none => return [model]
      | some generator => do
        let blocked ← ofBuild (Build.not generator)
        let rest ← enumerate engine limit (constraints ++ [blocked])
        return model :: rest

end Solve

end Clausal
