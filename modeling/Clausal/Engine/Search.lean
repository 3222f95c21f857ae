import Clausal.Engine.Queue
import Clausal.Engine.Resolvent

/-!
# Search for models

Complete engines. A search decides literals, propagates what they force, and
learns a clause from every conflict. The learned clause takes the search back to
the level on which it forces a literal. A conflict without decisions refutes the
formula.

With the fixed strategy the smallest open variable is decided, and made false. A
true variable is then never decided, but forced by decisions on smaller variables.
So the model found is the least one, where `false` comes before `true` and small
variables matter more. The adaptive strategy decides variables of recent conflicts
first, repeats their last truth, and restarts from time to time; it returns some
model.

The search is there to run problems, and nothing is proved about it. It gives up after
a number of steps, so that it decides a formula (`Engine.Decides`) only if that number
is enough for the formula. What is proved about solving assumes no more of an engine
than that it decides the formulas it is given.
-/

namespace Clausal.Search

/-- The order of decisions. -/
inductive Strategy where
  /-- Ascending variables, `false` first. -/
  | fixed
  /-- Variables of recent conflicts first, with the truth they had. -/
  | adaptive
  deriving DecidableEq, Repr

/-- A learned clause, and the number of levels of its literals when it was
learned. Clauses that spread over few levels are more useful. -/
structure Learned where
  address : Nat
  spread : Nat

/-- A search in progress. -/
structure Progress where
  trail : Trail
  clauses : Watched
  queue : Queue
  /-- The last truth of the variables. -/
  truths : Array Bool
  /-- Working space for conflicts: no variable is seen between conflicts. -/
  seen : Array Bool
  /-- Working space: the last conflict in which a level was counted. -/
  counted : Array Nat
  learned : Array Learned
  /-- The number of learned clauses above which some are dropped. -/
  capacity : Nat
  conflicts : Nat
  /-- The number of conflicts at which the search restarts next. -/
  restartAt : Nat
  /-- The number of conflicts between the last restart and the next. -/
  interval : Nat

namespace Progress

/-- The search without clauses over variables up to `count`. -/
def start (count : Nat) : Progress where
  trail := .empty (count + 1)
  clauses := .empty (count + 1)
  queue := .ascending count
  truths := Array.replicate (count + 1) false
  seen := Array.replicate (count + 1) false
  counted := Array.replicate (count + 1) 0
  learned := #[]
  capacity := 4000
  conflicts := 0
  restartAt := 100
  interval := 100

/-- Take back the newest literals. -/
def retract : Nat → Progress → Progress
  | 0, search => search
  | count + 1, search =>
    let code := search.trail.codes.getD (search.trail.codes.size - 1) 0
    let var := varOf code
    retract count { search with
      trail := search.trail.pop
      queue := search.queue.release var
      truths := search.truths.setIfInBounds var (code % 2 == 0) }

/-- Go back to a level. -/
def backTo (search : Progress) (level : Nat) : Progress :=
  if search.trail.level ≤ level then search
  else
    let count := search.trail.codes.size - search.trail.limits.getD level 0
    let search := search.retract count
    { search with trail := search.trail.lowerTo level }

/-- Propagate, and return the address of a false clause or zero. -/
def propagate (search : Progress) : Nat × Progress :=
  let bound := search.trail.levels.size + 1
  match search with
  | ⟨trail, clauses, queue, truths, seen, counted, learned, capacity, conflicts, restartAt,
      interval⟩ =>
    match clauses.propagate bound trail with
    | (clauses, trail, conflict) =>
      (conflict, ⟨trail, clauses, queue, truths, seen, counted, learned, capacity, conflicts,
        restartAt, interval⟩)

/-- Move variables to the front, in the order in which they stand. -/
def promote (search : Progress) (vars : Array Nat) : Progress :=
  let stamps := search.queue.stamps
  let vars := vars.qsort fun a b => stamps.getD a 0 < stamps.getD b 0
  { search with queue := vars.foldl Queue.moveFirst search.queue }

/-- Count the levels of literals that were not counted in this conflict. -/
def spread (trail : Trail) (stamp : Nat) (codes : Array Nat) (counted : Array Nat) :
    Nat × Array Nat :=
  codes.foldl
    (fun (count, counted) code =>
      let level := trail.levelOf (varOf code)
      if counted.getD level 0 = stamp then (count, counted)
      else (count + 1, counted.setIfInBounds level stamp))
    (0, counted)

/-- Learn from a false clause, and go back to where the learned clause forces a
literal. -/
def learn (strategy : Strategy) (search : Progress) (address : Nat) : Progress :=
  match search with
  | ⟨trail, clauses, queue, truths, seen, counted, learned, capacity, conflicts, restartAt,
      interval⟩ =>
    match Lesson.ofConflict clauses trail seen address with
    | (lesson, seen) =>
      let conflicts := conflicts + 1
      match spread trail conflicts lesson.codes counted with
      | (levels, counted) =>
        let search : Progress := ⟨trail, clauses, queue, truths, seen, counted, learned, capacity,
          conflicts, restartAt, interval⟩
        let search := match strategy with
          | .fixed => search
          | .adaptive => search.promote lesson.touched
        let search := search.backTo lesson.level
        let code := lesson.codes.getD 0 0
        if lesson.codes.size < 2 then { search with trail := search.trail.push code 0 }
        else
          let address := search.clauses.arena.size
          { search with
            trail := search.trail.push code address
            clauses := search.clauses.add lesson.codes
            learned := search.learned.push ⟨address, levels⟩ }

/-- Whether a clause forces its first literal at present. -/
def isReason (search : Progress) (address : Nat) : Bool :=
  let code := search.clauses.arena.getD (address + 1) 0
  search.trail.reasonOf (varOf code) == address && search.trail.isAssigned (varOf code)

/-- Drop the half of the learned clauses that is less useful. -/
def forget (search : Progress) : Progress :=
  let sorted := search.learned.qsort fun a b =>
    a.spread < b.spread || (a.spread == b.spread && b.address < a.address)
  let half := sorted.size / 2
  let useful (clause : Learned) : Bool := clause.spread ≤ 2 || search.isReason clause.address
  let rest := sorted.extract half sorted.size
  let kept := sorted.extract 0 half ++ rest.filter useful
  let dropped := rest.filter fun clause => !useful clause
  { search with
    clauses := dropped.foldl (fun clauses clause => clauses.drop clause.address) search.clauses
    learned := kept
    capacity := search.capacity + 500 }

/-- Drop clauses if there are many, and restart if it is time. -/
def maintain (strategy : Strategy) (search : Progress) : Progress :=
  let search := if search.capacity < search.learned.size then search.forget else search
  match strategy with
  | .fixed => search
  | .adaptive =>
    if search.conflicts < search.restartAt then search
    else
      let search := search.backTo 0
      let interval := search.interval + search.interval / 2
      let restartAt := search.conflicts + interval
      { search with restartAt := restartAt, interval := interval }

/-- The variable to decide next, zero if all are assigned. -/
def nextVar (search : Progress) : Nat :=
  let trail := search.trail
  Queue.walk search.queue.next trail.isAssigned trail.levels.size search.queue.cursor

/-- Decide the next variable. -/
def decideVar (strategy : Strategy) (search : Progress) (var : Nat) : Progress :=
  let truth := match strategy with
    | .fixed => false
    | .adaptive => search.truths.getD var false
  { search with
    trail := search.trail.pushDecision (if truth then 2 * var else 2 * var + 1)
    queue := { search.queue with cursor := var } }

/-- The result of a search. -/
inductive Verdict where
  /-- All variables are assigned and no clause is false. -/
  | model (trail : Trail)
  /-- There is no model. -/
  | refuted
  /-- The bound on the steps was reached. -/
  | undecided

/-- Search for at most `bound` decisions and conflicts. -/
def run (strategy : Strategy) : Nat → Progress → Verdict
  | 0, _ => .undecided
  | bound + 1, search =>
    match search.propagate with
    | (conflict, search) =>
      if conflict ≠ 0 then
        if search.trail.level = 0 then .refuted
        else run strategy bound ((search.learn strategy conflict).maintain strategy)
      else
        let var := search.nextVar
        if var = 0 then .model search.trail
        else run strategy bound (search.decideVar strategy var)

/-- The codes of the literals of a clause without repetition, or nothing if the
clause has a literal and its negation. -/
def codesOf (clause : List Int) : Option (Array Nat) :=
  let codes := ((clause.map codeOf).mergeSort).eraseReps
  let clashes := (codes.zip (codes.drop 1)).any fun (code, next) => varOf code == varOf next
  if clashes then none else some codes.toArray

/-- Add a clause before the first decision, or return nothing if it is false. -/
def addClause (search : Progress) (clause : List Int) : Option Progress :=
  match codesOf clause with
  | none => some search
  | some codes =>
    if codes.isEmpty then none
    else if codes.size = 1 then
      let code := codes.getD 0 0
      match search.trail.mark code with
      | .holds => some search
      | .fails => none
      | .unknown => some { search with trail := search.trail.push code 0 }
    else some { search with clauses := search.clauses.add codes }

/-- The greatest variable of clauses. -/
def greatestVar (clauses : List (List Int)) : Nat :=
  clauses.foldl (fun most clause => clause.foldl (fun most lit => max most lit.natAbs) most) 0

/-- Search for a model of clauses over variables up to `count`. -/
def ofClauses (strategy : Strategy) (count bound : Nat) (clauses : List (List Int)) : Verdict :=
  match clauses.foldlM addClause (start (max count (greatestVar clauses))) with
  | none => .refuted
  | some search => search.run strategy bound

end Progress

/-- A number of steps that no search will take. -/
def enough : Nat :=
  1000000000000000000

/-- Decide a formula. Zero is not a literal. A model has the truth of the
variables, with an unused entry at zero. -/
def engine (strategy : Strategy) : Engine := fun cnf =>
  if cnf.clauses.any fun clause => clause.contains 0 then .error (.fault .outOfRange)
  else
    match Progress.ofClauses strategy cnf.numVars enough cnf.clauses with
    | .refuted => .ok none
    | .undecided => .error (.error "step limit reached")
    | .model trail =>
      .ok (some ((Array.range (cnf.numVars + 1)).map fun var =>
        match trail.mark (2 * var) with
        | .holds => true
        | _ => false))

end Clausal.Search

namespace Clausal.Engine

/-- The engine that returns the least model. -/
def least : Engine :=
  Search.engine .fixed

/-- The engine that returns some model. -/
def adaptive : Engine :=
  Search.engine .adaptive

end Clausal.Engine
