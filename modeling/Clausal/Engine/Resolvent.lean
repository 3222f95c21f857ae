import Clausal.Engine.Watched

/-!
# Resolvents of a conflict

From a clause that is false, and the clauses that forced its literals, follows a
clause with a single literal of the current level. It would have forced that
literal on an earlier level, and is learned.

Resolvents are a part of `Clausal.Engine.Search`, about which nothing is proved.
-/

namespace Clausal.Search

/-- A clause in the making. -/
structure Resolvent where
  /-- Whether a variable is or was in the clause. -/
  seen : Array Bool
  /-- The variables that are or were in the clause. -/
  touched : Array Nat
  /-- The number of literals of the current level. -/
  pending : Nat
  /-- The literals of lower levels. -/
  lower : Array Nat

namespace Resolvent

/-- Add a literal that is false, unless its variable was seen or fails in every
model. -/
def add (trail : Trail) (level : Nat) (resolvent : Resolvent) (code : Nat) : Resolvent :=
  let var := varOf code
  let assigned := trail.levelOf var
  if assigned = 0 || resolvent.seen.getD var false then resolvent
  else
    let seen := resolvent.seen.setIfInBounds var true
    let touched := resolvent.touched.push var
    if assigned = level then ⟨seen, touched, resolvent.pending + 1, resolvent.lower⟩
    else ⟨seen, touched, resolvent.pending, resolvent.lower.push code⟩

/-- Add the literals of a clause. A literal that the clause has forced was seen
before. -/
def addClause (clauses : Watched) (trail : Trail) (level address : Nat) (resolvent : Resolvent) :
    Resolvent :=
  clauses.fold address (add trail level) resolvent

/-- Walk back over the trail and replace each literal of the current level by the
clause that forced it, until one is left. The result has the literal that is left,
as it stands on the trail. -/
def reduce (clauses : Watched) (trail : Trail) (level : Nat) : Nat → Resolvent → Nat × Resolvent
  | 0, resolvent => (0, resolvent)
  | position + 1, resolvent =>
    let code := trail.codes.getD position 0
    let var := varOf code
    if !resolvent.seen.getD var false then reduce clauses trail level position resolvent
    else if resolvent.pending ≤ 1 then (code, resolvent)
    else
      let resolvent := { resolvent with pending := resolvent.pending - 1 }
      reduce clauses trail level position
        (addClause clauses trail level (trail.reasonOf var) resolvent)

/-- Whether a literal follows from other literals of the clause, so that it can be
left out. -/
def isRedundant (clauses : Watched) (trail : Trail) (seen : Array Bool) (code : Nat) : Bool :=
  let reason := trail.reasonOf (varOf code)
  reason ≠ 0 && clauses.fold reason
    (fun all other =>
      let var := varOf other
      all && (seen.getD var false || trail.levelOf var = 0))
    true

end Resolvent

/-- A clause that follows from the clauses and is false, with one literal of the
current level at its head, and the next highest level behind it. -/
structure Lesson where
  codes : Array Nat
  /-- The level on which the clause forces its first literal. -/
  level : Nat
  /-- The variables that took part. -/
  touched : Array Nat

namespace Lesson

/-- The position of a literal of the highest level, at or behind a position. -/
def highest (trail : Trail) (codes : Array Nat) : Nat → Nat → Nat → Nat
  | 0, _, best => best
  | count + 1, position, best =>
    let level := trail.levelOf (varOf (codes.getD position 0))
    let bestLevel := trail.levelOf (varOf (codes.getD best 0))
    highest trail codes count (position + 1) (if bestLevel < level then position else best)

/-- What follows from a false clause. Of the variables seen, none is left. -/
def ofConflict (clauses : Watched) (trail : Trail) (seen : Array Bool) (address : Nat) :
    Lesson × Array Bool :=
  let level := trail.level
  let start : Resolvent := ⟨seen, #[], 0, #[]⟩
  let resolvent := Resolvent.addClause clauses trail level address start
  match Resolvent.reduce clauses trail level trail.codes.size resolvent with
  | (code, ⟨seen, touched, _, lower⟩) =>
    let kept := lower.filter fun other => !Resolvent.isRedundant clauses trail seen other
    let seen := touched.foldl (fun seen var => seen.setIfInBounds var false) seen
    let position := highest trail kept kept.size 0 0
    let top := kept.getD position 0
    let codes := #[opposite code] ++ kept.swapIfInBounds 0 position
    let back := if kept.isEmpty then 0 else trail.levelOf (varOf top)
    (⟨codes, back, touched⟩, seen)

end Lesson

end Clausal.Search
