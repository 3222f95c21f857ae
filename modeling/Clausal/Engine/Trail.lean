import Clausal.Engine

/-!
# Trails

A trail lists the literals that a search has made true, in the order in which
this happened. A literal is either decided, which starts a new level, or forced
by a clause whose other literals are false. Literals on level zero hold in every
model.

Literals are coded as numbers, so that what is known about them is read from
arrays.

Trails are a part of `Clausal.Engine.Search`, about which nothing is proved.
-/

namespace Clausal.Search

/-- The code of a literal: twice its variable, and one more if it is negative. -/
def codeOf (lit : Int) : Nat :=
  2 * lit.natAbs + if lit < 0 then 1 else 0

/-- The variable of a coded literal. -/
def varOf (code : Nat) : Nat :=
  code / 2

/-- The code of the negated literal. -/
def opposite (code : Nat) : Nat :=
  Nat.xor code 1

/-- What is known about a literal. -/
inductive Mark where
  | unknown
  | holds
  | fails
  deriving DecidableEq, Repr

/-- The true literals of a search in order, with what is known about each literal
and each variable. -/
structure Trail where
  /-- What is known about the literals, by code. -/
  marks : Array Mark
  /-- The levels on which variables were assigned. -/
  levels : Array Nat
  /-- The addresses of the clauses that forced variables, zero for decisions. -/
  reasons : Array Nat
  /-- The codes of the true literals, the oldest first. -/
  codes : Array Nat
  /-- The number of true literals in front of each decision. -/
  limits : Array Nat
  /-- The number of true literals whose consequences were looked at. -/
  head : Nat

namespace Trail

/-- A trail without literals, for variables below `size`. -/
def empty (size : Nat) : Trail where
  marks := Array.replicate (2 * size) .unknown
  levels := Array.replicate size 0
  reasons := Array.replicate size 0
  codes := #[]
  limits := #[]
  head := 0

/-- What is known about a literal. -/
@[inline] def mark (trail : Trail) (code : Nat) : Mark :=
  trail.marks.getD code .unknown

/-- Whether a variable is assigned. -/
@[inline] def isAssigned (trail : Trail) (var : Nat) : Bool :=
  match trail.mark (2 * var) with
  | .unknown => false
  | _ => true

/-- The level on which a variable was assigned. -/
@[inline] def levelOf (trail : Trail) (var : Nat) : Nat :=
  trail.levels.getD var 0

/-- The clause that forced a variable, zero if the variable was decided. -/
@[inline] def reasonOf (trail : Trail) (var : Nat) : Nat :=
  trail.reasons.getD var 0

/-- The current level: the number of decisions. -/
@[inline] def level (trail : Trail) : Nat :=
  trail.limits.size

/-- Make a literal true on the current level. -/
def push (trail : Trail) (code reason : Nat) : Trail :=
  let level := trail.limits.size
  let var := varOf code
  { trail with
    marks := (trail.marks.setIfInBounds code .holds).setIfInBounds (opposite code) .fails
    levels := trail.levels.setIfInBounds var level
    reasons := trail.reasons.setIfInBounds var reason
    codes := trail.codes.push code }

/-- Start a new level with a decided literal. -/
def pushDecision (trail : Trail) (code : Nat) : Trail :=
  let count := trail.codes.size
  let trail := { trail with limits := trail.limits.push count }
  trail.push code 0

/-- Take back the newest literal. -/
def pop (trail : Trail) : Trail :=
  let code := trail.codes.getD (trail.codes.size - 1) 0
  { trail with
    marks := (trail.marks.setIfInBounds code .unknown).setIfInBounds (opposite code) .unknown
    codes := trail.codes.pop }

/-- Forget the decisions above a level, after their literals were taken back. -/
def lowerTo (trail : Trail) (level : Nat) : Trail :=
  let count := trail.codes.size
  { trail with limits := trail.limits.shrink level, head := count }

end Trail

end Clausal.Search
