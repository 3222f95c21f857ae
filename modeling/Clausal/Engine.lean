import Clausal.Cnf

/-!
# Engines

An engine decides formulas. It is given a formula and returns a model, nothing
if there is none, or the reason for which it gave up. A model lists the truth
of the variables and has an unused entry at zero.

The engines here are the ones that do not look at the formula. Those that do are
in `Clausal.Engine.Search`; they are there to run problems. What is proved about
solving is proved for every engine that decides the formulas it is given
(`Engine.Decides`), and the engine that tries all assignments is one
(`Engine.exhaustive_decides`).
-/

namespace Clausal

/-- A decision procedure for formulas. -/
abbrev Engine := Cnf → Except (Failure String) (Option (Array Bool))

namespace Engine

/-- The engine that finds no model. -/
def refuting : Engine := fun _ =>
  .ok none

/-- The engine that always returns one model. -/
def constant (model : Array Bool) : Engine := fun _ =>
  .ok (some model)

/-- The engine that always gives up. -/
def failing (reason : String) : Engine := fun _ =>
  .error (.error reason)

end Engine

end Clausal
