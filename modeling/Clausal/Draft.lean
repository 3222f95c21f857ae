import Clausal.Pool.Build

/-!
# Drafts

A draft is an expression that is not stored yet: known expressions and new
constants under new applications. Rules return drafts, so that what a rule says
is a pure function of a pool; `Draft.build` stores the parts of a draft from
left to right, operands before the application.
-/

namespace Clausal

/-- An expression in the making. -/
inductive Draft where
  /-- An expression that is stored. -/
  | known (e : ExprId)
  /-- A constant of a type. -/
  | const (ty : Ty) (value : Value)
  /-- A word constant of a width. -/
  | word (width number : Nat)
  /-- A new application. -/
  | apply (op : Op) (operands : List Draft)
  deriving Repr, Inhabited

namespace Draft

/-- A boolean constant. -/
def truth (value : Bool) : Draft :=
  .const .bool (.bool value)

/-- The negation of a stored expression. -/
def negation (e : ExprId) : Draft :=
  .apply .not [.known e]

/-- An operator on stored expressions. -/
def ofKnown (op : Op) (operands : List ExprId) : Draft :=
  .apply op (operands.map .known)

mutual

/-- Store the parts of a draft and return the name of the whole. -/
def build : Draft → Build ExprId
  | .known e => pure e
  | .const ty value => Build.const ty value
  | .word width number => Build.word width number
  | .apply op operands => do
    let built ← buildAfter [] operands
    Build.apply op built

/-- Store drafts from left to right, behind those that were stored, the latest
first. -/
def buildAfter (stored : List ExprId) : List Draft → Build (List ExprId)
  | [] => pure stored.reverse
  | draft :: drafts => do
    let e ← build draft
    buildAfter (e :: stored) drafts

end

/-- Store a draft, if there is one. -/
def build? : Option Draft → Build (Option ExprId)
  | none => pure none
  | some draft => do
    let e ← draft.build
    return some e

end Draft

end Clausal
