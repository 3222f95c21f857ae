import Mathlib
import Clausal.Session
import Clausal.Proofs.Measure

/-!
# Conditions on all applications in an expression

`Pool.Everywhere` demands something of every application that occurs in an
expression. A `Grammar` is a demand that lasts when operands are replaced by
expressions of the same types: it says which operators may occur, and what each
of them may stand in front of. `Pool.Plain` is the grammar of the expressions
that lowering takes, where equality is only between booleans.
-/

namespace Clausal

namespace Pool

variable {pool before after : Pool} {e : ExprId} {ty : Ty} {op : Op} {operands : List ExprId}
  {holds later : Op → List ExprId → Prop}

/-- A condition holds of every application that occurs in an expression. -/
def Everywhere (pool : Pool) (holds : Op → List ExprId → Prop) (e : ExprId) : Prop :=
  ∀ ⦃x : ExprId⦄, pool.Reaches e x → ∀ op ∈ pool.op? x, holds op (pool.operands x)

/-- What occurs in an expression is the expression and what occurs in its
operands. -/
theorem everywhere_iff :
    pool.Everywhere holds e ↔ (∀ op ∈ pool.op? e, holds op (pool.operands e)) ∧
      ∀ operand ∈ pool.operands e, pool.Everywhere holds operand := by
  constructor
  · intro everywhere
    exact ⟨everywhere .refl, fun operand member x reaches => everywhere (.head member reaches)⟩
  · rintro ⟨top, below⟩ x reaches
    rcases Relation.ReflTransGen.cases_head reaches with rfl | ⟨operand, member, further⟩
    · exact top
    · exact below operand member further

/-- No application occurs in a leaf. -/
theorem everywhere_leaf (leaf : pool.op? e = none) : pool.Everywhere holds e := by
  rw [everywhere_iff]
  simp [leaf, operands_of_op?_eq_none leaf]

/-- What occurs in an application is the application and what occurs in its
operands. -/
theorem everywhere_apply (stored : pool.node? e = some ⟨ty, .apply op operands⟩) :
    pool.Everywhere holds e ↔
      holds op operands ∧ ∀ operand ∈ operands, pool.Everywhere holds operand := by
  rw [everywhere_iff]
  simp [op?_of_apply stored, operands_of_node? stored]

namespace Everywhere

theorem operand {x : ExprId} (everywhere : pool.Everywhere holds e) (member : x ∈ pool.operands e) :
    pool.Everywhere holds x :=
  fun _ reaches => everywhere (.head member reaches)

theorem of_reaches {x : ExprId} (everywhere : pool.Everywhere holds e) (reaches : pool.Reaches e x) :
    pool.Everywhere holds x :=
  fun _ further => everywhere (reaches.trans further)

end Everywhere

/-- A condition that does not change on the nodes of an earlier pool holds of the
same expressions there and in a later pool. -/
theorem Extends.everywhere_iff (extension : before.Extends after) (stored : before.Has e)
    (same : ∀ {op : Op} {operands : List ExprId}, (∀ operand ∈ operands, before.Has operand) →
      (later op operands ↔ holds op operands)) :
    after.Everywhere later e ↔ before.Everywhere holds e := by
  induction stored using Has.induction with
  | step e node found inductionHypothesis =>
    obtain ⟨ty, form⟩ := node
    cases form with
    | var name | const value =>
      refine iff_of_true (everywhere_leaf ?_) (everywhere_leaf ?_)
      · simp [op?, extension found, Node.op?]
      · simp [op?, found, Node.op?]
    | apply op operands =>
      have operandsStored : ∀ operand ∈ operands, before.Has operand :=
        fun operand member => has_of_mem_operands found member
      rw [everywhere_apply found, everywhere_apply (extension found), same operandsStored]
      exact and_congr_right fun _ => forall₂_congr inductionHypothesis

/-- An expression has the type of another one, and is the same if that is a
selection from a variable. -/
structure Resembles (pool : Pool) (e new : ExprId) : Prop where
  hasTy : ∀ {ty : Ty}, pool.HasTy e ty → pool.HasTy new ty
  selects : pool.Selects e → new = e

end Pool

/-- The operators that may occur in an expression, and what they may be applied
to. The latter depends on the pool, but not on what is added to it later. -/
structure Grammar where
  operator : Op → Prop
  operand : Pool → Op → ExprId → Prop
  stable : ∀ {before after : Pool} {op : Op} {e : ExprId}, before.Extends after → before.Has e →
    (operand after op e ↔ operand before op e)
  replaced : ∀ {pool : Pool} {op : Op} {e new : ExprId}, pool.Resembles e new →
    operand pool op e → operand pool op new

namespace Grammar

variable {grammar : Grammar} {pool before after : Pool} {op : Op} {operands new : List ExprId}

/-- An operator may occur on operands. -/
def Allows (grammar : Grammar) (pool : Pool) (op : Op) (operands : List ExprId) : Prop :=
  grammar.operator op ∧ ∀ operand ∈ operands, grammar.operand pool op operand

/-- Where an operator may occur, the operators that it brings in may occur on any
operands. -/
def Closed (grammar : Grammar) (brings : Op → List Op) : Prop :=
  ∀ ⦃op : Op⦄, grammar.operator op → ∀ new ∈ brings op,
    grammar.operator new ∧ ∀ pool e, grammar.operand pool new e

theorem allows_iff_of_extends (extension : before.Extends after)
    (stored : ∀ operand ∈ operands, before.Has operand) :
    grammar.Allows after op operands ↔ grammar.Allows before op operands :=
  and_congr_right fun _ => forall₂_congr fun operand member =>
    grammar.stable extension (stored operand member)

/-- Operands may be replaced by expressions that resemble them. -/
theorem Allows.replaced (allows : grammar.Allows pool op operands)
    (each : List.Forall₂ pool.Resembles operands new) : grammar.Allows pool op new := by
  refine ⟨allows.1, fun result member => ?_⟩
  obtain ⟨operand, operandMember, resembles⟩ := exists_of_forall₂_of_mem each.flip member
  exact grammar.replaced resembles (allows.2 operand operandMember)

/-- The operators that lowering has clauses for, with equality between booleans
only. -/
def plain : Grammar where
  operator op := Lower.supports op
  operand pool op e := op = .eq → pool.HasTy e .bool
  stable extension stored := imp_congr_right fun _ => extension.hasTy_iff stored
  replaced resembles isBool isEq := resembles.hasTy (isBool isEq)

theorem plain_allows (supported : Lower.supports op) (notEq : op ≠ .eq) :
    plain.Allows pool op operands :=
  ⟨supported, fun _ _ isEq => absurd isEq notEq⟩

end Grammar

namespace Pool

variable {grammar : Grammar} {pool before after : Pool} {e : ExprId}

/-- All applications in an expression are as a grammar allows. -/
abbrev Follows (pool : Pool) (grammar : Grammar) (e : ExprId) : Prop :=
  pool.Everywhere (grammar.Allows pool) e

theorem Extends.follows_iff (extension : before.Extends after) (stored : before.Has e) :
    after.Follows grammar e ↔ before.Follows grammar e :=
  extension.everywhere_iff stored fun operandsStored =>
    Grammar.allows_iff_of_extends extension operandsStored

/-- Lowering has clauses for every operator that occurs in an expression, and
equalities in it are between booleans. -/
abbrev Plain (pool : Pool) (e : ExprId) : Prop :=
  pool.Follows .plain e

end Pool

end Clausal
