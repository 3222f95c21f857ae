import Mathlib
import Clausal.Proofs.Measure

/-!
# Expressions as trees

A stored expression unfolds to a finite tree, which says everything about the
expression that does not depend on where it is stored. Expressions of two
well-typed pools are alike if they unfold to the same tree. Their nodes are then
the same up to the names of operands (`Alike.node`), so in a single pool only
equal names are alike: that is `WellTyped.tree_injective`, the point of storing
every node once.
-/

namespace Clausal

/-- An expression with the names of its parts replaced by the parts. -/
inductive Tree where
  | var (ty : Ty) (name : String)
  | const (ty : Ty) (value : Value)
  | apply (op : Op) (operands : List Tree)
  deriving Repr, Inhabited

/-- The tree of a node, from the trees of its operands. -/
def Node.tree (node : Node) (operands : List Tree) : Tree :=
  match node.form with
  | .var name => .var node.ty name
  | .const value => .const node.ty value
  | .apply op _ => .apply op operands

namespace Pool

/-- The tree that a stored expression unfolds to. -/
def tree (pool : Pool) : ExprId → Tree :=
  pool.foldTree fun e operands =>
    match pool.node? e with
    | some node => node.tree operands
    | none => default

section Unfolding

variable {pool before after : Pool} {e : ExprId}

theorem tree_of_node? {node : Node} (stored : pool.node? e = some node) :
    pool.tree e = node.tree (node.operands.map pool.tree) := by
  unfold tree
  rw [foldTree_eq]
  simp only [stored, operands_of_node? stored]

theorem tree_var {ty : Ty} {name : String} (stored : pool.node? e = some ⟨ty, .var name⟩) :
    pool.tree e = .var ty name :=
  tree_of_node? stored

theorem tree_const {ty : Ty} {value : Value} (stored : pool.node? e = some ⟨ty, .const value⟩) :
    pool.tree e = .const ty value :=
  tree_of_node? stored

theorem tree_apply {ty : Ty} {op : Op} {operands : List ExprId}
    (stored : pool.node? e = some ⟨ty, .apply op operands⟩) :
    pool.tree e = .apply op (operands.map pool.tree) :=
  tree_of_node? stored

/-- A stored expression unfolds to the same tree in a later pool. -/
theorem Extends.tree_eq (extension : before.Extends after) (stored : before.Has e) :
    after.tree e = before.tree e := by
  induction stored using Has.induction with
  | step e node found inductionHypothesis =>
    rw [tree_of_node? found, tree_of_node? (extension found), List.map_congr_left inductionHypothesis]

end Unfolding

end Pool

/-- Two well-typed pools. -/
structure Pools where
  left : Pool
  right : Pool
  leftTyped : left.WellTyped
  rightTyped : right.WellTyped

namespace Pools

/-- Both pools have grown. -/
structure Extends (before after : Pools) : Prop where
  left : before.left.Extends after.left
  right : before.right.Extends after.right

/-- An expression of the left pool and one of the right pool unfold to the same
tree. -/
structure Alike (pools : Pools) (a b : ExprId) : Prop where
  left : pools.left.Has a
  right : pools.right.Has b
  tree_eq : pools.left.tree a = pools.right.tree b

/-- Two nodes are the same up to the names of their operands, which are alike. -/
inductive SameNode (pools : Pools) (a b : ExprId) : Prop where
  | var {ty : Ty} {name : String} (left : pools.left.node? a = some ⟨ty, .var name⟩)
      (right : pools.right.node? b = some ⟨ty, .var name⟩)
  | const {ty : Ty} {value : Value} (left : pools.left.node? a = some ⟨ty, .const value⟩)
      (right : pools.right.node? b = some ⟨ty, .const value⟩)
  | apply {ty : Ty} {op : Op} {xs ys : List ExprId}
      (left : pools.left.node? a = some ⟨ty, .apply op xs⟩)
      (right : pools.right.node? b = some ⟨ty, .apply op ys⟩)
      (each : List.Forall₂ pools.Alike xs ys)

variable {pools before after : Pools} {a b c d : ExprId} {xs ys : List ExprId}

instance : IsPreorder Pools Extends where
  refl pools := ⟨.refl pools.left, .refl pools.right⟩
  trans _ _ _ earlier later := ⟨earlier.left.trans later.left, earlier.right.trans later.right⟩

theorem forall₂_alike_iff :
    List.Forall₂ pools.Alike xs ys ↔
      (∀ x ∈ xs, pools.left.Has x) ∧ (∀ y ∈ ys, pools.right.Has y) ∧
        xs.map pools.left.tree = ys.map pools.right.tree := by
  constructor
  · intro each
    refine ⟨fun x member => ?_, fun y member => ?_, ?_⟩
    · obtain ⟨_, -, alike⟩ := exists_of_forall₂_of_mem each member
      exact alike.left
    · obtain ⟨_, -, alike⟩ := exists_of_forall₂_of_mem each.flip member
      exact alike.right
    · rw [← List.forall₂_eq_eq_eq, List.forall₂_map_left_iff, List.forall₂_map_right_iff]
      exact each.imp fun _ _ alike => alike.tree_eq
  · rintro ⟨left, right, same⟩
    rw [← List.forall₂_eq_eq_eq, List.forall₂_map_left_iff, List.forall₂_map_right_iff] at same
    induction same with
    | nil => exact .nil
    | cons first _ inductionHypothesis =>
      rw [List.forall_mem_cons] at left right
      exact .cons ⟨left.1, right.1, first⟩ (inductionHypothesis left.2 right.2)

namespace SameNode

theorem hasTy_iff (same : pools.SameNode a b) {ty : Ty} :
    pools.left.HasTy a ty ↔ pools.right.HasTy b ty := by
  cases same with
  | var left right | const left right | apply left right => simp [Pool.HasTy, left, right]

theorem alike (same : pools.SameNode a b) : pools.Alike a b := by
  cases same with
  | var left right =>
    exact ⟨Pool.has_iff.mpr ⟨_, left⟩, Pool.has_iff.mpr ⟨_, right⟩,
      (Pool.tree_var left).trans (Pool.tree_var right).symm⟩
  | const left right =>
    exact ⟨Pool.has_iff.mpr ⟨_, left⟩, Pool.has_iff.mpr ⟨_, right⟩,
      (Pool.tree_const left).trans (Pool.tree_const right).symm⟩
  | apply left right each =>
    refine ⟨Pool.has_iff.mpr ⟨_, left⟩, Pool.has_iff.mpr ⟨_, right⟩, ?_⟩
    rw [Pool.tree_apply left, Pool.tree_apply right, (forall₂_alike_iff.mp each).2.2]

end SameNode

namespace Alike

theorem mono (extension : before.Extends after) (alike : before.Alike a b) : after.Alike a b := by
  refine ⟨extension.left.has alike.left, extension.right.has alike.right, ?_⟩
  rw [extension.left.tree_eq alike.left, extension.right.tree_eq alike.right, alike.tree_eq]

/-- Alike expressions have the same node up to the names of operands. The types of
applications are not in the tree; they follow from those of the operands. -/
theorem node (alike : pools.Alike a b) : pools.SameNode a b := by
  obtain ⟨left, right, same⟩ := alike
  induction left using Pool.Has.induction generalizing b with
  | step a node found inductionHypothesis =>
    obtain ⟨other, otherFound⟩ := Pool.has_iff.mp right
    obtain ⟨ty, form⟩ := node
    obtain ⟨otherTy, otherForm⟩ := other
    rw [Pool.tree_of_node? found, Pool.tree_of_node? otherFound] at same
    cases form <;> cases otherForm <;> simp only [Node.tree, reduceCtorEq] at same
    case var.var =>
      cases same
      exact .var found otherFound
    case const.const =>
      cases same
      exact .const found otherFound
    case apply.apply op xs otherOp ys =>
      simp only [Tree.apply.injEq] at same
      obtain ⟨rfl, same⟩ := same
      have each : List.Forall₂ pools.Alike xs ys := forall₂_alike_iff.mpr
        ⟨fun _ => Pool.has_of_mem_operands found, fun _ => Pool.has_of_mem_operands otherFound, same⟩
      obtain ⟨types, hasTys, operator⟩ := (pools.leftTyped.fits found).typed
      obtain ⟨otherTypes, otherHasTys, otherOperator⟩ := (pools.rightTyped.fits otherFound).typed
      have sameTypes : List.Forall₂ pools.right.HasTy ys types := by
        refine forall₂_join each hasTys fun x member y ty alike hasTy => ?_
        exact (inductionHypothesis x member alike.right alike.tree_eq).hasTy_iff.mp hasTy
      obtain rfl : types = otherTypes := by
        rw [← List.forall₂_eq_eq_eq]
        exact forall₂_join sameTypes otherHasTys fun _ _ _ _ => Pool.HasTy.unique
      obtain rfl := operator.unique otherOperator
      exact .apply found otherFound each

theorem hasTy_iff (alike : pools.Alike a b) {ty : Ty} :
    pools.left.HasTy a ty ↔ pools.right.HasTy b ty :=
  alike.node.hasTy_iff

theorem flip (alike : pools.Alike a b) :
    Alike ⟨pools.right, pools.left, pools.rightTyped, pools.leftTyped⟩ b a :=
  ⟨alike.right, alike.left, alike.tree_eq.symm⟩

end Alike

end Pools

/-- In a well-typed pool an expression is determined by its tree. -/
theorem Pool.WellTyped.tree_injective {pool : Pool} (typed : pool.WellTyped) {a b : ExprId}
    (left : pool.Has a) (right : pool.Has b) (same : pool.tree a = pool.tree b) : a = b := by
  induction left using Pool.Has.induction generalizing b with
  | step a node found inductionHypothesis =>
    have alike : Pools.Alike ⟨pool, pool, typed, typed⟩ a b :=
      ⟨Pool.has_iff.mpr ⟨node, found⟩, right, same⟩
    suffices sameNode : pool.node? b = some node from
      congrArg ExprId.mk (typed.interned.distinct found sameNode)
    cases alike.node with
    | var nodeFound otherFound | const nodeFound otherFound =>
      exact otherFound.trans (nodeFound.symm.trans found)
    | apply nodeFound otherFound each =>
      obtain rfl := Option.some.inj (nodeFound.symm.trans found)
      have sameOperands : List.Forall₂ (· = ·) _ _ := forall₂_imp_of_mem each
        fun x member y alike => inductionHypothesis x member alike.right alike.tree_eq
      rw [List.forall₂_eq_eq_eq] at sameOperands
      exact sameOperands ▸ otherFound

namespace Pools

variable {pools : Pools} {a b c d : ExprId} {xs ys vs ws : List ExprId}

/-- Alike expressions correspond to each other one by one. -/
theorem biUnique_alike (pools : Pools) : Relator.BiUnique pools.Alike := by
  constructor
  · intro a b c first second
    exact pools.leftTyped.tree_injective first.left second.left (first.tree_eq.trans second.tree_eq.symm)
  · intro a b c first second
    exact pools.rightTyped.tree_injective first.right second.right
      (first.tree_eq.symm.trans second.tree_eq)

theorem Alike.eq_iff (first : pools.Alike a b) (second : pools.Alike c d) : a = c ↔ b = d :=
  Relator.rel_eq pools.biUnique_alike first second

theorem forall₂_mono {before after : Pools} (extension : before.Extends after)
    (each : List.Forall₂ before.Alike xs ys) : List.Forall₂ after.Alike xs ys :=
  each.imp fun _ _ => .mono extension

/-- Lists of alike expressions are equal on both sides or on none. -/
theorem list_eq_iff (first : List.Forall₂ pools.Alike xs ys) (second : List.Forall₂ pools.Alike vs ws) :
    xs = vs ↔ ys = ws :=
  Relator.rel_eq pools.biUnique_alike.forall₂ first second

namespace Alike

section Observations

variable (alike : pools.Alike a b)
include alike

theorem ty_eq : pools.left.ty a = pools.right.ty b := by
  obtain ⟨⟨ty, form⟩, found⟩ := Pool.has_iff.mp alike.left
  have hasTy : pools.left.HasTy a ty := ⟨form, found⟩
  rw [Pool.ty_eq_ok_iff.mpr hasTy, Pool.ty_eq_ok_iff.mpr (alike.hasTy_iff.mp hasTy)]

theorem operands : List.Forall₂ pools.Alike (pools.left.operands a) (pools.right.operands b) := by
  cases alike.node with
  | var left right | const left right =>
    rw [Pool.operands_of_node? left, Pool.operands_of_node? right]
    exact .nil
  | apply left right each =>
    rw [Pool.operands_of_node? left, Pool.operands_of_node? right]
    exact each

theorem variableName?_eq : pools.left.variableName? a = pools.right.variableName? b := by
  cases alike.node with
  | var left right | const left right | apply left right => simp [Pool.variableName?, left, right]

theorem isVariable_eq : pools.left.isVariable a = pools.right.isVariable b := by
  rw [Pool.isVariable, Pool.isVariable, alike.variableName?_eq]

end Observations

end Alike

end Pools

end Clausal
