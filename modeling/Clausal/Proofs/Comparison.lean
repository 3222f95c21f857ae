import Mathlib
import Clausal.Proofs.Ordering
import Clausal.Proofs.Uses

/-!
# Comparison of stored expressions

In a well-typed pool the comparison of expressions is a total order of their trees, in
which only an expression itself has its place. Trees are all that it looks at: variables
are compared by name alone, which says enough because a name is declared with one type,
and the type of an application follows from its operands.
-/

namespace Clausal

namespace Pool

variable {pool : Pool} {a b c : ExprId}

theorem compare_self (pool : Pool) (a : ExprId) : pool.compare a a = .eq := by
  rw [compare, if_pos rfl]

theorem compare_swap (left : pool.Has a) (right : pool.Has b) :
    pool.compare b a = (pool.compare a b).swap := by
  rw [compare_eq_compare_tree left right, compare_eq_compare_tree right left]
  exact (Tree.ordered _).swap _

/-- Comparisons of which none goes the other way are chained. -/
theorem compare_trans (first : pool.Has a) (second : pool.Has b) (third : pool.Has c)
    (inOrder : (pool.compare a b).isLE) (further : (pool.compare b c).isLE) :
    pool.compare a c = (pool.compare a b).then (pool.compare b c) := by
  rw [Ordering.isLE_iff_ne_gt] at inOrder further
  rw [compare_eq_compare_tree first second] at inOrder ⊢
  rw [compare_eq_compare_tree second third] at further ⊢
  rw [compare_eq_compare_tree first third]
  exact (Tree.ordered _).trans _ _ inOrder further

/-- Only an expression itself has its place in the order. -/
theorem WellTyped.compare_eq_iff (typed : pool.WellTyped) (left : pool.Has a) (right : pool.Has b) :
    pool.compare a b = .eq ↔ a = b := by
  constructor
  · intro same
    obtain ⟨types, declared⟩ := typed.exists_declared
    rw [compare_eq_compare_tree left right] at same
    exact typed.tree_injective left right (Tree.eq_of_compare (declared a left) (declared b right) same)
  · rintro rfl
    exact compare_self pool a

end Pool

namespace Workspace

/-- Whatever a workspace was used for, comparison is a total order of its expressions that
tells different expressions apart, and it is the same in every other workspace that has
the trees of the two expressions. -/
theorem Used.compare_orders {workspace : Workspace PassMemory} (used : workspace.Used) :
    (∀ a, workspace.pool.compare a a = .eq) ∧
    (∀ a b, workspace.pool.Has a → workspace.pool.Has b →
      workspace.pool.compare b a = (workspace.pool.compare a b).swap) ∧
    (∀ a b c, workspace.pool.Has a → workspace.pool.Has b → workspace.pool.Has c →
      (workspace.pool.compare a b).isLE → (workspace.pool.compare b c).isLE →
        workspace.pool.compare a c = (workspace.pool.compare a b).then (workspace.pool.compare b c)) ∧
    (∀ a b, workspace.pool.Has a → workspace.pool.Has b →
      (workspace.pool.compare a b = .eq ↔ a = b)) ∧
    ∀ (other : Workspace PassMemory) a b x y,
      workspace.pool.Has a → workspace.pool.Has b → other.pool.Has x → other.pool.Has y →
      workspace.pool.tree a = other.pool.tree x → workspace.pool.tree b = other.pool.tree y →
        workspace.pool.compare a b = other.pool.compare x y := by
  refine ⟨Pool.compare_self workspace.pool, fun a b => Pool.compare_swap, fun a b c => Pool.compare_trans,
    fun a b => used.coherent.typed.compare_eq_iff, ?trees⟩
  intro other a b x y leftStored rightStored otherLeftStored otherRightStored left right
  rw [Pool.compare_eq_compare_tree leftStored rightStored, left, right,
    Pool.compare_eq_compare_tree otherLeftStored otherRightStored]

/-- True comes behind false, whatever the number of buckets and the keys of leaves are. -/
theorem compare_orders_constants :
    ∃ (workspace other : Workspace PassMemory) (yes no x y : ExprId),
      Evolves ⟨.empty 0 fun _ => 0, ∅⟩ workspace ∧ Evolves ⟨.empty 3, ∅⟩ other ∧
      workspace.pool.compare yes no = .gt ∧ workspace.pool.compare no yes = .lt ∧
        other.pool.compare x y = .gt := by
  obtain ⟨workspace, yes, no, both, evolves, yesFound, noFound, -⟩ :=
    exists_evolved_conjunction 0 fun _ => 0
  obtain ⟨other, x, y, -, otherEvolves, xFound, yFound, -⟩ := exists_evolved_conjunction 3 hash
  have yesStored : workspace.pool.Has yes := Pool.has_iff.mpr ⟨_, yesFound⟩
  have noStored : workspace.pool.Has no := Pool.has_iff.mpr ⟨_, noFound⟩
  have used : workspace.Used := Evolved.used ⟨0, _, evolves⟩
  obtain ⟨-, swap, -, -, trees⟩ := used.compare_orders
  have greater : workspace.pool.compare yes no = .gt := by
    rw [Pool.compare_eq_compare_tree yesStored noStored, Pool.tree_const yesFound, Pool.tree_const noFound,
      Tree.compare]
    rfl
  have same := trees other yes no x y yesStored noStored (Pool.has_iff.mpr ⟨_, xFound⟩)
    (Pool.has_iff.mpr ⟨_, yFound⟩) (by rw [Pool.tree_const yesFound, Pool.tree_const xFound])
    (by rw [Pool.tree_const noFound, Pool.tree_const yFound])
  refine ⟨workspace, other, yes, no, x, y, evolves, otherEvolves, greater, ?_, same.symm.trans greater⟩
  rw [swap yes no yesStored noStored, greater]
  rfl

end Workspace

end Clausal
