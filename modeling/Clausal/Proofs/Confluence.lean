import Mathlib
import Clausal.Proofs.Evolution

/-!
# Canonical forms

`Tree.Permutes` is one permutation of the operands of a commutative operator
somewhere in a tree, and `Tree.Rearranges` any number of them. `Tree.canonical`
sorts the operands of commutative operators everywhere. Trees that are
rearrangements of each other have the same canonical tree, and canonicalization
returns a rearrangement that is its own canonical tree. So it decides whether one
expression is a rearrangement of another.
-/

namespace Clausal

/-- The operators whose operands may change places. -/
inductive Op.Commutes : Op → Prop where
  | and : Commutes .and
  | or : Commutes .or
  | clause : Commutes .clause
  | xor : Commutes .xor
  | eq : Commutes .eq
  | add (width : Nat) : Commutes (.add width)
  | mul (width : Nat) : Commutes (.mul width)

theorem Op.isCommutative_iff {op : Op} : op.isCommutative ↔ op.Commutes := by
  constructor
  · intro commutative
    cases op with
    | and => exact .and
    | or => exact .or
    | clause => exact .clause
    | xor => exact .xor
    | eq => exact .eq
    | add width => exact .add width
    | mul width => exact .mul width
    | not | implies | ite | bit | bits | tuple | field => simp [isCommutative] at commutative
  · intro commutes
    cases commutes <;> rfl

namespace Tree

variable {types : String → Ty} {s t : Tree} {op : Op} {xs ys : List Tree}

/-- The operands of a commutative operator somewhere in a tree change places. -/
inductive Permutes : Tree → Tree → Prop where
  | here {op : Op} {xs ys : List Tree} (commutes : op.Commutes) (perm : xs.Perm ys) :
      Permutes (.apply op xs) (.apply op ys)
  | inside {op : Op} {front rest : List Tree} {x y : Tree} (step : Permutes x y) :
      Permutes (.apply op (front ++ x :: rest)) (.apply op (front ++ y :: rest))

/-- A tree is obtained from another one by permuting operands of commutative
operators. -/
def Rearranges : Tree → Tree → Prop :=
  Relation.ReflTransGen Permutes

/-- A tree with the operands of commutative operators in structural order. -/
def canonical : Tree → Tree
  | .var ty name => .var ty name
  | .const ty value => .const ty value
  | .apply op operands =>
    let new := operands.attach.map fun operand => canonical operand.1
    .apply op (if op.isCommutative then sorted new else new)
termination_by tree => sizeOf tree
decreasing_by
  have smaller := List.sizeOf_lt_of_mem operand.2
  simp only [Tree.apply.sizeOf_spec]
  omega

theorem canonical_apply :
    canonical (.apply op xs) =
      .apply op (if op.isCommutative then sorted (xs.map canonical) else xs.map canonical) := by
  rw [canonical, List.attach_map_val]

section Rearrangement

theorem Permutes.symm (step : s.Permutes t) : t.Permutes s := by
  induction step with
  | here commutes perm => exact .here commutes perm.symm
  | inside _ inductionHypothesis => exact .inside inductionHypothesis

theorem Rearranges.symm (rearranges : s.Rearranges t) : t.Rearranges s := by
  induction rearranges with
  | refl => exact .refl
  | tail _ step inductionHypothesis => exact .head step.symm inductionHypothesis

theorem Rearranges.inside {front rest : List Tree} (rearranges : s.Rearranges t) :
    Rearranges (.apply op (front ++ s :: rest)) (.apply op (front ++ t :: rest)) := by
  induction rearranges with
  | refl => exact .refl
  | tail _ step inductionHypothesis => exact .tail inductionHypothesis (.inside step)

/-- Operands are rearranged one after the other. -/
theorem rearranges_apply (each : List.Forall₂ Rearranges xs ys) (front : List Tree) :
    Rearranges (.apply op (front ++ xs)) (.apply op (front ++ ys)) := by
  induction each generalizing front with
  | nil => exact .refl
  | @cons x y xs ys first _ inductionHypothesis =>
    have rest := inductionHypothesis (front ++ [y])
    rw [List.append_assoc, List.append_assoc] at rest
    exact first.inside.trans rest

end Rearrangement

section Form

theorem Declared.permutes (declared : s.Declared types) (step : s.Permutes t) : t.Declared types := by
  induction step with
  | here _ perm =>
    cases declared with
    | apply each => exact .apply fun operand member => each operand (perm.mem_iff.mpr member)
  | @inside op front rest x y _ inductionHypothesis =>
    cases declared with
    | apply each =>
      refine .apply fun operand member => ?_
      rcases List.mem_append.mp member with inFront | inRest
      · exact each operand (List.mem_append_left _ inFront)
      · rcases List.mem_cons.mp inRest with rfl | inRest
        · exact inductionHypothesis (each x (by simp))
        · exact each operand (by simp [inRest])

theorem Declared.canonical (declared : s.Declared types) : s.canonical.Declared types := by
  induction declared with
  | var =>
    rw [Tree.canonical]
    exact .var
  | const =>
    rw [Tree.canonical]
    exact .const
  | @apply op operands _ inductionHypothesis =>
    rw [canonical_apply]
    refine .apply fun tree member => ?_
    have mapped : tree ∈ operands.map Tree.canonical := by
      split at member
      · exact List.mem_mergeSort.mp member
      · exact member
    obtain ⟨operand, operandMember, rfl⟩ := List.mem_map.mp mapped
    exact inductionHypothesis operand operandMember

/-- A permutation of operands does not change the canonical tree. -/
theorem Permutes.canonical_eq (step : s.Permutes t) (declared : s.Declared types) :
    s.canonical = t.canonical := by
  induction step with
  | @here op xs ys commutes perm =>
    have commutative := Op.isCommutative_iff.mpr commutes
    cases declared with
    | apply each =>
      have mapped : ∀ tree ∈ xs.map canonical, tree.Declared types := by
        intro tree member
        obtain ⟨operand, operandMember, rfl⟩ := List.mem_map.mp member
        exact (each operand operandMember).canonical
      rw [canonical_apply, canonical_apply, if_pos commutative, if_pos commutative,
        sorted_eq_of_perm mapped (perm.map canonical)]
  | @inside op front rest x y _ inductionHypothesis =>
    cases declared with
    | apply each =>
      have same := inductionHypothesis (each x (by simp))
      rw [canonical_apply, canonical_apply, List.map_append, List.map_append, List.map_cons,
        List.map_cons, same]

theorem Rearranges.canonical_eq (rearranges : s.Rearranges t) (declared : s.Declared types) :
    s.canonical = t.canonical ∧ t.Declared types := by
  induction rearranges with
  | refl => exact ⟨rfl, declared⟩
  | tail _ step inductionHypothesis =>
    exact ⟨inductionHypothesis.1.trans (step.canonical_eq inductionHypothesis.2),
      inductionHypothesis.2.permutes step⟩

end Form

end Tree

namespace Pool

variable {pool : Pool} {e r : ExprId}

/-- What is reordered in a pool is a rearrangement. -/
theorem Reordered.rearranges (reordered : pool.Reordered e r) :
    (pool.tree e).Rearranges (pool.tree r) := by
  induction reordered with
  | leaf => exact .refl
  | @apply e r ty op operands new sorted stored result length_eq _ perm ordered inductionHypothesis =>
    rw [tree_apply stored, tree_apply result]
    have each : List.Forall₂ Tree.Rearranges (operands.map pool.tree) (new.map pool.tree) := by
      rw [List.forall₂_map_left_iff, List.forall₂_map_right_iff]
      exact forall₂_iff_getElem?.mpr ⟨length_eq, fun _ _ _ => inductionHypothesis⟩
    refine (Tree.rearranges_apply each []).trans ?_
    by_cases commutative : op.isCommutative
    · exact .single (.here (Op.isCommutative_iff.mp commutative) (perm.symm.map pool.tree))
    · rw [ordered commutative]
      exact .refl

/-- An expression with all operands in order has a canonical tree. -/
theorem Canonical.canonical_tree (canonical : pool.Canonical e) (stored : pool.Has e) :
    (pool.tree e).canonical = pool.tree e := by
  induction stored using Has.induction with
  | step e node found inductionHypothesis =>
    obtain ⟨ty, form⟩ := node
    cases form with
    | var name => rw [tree_var found, Tree.canonical]
    | const value => rw [tree_const found, Tree.canonical]
    | apply op operands =>
      obtain ⟨inOrder, each⟩ := (everywhere_apply found).mp canonical
      have operandsStored : ∀ operand ∈ operands, pool.Has operand :=
        fun operand member => has_of_mem_operands found member
      have below : (operands.map pool.tree).map Tree.canonical = operands.map pool.tree := by
        rw [List.map_map]
        exact List.map_congr_left fun operand member =>
          inductionHypothesis operand member (each operand member)
      rw [tree_apply found, Tree.canonical_apply, below]
      split
      · rename_i commutative
        rw [← map_tree_sorted operandsStored, inOrder commutative]
      · rfl

end Pool

namespace Workspace

variable {workspace : Workspace PassMemory} {e x : ExprId}

/-- Canonicalization returns the same handle for two expressions exactly if one is
obtained from the other by permuting operands of commutative operators. -/
theorem Evolved.canonicalize_eq_iff (evolved : workspace.Evolved) (left : workspace.pool.Has e)
    (right : workspace.pool.Has x) :
    ∃ r middle s after, Pass.run .canonicalize e workspace = .ok r middle ∧
      Pass.run .canonicalize x middle = .ok s after ∧
        (r = s ↔ (workspace.pool.tree e).Rearranges (workspace.pool.tree x)) := by
  have coherent := evolved.coherent
  obtain ⟨r, middle, ended, toMiddle, result⟩ := (Pass.canonicalize_yields coherent left).exists_ok
  have middleCoherent := toMiddle.coherent coherent
  obtain ⟨s, after, otherEnded, toAfter, other⟩ :=
    (Pass.canonicalize_yields middleCoherent (toMiddle.extension.has right)).exists_ok
  have extension := toMiddle.extension.trans toAfter.extension
  have typed := (toAfter.coherent middleCoherent).typed
  refine ⟨r, middle, s, after, ended, otherEnded, ?_⟩
  rw [← extension.tree_eq left, ← extension.tree_eq right]
  replace result := result.mono toAfter.extension
  have toResult := Pool.Reordered.rearranges result.settles
  have toOther := Pool.Reordered.rearranges other.settles
  constructor
  · rintro rfl
    exact toResult.trans toOther.symm
  · intro rearranges
    obtain ⟨types, declared⟩ := typed.exists_declared
    have resultStored := result.refines.has_right
    have otherStored := other.refines.has_right
    refine typed.tree_injective resultStored otherStored ?_
    calc after.pool.tree r
      _ = (after.pool.tree r).canonical := ((result.inOrder rfl).canonical_tree resultStored).symm
      _ = (after.pool.tree e).canonical :=
        (toResult.canonical_eq (declared e (extension.has left))).1.symm
      _ = (after.pool.tree x).canonical := (rearranges.canonical_eq (declared e (extension.has left))).1
      _ = (after.pool.tree s).canonical := (toOther.canonical_eq (declared x (extension.has right))).1
      _ = after.pool.tree s := (other.inOrder rfl).canonical_tree otherStored

/-- A conjunction and the same one with its operands swapped become one. -/
theorem canonicalize_eq_swapped :
    ∃ (workspace : Workspace PassMemory) (yes no both swapped r : ExprId)
      (middle after : Workspace PassMemory), workspace.Evolved ∧
      workspace.pool.node? both = some ⟨.bool, .apply .and [yes, no]⟩ ∧
      workspace.pool.node? swapped = some ⟨.bool, .apply .and [no, yes]⟩ ∧ yes ≠ no ∧
      Pass.run .canonicalize both workspace = .ok r middle ∧
        Pass.run .canonicalize swapped middle = .ok r after := by
  obtain ⟨first, yes, no, both, evolves, yesStored, noStored, bothStored⟩ :=
    exists_evolved_conjunction 0 fun _ => 0
  have firstEvolved : first.Evolved := ⟨0, _, evolves⟩
  have applies : first.pool.Applies .and [no, yes] .bool :=
    ⟨⟨[.bool, .bool], .cons ⟨_, noStored⟩ (.cons ⟨_, yesStored⟩ .nil), .and (by simp) (by simp)⟩,
      by simp⟩
  obtain ⟨workspace, swapped, evolved, toLast, swappedStored⟩ :=
    firstEvolved.exists_built (.step (.apply .and [no, yes])) (Build.apply_yields applies)
  have extension := firstEvolved.extension toLast
  have differ : yes ≠ no := by
    rintro rfl
    rw [yesStored] at noStored
    simp at noStored
  obtain ⟨r, middle, s, after, ended, otherEnded, same⟩ := evolved.canonicalize_eq_iff
    (Pool.has_iff.mpr ⟨_, extension bothStored⟩) (Pool.has_iff.mpr ⟨_, swappedStored⟩)
  have isSame : r = s := by
    rw [same, Pool.tree_apply (extension bothStored), Pool.tree_apply swappedStored]
    exact .single (.here .and (.swap _ _ _))
  exact ⟨workspace, yes, no, both, swapped, r, middle, after, evolved, extension bothStored,
    swappedStored, differ, ended, isSame ▸ otherEnded⟩

end Workspace

end Clausal
