import Mathlib
import Clausal.Rules.Canonical
import Clausal.Proofs.JunctionRules

/-!
# Canonical operand order

The operands of a commutative operator may be sorted: the operator applies to
them in any order and has the same value.
-/

namespace Clausal.Rules

variable {pool : Pool} {op : Op} {operands sortedOperands : List ExprId} {ty : Ty} {draft : Draft}

theorem sorted_perm (pool : Pool) (operands : List ExprId) : (sorted pool operands).Perm operands :=
  List.mergeSort_perm _ _

section Pair

variable {types : List Ty} (commutative : op.isCommutative) (notJunction : ¬ IsJunction op)
  (operator : op.Types types ty)
include commutative notJunction operator

/-- A commutative operator that is not a junction has two operands, in any
order. -/
theorem types_swap : ∃ left right, types = [left, right] ∧ op.Types [right, left] ty := by
  cases operator with
  | and | or | clause => exact absurd (by simp [IsJunction]) notJunction
  | not | implies | ite | bit | bits | tuple | field => cases commutative
  | xor => exact ⟨_, _, rfl, .xor⟩
  | eq operandTy => exact ⟨_, _, rfl, .eq operandTy⟩
  | add positive left right => exact ⟨_, _, rfl, .add positive right left⟩
  | mul positive left right => exact ⟨_, _, rfl, .mul positive right left⟩

/-- The value of such an operator does not depend on the order. -/
theorem eval_swap {x y : Value}
    (admitted : List.Forall₂ (fun ty value => ty.admits value) types [x, y]) :
    op.eval [y, x] = op.eval [x, y] := by
  cases operator with
  | and | or | clause => exact absurd (by simp [IsJunction]) notJunction
  | not | implies | ite | bit | bits | tuple | field => cases commutative
  | xor =>
    obtain ⟨_, _, left, right, same⟩ := forall₂_two.mp admitted
    cases same
    obtain ⟨x, rfl⟩ := Ty.admits_bool_iff.mp left
    obtain ⟨y, rfl⟩ := Ty.admits_bool_iff.mp right
    cases x <;> cases y <;> rfl
  | eq operandTy => simp [eq_comm]
  | add positive left right =>
    obtain ⟨_, _, leftWord, rightWord, same⟩ := forall₂_two.mp admitted
    cases same
    obtain ⟨x, rfl, -⟩ := Ty.admits_uint_iff.mp leftWord
    obtain ⟨y, rfl, -⟩ := Ty.admits_uint_iff.mp rightWord
    simp [Nat.add_comm]
  | mul positive left right =>
    obtain ⟨_, _, leftWord, rightWord, same⟩ := forall₂_two.mp admitted
    cases same
    obtain ⟨x, rfl, -⟩ := Ty.admits_uint_iff.mp leftWord
    obtain ⟨y, rfl, -⟩ := Ty.admits_uint_iff.mp rightWord
    simp [Nat.mul_comm]

end Pair

section Order

variable (typed : pool.WellTyped) (applies : pool.Applies op operands ty)
  (perm : sortedOperands.Perm operands)
include typed applies perm

/-- A junction may have its operands in any order. -/
theorem replaces_of_junction (isJunction : IsJunction op) :
    Replaces pool op operands ty (.ofKnown op sortedOperands) := by
  obtain ⟨rfl, nonempty, bools⟩ := bools_of_applies isJunction applies
  constructor
  · refine Draft.fits_ofKnown_iff.mpr (applies_junction isJunction ?_ ?_ fun isClause => ?_)
    · exact fun isNil => nonempty (List.nil_perm.mp (isNil ▸ perm))
    · exact fun operand member => bools operand (perm.mem_iff.mp member)
    · exact fun operand member => applies.literals isClause operand (perm.mem_iff.mp member)
  · intro env values value evaluated computed
    obtain ⟨truths, rfl, truthOf⟩ := typed.exists_truths bools evaluated
    obtain ⟨sortedTruths, sortedOf, permTruths⟩ := List.perm_comp_forall₂ perm truthOf
    refine Draft.value_ofKnown.mpr
      ⟨sortedTruths.map .bool, List.forall₂_map_right_iff.mpr sortedOf, ?_⟩
    rw [eval_junction isJunction] at computed ⊢
    rw [← computed, junction, junction, permTruths.all_eq, permTruths.any_eq]

/-- Two operands of a commutative operator may change places. -/
theorem replaces_of_pair (commutative : op.isCommutative) (notJunction : ¬ IsJunction op)
    (differ : sortedOperands ≠ operands) :
    Replaces pool op operands ty (.ofKnown op sortedOperands) := by
  obtain ⟨⟨types, each, operator⟩, literals⟩ := applies
  obtain ⟨leftTy, rightTy, rfl, swapped⟩ := types_swap commutative notJunction operator
  obtain ⟨a, b, left, right, rfl⟩ := forall₂_two.mp each.flip
  obtain rfl := (List.perm_pair.mp perm).resolve_left differ
  constructor
  · refine Draft.fits_ofKnown_iff.mpr ⟨⟨_, .cons right (.cons left .nil), swapped⟩, fun isClause => ?_⟩
    exact absurd (.inr (.inr isClause)) notJunction
  · intro env values value evaluated computed
    obtain ⟨x, y, first, second, rfl⟩ := forall₂_two.mp evaluated
    refine Draft.value_ofKnown.mpr ⟨[y, x], .cons second (.cons first .nil), ?_⟩
    rw [eval_swap commutative notJunction operator (typed.admitsAll each evaluated), computed]

/-- A commutative operator may have its operands in any order. -/
theorem replaces_of_perm (commutative : op.isCommutative) :
    Replaces pool op operands ty (.ofKnown op sortedOperands) := by
  by_cases isJunction : IsJunction op
  · exact replaces_of_junction typed applies perm isJunction
  · by_cases same : sortedOperands = operands
    · subst same
      exact ⟨Draft.fits_ofKnown_iff.mpr applies,
        fun env values value evaluated computed => Draft.value_ofKnown.mpr ⟨values, evaluated, computed⟩⟩
    · exact replaces_of_pair typed applies perm commutative isJunction same

end Order

/-- Sorted operands replace the operands. -/
theorem canonicalization_replaces (typed : pool.WellTyped) (applies : pool.Applies op operands ty)
    (found : canonicalization pool op operands = some draft) :
    Replaces pool op operands ty draft := by
  unfold canonicalization at found
  split_ifs at found with commutative
  dsimp only at found
  split_ifs at found with same
  cases found
  exact replaces_of_perm typed applies (sorted_perm pool operands) commutative

/-- Where nothing is proposed, the operands are sorted. -/
theorem sorted_of_canonicalization (commutative : op.isCommutative)
    (none : canonicalization pool op operands = none) : sorted pool operands = operands := by
  unfold canonicalization at none
  rw [if_pos commutative] at none
  by_contra differ
  rw [if_neg differ] at none
  cases none

/-- Nothing but sorted operands is proposed. -/
theorem eq_ofKnown_of_canonicalization (found : canonicalization pool op operands = some draft) :
    draft = .ofKnown op (sorted pool operands) := by
  unfold canonicalization at found
  split_ifs at found
  dsimp only at found
  split_ifs at found
  cases found
  rfl

end Clausal.Rules
