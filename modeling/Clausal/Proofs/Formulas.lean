import Mathlib
import Clausal.Proofs.Passes

/-!
# Simplified expressions without composite operators

What is left of an expression that is plain and that no rule simplifies: a boolean
is a constant or a `Formula`, which is built from atoms with connectives, and a
word or a tuple is a constant, assembled from parts, or selected from a variable.
Reordering operands keeps a formula a formula.
-/

namespace Clausal

/-- The operators between booleans that have clauses of their own. -/
def Op.isConnective : Op → Bool
  | .not | .and | .or | .clause | .xor | .eq => true
  | _ => false

/-- The operators that pick a part. -/
def Op.isSelection : Op → Bool
  | .bit _ | .field _ => true
  | _ => false

namespace Rules

variable {pool : Pool} {op : Op} {operands : List ExprId} {a b e : ExprId} {ty : Ty}

/-- What an operand contributes to a junction is no constant. -/
theorem truth?_of_mem_unnest {parts : List ExprId} {part : ExprId} (stored : pool.Has e)
    (found : unnest pool op e = some parts) (member : part ∈ parts) : pool.truth? part = none := by
  induction stored using Pool.Has.induction generalizing parts with
  | step e node nodeFound inductionHypothesis =>
    rw [unnest_eq] at found
    split at found
    · split_ifs at found
      cases found
      cases member
    · rename_i notConstant
      split_ifs at found
      · obtain ⟨lists, unnested, rfl⟩ := Option.map_eq_some_iff.mp found
        obtain ⟨list, listMember, partMember⟩ := List.mem_flatten.mp member
        obtain ⟨operand, operandMember, contributed⟩ :=
          exists_of_forall₂_of_mem (mapM_eq_some_iff.mp unnested).flip listMember
        rw [Pool.operands_of_node? nodeFound] at operandMember
        exact inductionHypothesis operand operandMember contributed partMember
      · cases found
        rw [List.mem_singleton.mp member]
        exact notConstant

/-- A junction that no rule simplifies has no constants among its operands. -/
theorem truth?_of_simplifyJunction (stored : ∀ operand ∈ operands, pool.Has operand)
    (kept : simplifyJunction pool op operands = none) :
    ∀ operand ∈ operands, pool.truth? operand = none := by
  unfold simplifyJunction at kept
  split at kept
  · cases kept
  · rename_i parts unnested
    have same : distinct parts.flatten = operands := by
      by_contra differ
      dsimp only at kept
      split at kept
      · cases kept
      · split at kept <;> simp_all
    intro operand member
    rw [← same] at member
    obtain ⟨list, listMember, partMember⟩ := List.mem_flatten.mp (mem_distinct.mp member)
    obtain ⟨source, sourceMember, contributed⟩ :=
      exists_of_forall₂_of_mem (mapM_eq_some_iff.mp unnested).flip listMember
    exact truth?_of_mem_unnest (stored source sourceMember) contributed partMember

theorem truth?_of_simplifyXor (kept : simplifyXor pool a b = none) :
    pool.truth? a = none ∧ pool.truth? b = none := by
  unfold simplifyXor at kept
  split at kept <;> simp_all

theorem truth?_of_simplifyEq (isBool : isBoolean pool a) (kept : simplifyEq pool a b = none) :
    pool.truth? a = none ∧ pool.truth? b = none := by
  unfold simplifyEq at kept
  split at kept
  · cases kept
  · split at kept <;> simp_all

/-- A selection that no rule resolves is not one from what was assembled. -/
theorem op?_of_simplifySelection {assembles : Op} {index : Nat}
    (kept : simplifySelection pool assembles index a = .ok none) : pool.op? a ≠ some assembles := by
  intro assembled
  unfold simplifySelection at kept
  rw [if_pos assembled] at kept
  cases found : entry (pool.operands a) index with
  | error fault => simp [found, bind, Except.bind] at kept
  | ok part => simp [found, bind, Except.bind, pure, Except.pure] at kept

theorem truth?_of_isLiteral (literal : pool.isLiteral e) : pool.truth? e = none := by
  cases Pool.Rigid.of_isLiteral literal with
  | selection selects => exact selects.truth?_eq_none
  | negation stored selects => simp [Pool.truth?, stored]

section Kept

variable (typed : pool.WellTyped) (applies : pool.Applies op operands ty)
  (kept : simplification pool op operands = .ok none)
include typed applies kept

/-- An application that no rule simplifies is not one to constants only. -/
theorem mapM_constant?_of_kept : operands.mapM pool.constant? = none := by
  cases constants : operands.mapM pool.constant? with
  | none => rfl
  | some values =>
    obtain ⟨draft, folded, -⟩ := fold_improves typed applies constants
    simp [simplification, constants, folded, bind, Except.bind, pure, Except.pure] at kept

/-- A connective between booleans that no rule simplifies has no constants among its
operands. -/
theorem truth?_of_kept (isConnective : op.isConnective)
    (bools : ∀ operand ∈ operands, pool.HasTy operand .bool) :
    ∀ operand ∈ operands, pool.truth? operand = none := by
  have notAll := mapM_constant?_of_kept typed applies kept
  have stored := has_of_applies applies
  have literals := applies.literals
  obtain ⟨types, each, operator⟩ := applies.typed
  simp only [simplification, notAll] at kept
  cases operator with
  | not =>
    obtain ⟨a, -, rfl⟩ := forall₂_one.mp each.flip
    intro operand member
    obtain rfl := List.mem_singleton.mp member
    cases found : pool.truth? operand with
    | none => rfl
    | some truth =>
      obtain ⟨ty, constant⟩ := Pool.truth?_eq_some_iff.mp found
      simp [Pool.constant?, constant] at notAll
  | and nonempty bools | or nonempty bools =>
    exact truth?_of_simplifyJunction stored (Except.ok.inj kept)
  | clause nonempty bools =>
    exact fun operand member => truth?_of_isLiteral (literals rfl operand member)
  | xor =>
    obtain ⟨a, b, -, -, rfl⟩ := forall₂_two.mp each.flip
    simpa using truth?_of_simplifyXor (Except.ok.inj kept)
  | eq operandTy =>
    obtain ⟨a, b, -, -, rfl⟩ := forall₂_two.mp each.flip
    have isBool : isBoolean pool a := (isBoolean_iff (bools a (by simp))).mpr rfl
    simpa using truth?_of_simplifyEq isBool (Except.ok.inj kept)
  | _ => cases isConnective

end Kept

end Rules

/-- The operands of a connective other than equality are booleans. -/
theorem Op.Types.bools_of_isConnective {op : Op} {types : List Ty} {ty : Ty} (operator : op.Types types ty)
    (isConnective : op.isConnective) (notEq : op ≠ .eq) : ∀ operandTy ∈ types, operandTy = .bool := by
  cases operator with
  | not | xor => simp
  | and nonempty bools | or nonempty bools | clause nonempty bools => exact bools
  | eq operandTy => exact absurd rfl notEq
  | _ => cases isConnective

namespace Pool

variable {pool : Pool} {e r x : ExprId}

theorem isAtom_iff : pool.isAtom e ↔ pool.HasTy e .bool ∧ pool.Selects e := by
  unfold isAtom HasTy
  cases found : pool.node? e with
  | none => simp
  | some node =>
    obtain ⟨ty, form⟩ := node
    simp [Op.isBool_iff, selectsFromVariable_iff]

/-- A formula is an atom, or a connective between formulas. -/
inductive Formula (pool : Pool) : ExprId → Prop where
  | atom {e : ExprId} (isAtom : pool.isAtom e) : Formula pool e
  | connective {e : ExprId} {op : Op} {operands : List ExprId} (isConnective : op.isConnective)
      (stored : pool.node? e = some ⟨.bool, .apply op operands⟩)
      (each : ∀ operand ∈ operands, Formula pool operand) : Formula pool e

theorem Formula.hasTy (formula : pool.Formula e) : pool.HasTy e .bool := by
  cases formula with
  | atom isAtom => exact (isAtom_iff.mp isAtom).1
  | connective isConnective stored each => exact ⟨_, stored⟩

section Shape

variable (typed : pool.WellTyped)
include typed

/-- What a selection selects from, if no rule resolves it, is selected from a
variable unless it is a boolean or a composite. -/
theorem selects_of_kept {op : Op} {ty : Ty} (selection : op.isSelection)
    (stored : pool.node? e = some ⟨ty, .apply op [x]⟩)
    (kept : Rules.simplification pool op [x] = .ok none)
    (shape : (∃ value, pool.constant? x = some value) ∨ pool.op? x = some .bits ∨
      pool.op? x = some .tuple ∨ pool.Selects x) : pool.Selects x := by
  have applies : pool.Applies op [x] ty := typed.fits stored
  have notAll := Rules.mapM_constant?_of_kept typed applies kept
  obtain ⟨types, each, operator⟩ := applies.typed
  obtain ⟨operandTy, hasTy, rfl⟩ := forall₂_one.mp each
  simp only [Rules.simplification, notAll] at kept
  have resultTy : ∀ {other : Op}, pool.op? x = some other → ∃ types, other.Types types operandTy := by
    intro other found
    obtain ⟨otherTy, otherStored⟩ := node?_of_op? found
    obtain rfl := hasTy.unique ⟨_, otherStored⟩
    obtain ⟨types, -, operator⟩ := (typed.fits otherStored).typed
    exact ⟨types, operator⟩
  obtain ⟨value, constant⟩ | isBits | isTuple | selects := shape
  · simp [constant] at notAll
  · obtain ⟨types, assembled⟩ := resultTy isBits
    cases operator with
    | bit inside => exact absurd isBits (Rules.op?_of_simplifySelection kept)
    | field inside => cases assembled
    | _ => cases selection
  · obtain ⟨types, assembled⟩ := resultTy isTuple
    cases operator with
    | bit inside => cases assembled
    | field inside => exact absurd isTuple (Rules.op?_of_simplifySelection kept)
    | _ => cases selection
  · exact selects

/-- A word or a tuple that is plain and that no rule simplifies is a constant,
assembled from parts, or selected from a variable. -/
theorem word_shape (stored : pool.Has e) (notBool : ¬ pool.HasTy e .bool)
    (simplified : pool.Simplified e) (plain : pool.Plain e) :
    (∃ value, pool.constant? e = some value) ∨ pool.op? e = some .bits ∨
      pool.op? e = some .tuple ∨ pool.Selects e := by
  induction stored using Has.induction with
  | step e node found inductionHypothesis =>
    obtain ⟨ty, form⟩ := node
    cases form with
    | var name => exact .inr (.inr (.inr (.var found)))
    | const value => exact .inl ⟨value, constant?_eq_some_iff.mpr ⟨ty, found⟩⟩
    | apply op operands =>
      obtain ⟨kept, each⟩ := (everywhere_apply found).mp simplified
      obtain ⟨⟨supported, -⟩, plainEach⟩ := (everywhere_apply found).mp plain
      obtain ⟨types, operandTys, operator⟩ := (typed.fits found).typed
      cases operator with
      | bits nonempty bools => exact .inr (.inl (op?_of_apply found))
      | tuple nonempty => exact .inr (.inr (.inl (op?_of_apply found)))
      | field inside =>
        obtain ⟨x, isTuple, rfl⟩ := forall₂_one.mp operandTys.flip
        have member : x ∈ [x] := List.mem_cons_self
        have shape := inductionHypothesis x member (fun isBool => by cases HasTy.unique isTuple isBool)
          (each x member) (plainEach x member)
        have selects := selects_of_kept typed rfl found kept shape
        exact .inr (.inr (.inr (.field found selects)))
      | ite | add | mul => cases supported
      | _ => exact absurd ⟨_, found⟩ notBool

/-- In a plain expression that no rule simplifies, selections are from variables. -/
theorem selects_of_selection {op : Op} (selection : op.isSelection)
    (isSelection : pool.op? e = some op) (simplified : pool.Simplified e) (plain : pool.Plain e) :
    ∀ operand ∈ pool.operands e, pool.Selects operand := by
  obtain ⟨ty, found⟩ := node?_of_op? isSelection
  obtain ⟨kept, each⟩ := (everywhere_apply found).mp simplified
  obtain ⟨-, plainEach⟩ := (everywhere_apply found).mp plain
  obtain ⟨types, operandTys, operator⟩ := (typed.fits found).typed
  obtain ⟨x, only, notBool⟩ : ∃ x, pool.operands e = [x] ∧ ¬ pool.HasTy x .bool := by
    cases operator with
    | bit inside | field inside =>
      obtain ⟨x, hasTy, only⟩ := forall₂_one.mp operandTys.flip
      exact ⟨x, only, fun isBool => by cases HasTy.unique hasTy isBool⟩
    | _ => cases selection
  rw [only] at found kept each plainEach ⊢
  intro operand member
  obtain rfl := List.mem_singleton.mp member
  have shape := word_shape typed (has_of_mem_operands found member) notBool (each operand member)
    (plainEach operand member)
  exact selects_of_kept typed selection found kept shape

/-- A boolean that is plain and that no rule simplifies is a constant or a formula. -/
theorem formula_of_simplified (isBool : pool.HasTy e .bool) (simplified : pool.Simplified e)
    (plain : pool.Plain e) : (∃ truth, pool.truth? e = some truth) ∨ pool.Formula e := by
  induction isBool.has using Has.induction with
  | step e node found inductionHypothesis =>
    obtain ⟨ty, form⟩ := node
    obtain rfl := isBool.unique ⟨_, found⟩
    cases form with
    | var name => exact .inr (.atom (isAtom_iff.mpr ⟨isBool, .var found⟩))
    | const value =>
      have admitted : Ty.admits .bool value := typed.fits found
      obtain ⟨truth, rfl⟩ := Ty.admits_bool_iff.mp admitted
      exact .inl ⟨truth, truth?_eq_some_iff.mpr ⟨.bool, found⟩⟩
    | apply op operands =>
      obtain ⟨kept, each⟩ := (everywhere_apply found).mp simplified
      obtain ⟨⟨supported, plainOperand⟩, plainEach⟩ := (everywhere_apply found).mp plain
      have applies : pool.Applies op operands .bool := typed.fits found
      obtain ⟨types, operandTys, operator⟩ := applies.typed
      refine .inr ?_
      by_cases isConnective : op.isConnective
      · have bools : ∀ operand ∈ operands, pool.HasTy operand .bool := by
          by_cases isEq : op = .eq
          · exact fun operand member => plainOperand operand member isEq
          · exact hasTy_bool_of_forall₂ operandTys (operator.bools_of_isConnective isConnective isEq)
        refine .connective isConnective found fun operand member => ?_
        have notConstant := Rules.truth?_of_kept typed applies kept isConnective bools operand member
        refine (inductionHypothesis operand member (bools operand member) (each operand member)
          (plainEach operand member)).resolve_left ?_
        rintro ⟨truth, constant⟩
        rw [notConstant] at constant
        cases constant
      · have selects : op.isSelection → ∀ operand ∈ operands, pool.Selects operand := by
          intro selection
          have selected := selects_of_selection typed selection (op?_of_apply found) simplified plain
          rwa [operands_of_node? found] at selected
        cases operator with
        | bit inside =>
          obtain ⟨x, -, rfl⟩ := forall₂_one.mp operandTys.flip
          have selected := selects rfl x List.mem_cons_self
          exact .atom (isAtom_iff.mpr ⟨isBool, .bit found selected⟩)
        | field inside =>
          obtain ⟨x, -, rfl⟩ := forall₂_one.mp operandTys.flip
          have selected := selects rfl x List.mem_cons_self
          exact .atom (isAtom_iff.mpr ⟨isBool, .field found selected⟩)
        | implies | ite => cases supported
        | _ => exact absurd rfl isConnective

/-- What occurs in a formula is a formula or a selection from a variable. -/
theorem Formula.of_reaches (formula : pool.Formula e) (reaches : pool.Reaches e x) :
    pool.Formula x ∨ pool.Selects x := by
  induction reaches with
  | refl => exact .inl formula
  | tail _ isOperand inductionHypothesis =>
    rcases inductionHypothesis with formula | selects
    · cases formula with
      | atom isAtom => exact .inr ((isAtom_iff.mp isAtom).2.operand typed isOperand)
      | connective isConnective stored each =>
        rw [operands_of_node? stored] at isOperand
        exact .inl (each _ isOperand)
    · exact .inr (selects.operand typed isOperand)

end Shape

section Reordering

/-- A list of the same length has an item at the place of each item of a list. -/
theorem exists_operand_of_mem {operands new : List ExprId} (length_eq : operands.length = new.length)
    (member : x ∈ new) : ∃ (index : Nat) (operand : ExprId),
      operands[index]? = some operand ∧ new[index]? = some x := by
  obtain ⟨index, inside, same⟩ := List.getElem_of_mem member
  refine ⟨index, operands[index], List.getElem?_eq_getElem _, ?_⟩
  rw [List.getElem?_eq_getElem inside, same]

namespace Reordered

theorem constant?_eq (reordered : pool.Reordered e r) :
    pool.constant? r = pool.constant? e := by
  cases reordered with
  | leaf stored leaf => rfl
  | apply stored result length_eq each perm ordered => simp [constant?, stored, result]

/-- A leaf is kept. -/
theorem eq_of_leaf (reordered : pool.Reordered e r) (leaf : pool.op? e = none) : r = e := by
  cases reordered with
  | leaf stored leaf => rfl
  | apply stored result length_eq each perm ordered =>
    rw [op?_of_apply stored] at leaf
    cases leaf

theorem hasTy {ty : Ty} (reordered : pool.Reordered e r) (hasTy : pool.HasTy e ty) :
    pool.HasTy r ty := by
  cases reordered with
  | leaf stored leaf => exact hasTy
  | apply stored result length_eq each perm ordered =>
    obtain rfl := hasTy.unique ⟨_, stored⟩
    exact ⟨_, result⟩

/-- Selections have nothing to reorder. -/
theorem selects (reordered : pool.Reordered e r) (selects : pool.Selects e) : pool.Selects r := by
  induction reordered with
  | leaf stored leaf => exact selects
  | @apply e r ty op operands new sorted stored result length_eq each perm ordered inductionHypothesis =>
    cases selects with
    | var found =>
      rw [stored] at found
      cases found
    | bit found further =>
      rw [stored] at found
      cases found
      obtain ⟨first, rest, rfl⟩ := List.exists_cons_of_length_eq_add_one length_eq.symm
      rw [ordered (by simp [Op.isCommutative])] at result
      exact .bit result (inductionHypothesis List.getElem?_cons_zero List.getElem?_cons_zero further)
    | field found further =>
      rw [stored] at found
      cases found
      obtain ⟨first, rest, rfl⟩ := List.exists_cons_of_length_eq_add_one length_eq.symm
      rw [ordered (by simp [Op.isCommutative])] at result
      exact .field result (inductionHypothesis List.getElem?_cons_zero List.getElem?_cons_zero further)

theorem isAtom (reordered : pool.Reordered e r) (isAtom : pool.isAtom e) :
    pool.isAtom r := by
  obtain ⟨isBool, selects⟩ := isAtom_iff.mp isAtom
  exact isAtom_iff.mpr ⟨reordered.hasTy isBool, reordered.selects selects⟩

/-- A reordered formula is a formula. -/
theorem formula (reordered : pool.Reordered e r) (formula : pool.Formula e) : pool.Formula r := by
  induction reordered with
  | leaf stored leaf => exact formula
  | apply stored result length_eq each perm ordered inductionHypothesis =>
    have whole := Reordered.apply stored result length_eq each perm ordered
    cases formula with
    | atom isAtom => exact .atom (whole.isAtom isAtom)
    | connective isConnective found formulas =>
      rw [stored] at found
      cases found
      refine .connective isConnective result fun other member => ?_
      obtain ⟨index, operand, operandFound, otherFound⟩ :=
        exists_operand_of_mem length_eq (perm.mem_iff.mp member)
      exact inductionHypothesis operandFound otherFound
        (formulas operand (List.mem_of_getElem? operandFound))

/-- What occurs in a reordered expression is reordered from what occurs in the
expression. -/
theorem exists_reaches (reordered : pool.Reordered e r) (reaches : pool.Reaches r x) :
    ∃ y, pool.Reaches e y ∧ pool.Reordered y x := by
  induction reaches with
  | refl => exact ⟨e, .refl, reordered⟩
  | tail _ isOperand inductionHypothesis =>
    obtain ⟨y, reachesY, reorderedY⟩ := inductionHypothesis
    cases reorderedY with
    | leaf stored leaf => simp [operands_of_op?_eq_none leaf] at isOperand
    | apply stored result length_eq each perm ordered =>
      rw [operands_of_node? result] at isOperand
      obtain ⟨index, operand, operandFound, otherFound⟩ :=
        exists_operand_of_mem length_eq (perm.mem_iff.mp isOperand)
      refine ⟨operand, reachesY.tail ?_, each operandFound otherFound⟩
      rw [operands_of_node? stored]
      exact List.mem_of_getElem? operandFound

/-- What holds of all operands of an operator in an expression, and is kept by
reordering, holds of them in a reordered expression. -/
theorem everywhere {op : Op} {holds : ExprId → Prop}
    (kept : ∀ {operand other : ExprId}, pool.Reordered operand other → holds operand → holds other)
    (reordered : pool.Reordered e r)
    (everywhere : pool.Everywhere (fun other operands => other = op → ∀ x ∈ operands, holds x) e) :
    pool.Everywhere (fun other operands => other = op → ∀ x ∈ operands, holds x) r := by
  intro x reaches other found isOp operand member
  obtain ⟨y, reachesY, reorderedY⟩ := reordered.exists_reaches reaches
  cases reorderedY with
  | leaf stored leaf => simp [operands_of_op?_eq_none leaf] at member
  | apply stored result length_eq each perm ordered =>
    rw [operands_of_node? result] at member
    rw [op?_of_apply result, Option.mem_some_iff] at found
    obtain ⟨index, first, firstFound, operandFound⟩ :=
      exists_operand_of_mem length_eq (perm.mem_iff.mp member)
    apply kept (each firstFound operandFound)
    refine everywhere reachesY other (found ▸ op?_of_apply stored) isOp first ?_
    rw [operands_of_node? stored]
    exact List.mem_of_getElem? firstFound

end Reordered

end Reordering

end Pool

end Clausal
