import Mathlib
import Clausal.Proofs.BooleanRules

/-!
# Refinement of expressions

An expression refines another one of the same type if it has every value that
the other has. The operands of an application may be refined, except that a
clause needs literals; `Rigid` is about the expressions that no pass changes,
and literals are among them.
-/

namespace Clausal.Pool

variable {pool before after : Pool} {e r : ExprId} {ty : Ty} {op : Op}
  {operands new : List ExprId}

/-- `r` has the type of `e`, and every value that `e` has. -/
structure Refines (pool : Pool) (e r : ExprId) : Prop where
  sameTy : ∃ ty, pool.HasTy e ty ∧ pool.HasTy r ty
  means : ∀ ⦃env : Env⦄ ⦃value : Value⦄,
    pool.evaluate e env = .ok value → pool.evaluate r env = .ok value

theorem Refines.refl (stored : pool.Has e) : pool.Refines e e := by
  obtain ⟨⟨ty, form⟩, found⟩ := has_iff.mp stored
  exact ⟨⟨ty, ⟨form, found⟩, form, found⟩, fun _ _ => id⟩

theorem Refines.hasTy (refines : pool.Refines e r) (hasTy : pool.HasTy e ty) :
    pool.HasTy r ty := by
  obtain ⟨other, otherTy, resultTy⟩ := refines.sameTy
  exact hasTy.unique otherTy ▸ resultTy

theorem Refines.has_left (refines : pool.Refines e r) : pool.Has e := by
  obtain ⟨ty, hasTy, -⟩ := refines.sameTy
  exact hasTy.has

theorem Refines.has_right (refines : pool.Refines e r) : pool.Has r := by
  obtain ⟨ty, -, hasTy⟩ := refines.sameTy
  exact hasTy.has

theorem Refines.trans {middle : ExprId} (earlier : pool.Refines e middle)
    (later : pool.Refines middle r) : pool.Refines e r := by
  obtain ⟨ty, hasTy, middleTy⟩ := earlier.sameTy
  exact ⟨⟨ty, hasTy, later.hasTy middleTy⟩, fun _ _ evaluated => later.means (earlier.means evaluated)⟩

/-- Refinement lasts when the pool grows. -/
theorem Refines.mono (extension : before.Extends after) (refines : before.Refines e r) :
    after.Refines e r := by
  obtain ⟨ty, hasTy, resultTy⟩ := refines.sameTy
  refine ⟨⟨ty, extension.hasTy hasTy, extension.hasTy resultTy⟩, fun env value evaluated => ?_⟩
  rw [extension.evaluate_eq hasTy.has] at evaluated
  rw [extension.evaluate_eq resultTy.has]
  exact refines.means evaluated

/-- An application of refined operands refines the application. -/
theorem refines_apply (stored : pool.node? e = some ⟨ty, .apply op operands⟩)
    (result : pool.node? r = some ⟨ty, .apply op new⟩)
    (each : List.Forall₂ pool.Refines operands new) : pool.Refines e r := by
  refine ⟨⟨ty, ⟨_, stored⟩, _, result⟩, fun env value evaluated => ?_⟩
  obtain ⟨values, operandValues, computed⟩ := (evaluate_apply stored).mp evaluated
  refine (evaluate_apply result).mpr ⟨values, ?_, computed⟩
  exact forall₂_join each operandValues fun _ _ _ _ refines operandValue =>
    refines.means operandValue

section Rigid

/-- A selection from a variable, or the negation of one. -/
inductive Rigid (pool : Pool) (e : ExprId) : Prop where
  | selection (selects : pool.Selects e)
  | negation {ty : Ty} {operand : ExprId} {rest : List ExprId}
      (stored : pool.node? e = some ⟨ty, .apply .not (operand :: rest)⟩)
      (selects : pool.Selects operand)

theorem Selects.negated?_eq_none (selects : pool.Selects e) : pool.negated? e = none := by
  cases selects with
  | var stored | bit stored further | field stored further => simp [negated?, stored]

theorem Selects.constant?_eq_none (selects : pool.Selects e) : pool.constant? e = none := by
  cases selects with
  | var stored | bit stored further | field stored further => simp [constant?, stored]

theorem Selects.truth?_eq_none (selects : pool.Selects e) : pool.truth? e = none := by
  cases selects with
  | var stored | bit stored further | field stored further => simp [truth?, stored]

/-- A rigid negation is the negation of a selection. -/
theorem Rigid.selects_negated {operand : ExprId} (rigid : pool.Rigid e)
    (found : pool.negated? e = some operand) : pool.Selects operand := by
  cases rigid with
  | selection selects =>
    rw [selects.negated?_eq_none] at found
    cases found
  | negation stored selects =>
    simp only [negated?, stored] at found
    cases found
    exact selects

/-- The operators at the top of rigid expressions. -/
theorem Rigid.op_cases (rigid : pool.Rigid e)
    (stored : pool.node? e = some ⟨ty, .apply op operands⟩) :
    op = .not ∨ (∃ index, op = .bit index) ∨ ∃ index, op = .field index := by
  cases rigid with
  | selection selects =>
    cases selects with
    | var found =>
      rw [stored] at found
      cases found
    | bit found further =>
      rw [stored] at found
      cases found
      exact .inr (.inl ⟨_, rfl⟩)
    | field found further =>
      rw [stored] at found
      cases found
      exact .inr (.inr ⟨_, rfl⟩)
  | negation found selects =>
    rw [stored] at found
    cases found
    exact .inl rfl

theorem Rigid.of_isLiteral (literal : pool.isLiteral e) : pool.Rigid e := by
  unfold isLiteral isAtom at literal
  cases negated : pool.negated? e with
  | none =>
    rw [negated] at literal
    refine .selection (selectsFromVariable_iff.mp ?_)
    split at literal <;> simp_all
  | some operand =>
    rw [negated] at literal
    have selects : pool.Selects operand := by
      refine selectsFromVariable_iff.mp ?_
      split at literal <;> simp_all
    unfold negated? at negated
    split at negated
    · rename_i stored
      cases negated
      exact .negation stored selects
    · cases negated

theorem Extends.rigid_iff (extension : before.Extends after) (stored : before.Has e) :
    after.Rigid e ↔ before.Rigid e := by
  constructor
  · intro rigid
    cases rigid with
    | selection selects => exact .selection ((extension.selects_iff stored).mp selects)
    | negation found selects =>
      rw [extension.node?_eq stored] at found
      have operandStored := has_of_mem_operands found List.mem_cons_self
      exact .negation found ((extension.selects_iff operandStored).mp selects)
  · intro rigid
    cases rigid with
    | selection selects => exact .selection ((extension.selects_iff stored).mpr selects)
    | negation found selects =>
      exact .negation (extension found) ((extension.selects_iff selects.has).mpr selects)

/-- An operator with one operand has no other one. -/
theorem WellTyped.eq_of_single {first operand : ExprId} {rest : List ExprId} (typed : pool.WellTyped)
    (stored : pool.node? e = some ⟨ty, .apply op (first :: rest)⟩) (arity : op.arity = .exactly 1)
    (member : operand ∈ pool.operands e) : operand = first := by
  obtain ⟨types, each, operator⟩ := (typed.fits stored).typed
  have accepted := operator.accepted.1
  rw [← each.length_eq, arity] at accepted
  simp only [Arity.accepts, List.length_cons, beq_iff_eq, Nat.add_eq_right,
    List.length_eq_zero_iff] at accepted
  subst accepted
  rw [operands_of_node? stored] at member
  exact List.mem_singleton.mp member

/-- A selection from a variable selects from a variable or another selection. -/
theorem Selects.operand {operand : ExprId} (typed : pool.WellTyped) (selects : pool.Selects e)
    (member : operand ∈ pool.operands e) : pool.Selects operand := by
  cases selects with
  | var stored => simp [operands_of_node? stored] at member
  | bit stored further => exact typed.eq_of_single stored rfl member ▸ further
  | field stored further => exact typed.eq_of_single stored rfl member ▸ further

theorem Rigid.operand {operand : ExprId} (rigid : pool.Rigid e) (typed : pool.WellTyped)
    (member : operand ∈ pool.operands e) : pool.Rigid operand := by
  cases rigid with
  | selection selects => exact .selection (selects.operand typed member)
  | negation stored selects => exact .selection (typed.eq_of_single stored rfl member ▸ selects)

end Rigid

/-- An operator applies to refined operands, as long as rigid ones are kept. -/
theorem Applies.refined (applies : pool.Applies op operands ty)
    (each : List.Forall₂ pool.Refines operands new)
    (rigid : List.Forall₂ (fun operand result => pool.Rigid operand → result = operand) operands new) :
    pool.Applies op new ty := by
  obtain ⟨⟨types, typed, operator⟩, literals⟩ := applies
  refine ⟨⟨types, ?_, operator⟩, fun isClause result member => ?_⟩
  · exact forall₂_join each typed fun _ _ _ _ refines => refines.hasTy
  · obtain ⟨operand, operandMember, same⟩ := exists_of_forall₂_of_mem rigid.flip member
    have literal := literals isClause operand operandMember
    rw [same (.of_isLiteral literal)]
    exact literal

end Clausal.Pool
