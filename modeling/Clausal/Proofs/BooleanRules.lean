import Mathlib
import Clausal.Rules.Simplify
import Clausal.Proofs.Drafts

/-!
# Simplification of boolean operators

`Rules.Improves` is what a simplification rule owes: its proposal has the type of
the application, keeps every value that the application has, is lighter, and is
put together from what occurs in the operands, with the few operators that
`Rules.simplifiedInto` lists. This module shows it for the rules of `not`, `xor`,
`implies`, `ite` and `eq`.
-/

namespace Clausal

namespace Pool

variable {pool : Pool} {e : ExprId} {env : Env}

/-- A boolean expression is true or false. -/
abbrev Truth (pool : Pool) (env : Env) (e : ExprId) (truth : Bool) : Prop :=
  pool.evaluate e env = .ok (.bool truth)

theorem Truth.unique {truth other : Bool} (holds : pool.Truth env e truth)
    (otherHolds : pool.Truth env e other) : truth = other :=
  Value.bool.inj (Except.ok.inj (holds.symm.trans otherHolds))

theorem truth?_eq_some_iff {truth : Bool} :
    pool.truth? e = some truth ↔ ∃ ty, pool.node? e = some ⟨ty, .const (.bool truth)⟩ := by
  unfold truth?
  split <;> grind

/-- A constant has the truth value that is found in it. -/
theorem truth_of_truth? {truth : Bool} (found : pool.truth? e = some truth) :
    pool.Truth env e truth := by
  obtain ⟨ty, stored⟩ := truth?_eq_some_iff.mp found
  exact evaluate_const stored

theorem weight_of_truth? {truth : Bool} (found : pool.truth? e = some truth) :
    pool.weight e = 1 := by
  obtain ⟨ty, stored⟩ := truth?_eq_some_iff.mp found
  exact weight_eq_one stored rfl

theorem constant?_eq_some_iff {value : Value} :
    pool.constant? e = some value ↔ ∃ ty, pool.node? e = some ⟨ty, .const value⟩ := by
  unfold constant?
  split <;> grind

/-- Operands whose types are all boolean are booleans. -/
theorem hasTy_bool_of_forall₂ {operands : List ExprId} {types : List Ty}
    (each : List.Forall₂ pool.HasTy operands types) (bools : ∀ ty ∈ types, ty = .bool) :
    ∀ operand ∈ operands, pool.HasTy operand .bool := by
  intro operand member
  obtain ⟨ty, tyMember, hasTy⟩ := exists_of_forall₂_of_mem each member
  exact bools ty tyMember ▸ hasTy

/-- Any number of booleans other than zero makes a word. -/
theorem applies_bits {operands : List ExprId} (nonempty : operands ≠ [])
    (bools : ∀ operand ∈ operands, pool.HasTy operand .bool) :
    pool.Applies .bits operands (.uint operands.length) := by
  refine ⟨⟨operands.map fun _ => .bool, ?_, ?_⟩, nofun⟩
  · rw [List.forall₂_map_right_iff, List.forall₂_same]
    exact bools
  · have operator : Op.Types .bits (operands.map fun _ => .bool)
        (.uint (operands.map fun _ => Ty.bool).length) :=
      .bits (by simpa using nonempty) (by simp)
    rwa [List.length_map] at operator

section Typed

variable (typed : pool.WellTyped)
include typed

theorem WellTyped.exists_truth {value : Value} (isBool : pool.HasTy e .bool)
    (evaluated : pool.evaluate e env = .ok value) : ∃ truth, value = .bool truth :=
  Ty.admits_bool_iff.mp (typed.admits isBool evaluated)

/-- The values of booleans are truth values. -/
theorem WellTyped.exists_truths {operands : List ExprId} {values : List Value}
    (bools : ∀ operand ∈ operands, pool.HasTy operand .bool)
    (evaluated : List.Forall₂ (fun operand value => pool.evaluate operand env = .ok value) operands
      values) :
    ∃ truths, values = truths.map .bool ∧ List.Forall₂ (pool.Truth env) operands truths := by
  induction evaluated with
  | nil => exact ⟨[], rfl, .nil⟩
  | @cons operand value operands values first _ inductionHypothesis =>
    obtain ⟨truth, rfl⟩ := typed.exists_truth (bools operand List.mem_cons_self) first
    obtain ⟨truths, rfl, rest⟩ := inductionHypothesis fun other member =>
      bools other (List.mem_cons_of_mem operand member)
    exact ⟨truth :: truths, rfl, .cons first rest⟩

/-- A negation has one operand, which is a boolean. -/
theorem WellTyped.negated {operand : ExprId} (found : pool.negated? e = some operand) :
    pool.node? e = some ⟨.bool, .apply .not [operand]⟩ ∧ pool.HasTy operand .bool := by
  unfold negated? at found
  split at found
  · rename_i ty first rest stored
    cases found
    obtain ⟨types, each, operator⟩ := (typed.fits stored).typed
    cases operator
    obtain ⟨isBool, noRest⟩ := List.forall₂_cons.mp each
    cases noRest
    exact ⟨stored, isBool⟩
  · cases found

/-- The opposite of a negation's truth value is that of its operand. -/
theorem WellTyped.truth_negated {operand : ExprId} {truth : Bool}
    (found : pool.negated? e = some operand) (holds : pool.Truth env e truth) :
    pool.Truth env operand !truth := by
  obtain ⟨stored, isBool⟩ := typed.negated found
  obtain ⟨values, each, computed⟩ := (evaluate_apply stored).mp holds
  obtain ⟨truths, rfl, truthOf⟩ := typed.exists_truths (by simpa using isBool) each
  obtain ⟨x, first, rfl⟩ := forall₂_one.mp truthOf
  simp only [List.map_cons, List.map_nil, Op.eval_not, Except.ok.injEq, Value.bool.injEq] at computed
  rw [← computed, Bool.not_not]
  exact first

theorem WellTyped.weight_negated {operand : ExprId} (found : pool.negated? e = some operand) :
    pool.weight e = 1 + pool.weight operand := by
  rw [weight_apply (typed.negated found).1]
  simp [Op.weightCost]

end Typed

/-- The operand of a negation occurs in it. -/
theorem reaches_negated {operand : ExprId} (found : pool.negated? e = some operand) :
    pool.Reaches e operand := by
  unfold negated? at found
  split at found
  · rename_i stored
    cases found
    exact .of_operand stored List.mem_cons_self .refl
  · cases found

/-- An expression occurs in one of several others. -/
def Below (pool : Pool) (operands : List ExprId) (e : ExprId) : Prop :=
  ∃ operand ∈ operands, pool.Reaches operand e

theorem below_of_mem {operands : List ExprId} (member : e ∈ operands) : pool.Below operands e :=
  ⟨e, member, .refl⟩

theorem below_negated {operands : List ExprId} {operand : ExprId} (member : e ∈ operands)
    (found : pool.negated? e = some operand) : pool.Below operands operand :=
  ⟨e, member, reaches_negated found⟩

end Pool

namespace Draft

variable {pool : Pool} {env : Env} {e : ExprId}

theorem fits_truth (truth : Bool) : (Draft.truth truth).Fits pool .bool :=
  ⟨rfl, fun _ => trivial, rfl⟩

theorem fits_negation (isBool : pool.HasTy e .bool) : (negation e).Fits pool .bool :=
  fits_apply_iff.mpr ⟨[.bool], .cons isBool .nil, .not, nofun⟩

theorem value_negation {truth : Bool} (holds : pool.Truth env e truth) :
    (negation e).value pool env = .ok (.bool !truth) :=
  value_apply.mpr ⟨[.bool truth], .cons holds .nil, rfl⟩

@[simp] theorem weight_negation : (negation e).weight pool = 1 + pool.weight e := by
  simp [negation, Op.weightCost]

end Draft

namespace Rules

/-- The operators that simplification brings in for one. -/
def simplifiedInto : Op → List Op
  | .and => [.and]
  | .or => [.or]
  | .clause => [.clause]
  | .xor => [.xor, .not]
  | .implies | .eq => [.not]
  | .ite => [.ite, .and, .or, .not]
  | _ => []

/-- A proposal for an operator on operands has the same type and the values of the
application. -/
structure Replaces (pool : Pool) (op : Op) (operands : List ExprId) (ty : Ty) (draft : Draft) :
    Prop where
  fits : draft.Fits pool ty
  means : ∀ ⦃env : Env⦄ ⦃values : List Value⦄ ⦃value : Value⦄,
    List.Forall₂ (fun operand value => pool.evaluate operand env = .ok value) operands values →
      op.eval values = .ok value → draft.value pool env = .ok value

/-- A proposal for an operator on operands has the same type, the values of the
application and a smaller weight, and brings in only operators that are listed for
it. -/
structure Improves (pool : Pool) (op : Op) (operands : List ExprId) (ty : Ty) (draft : Draft) :
    Prop extends Replaces pool op operands ty draft where
  lighter : draft.weight pool < op.weightCost + total pool.weight operands
  draws : draft.Draws (pool.Below operands) (· ∈ simplifiedInto op)

/-- A proposal that is a function of the truth value of one operand: the operand,
its negation, or a constant. -/
structure Unary (pool : Pool) (e : ExprId) (function : Bool → Bool) (draft : Draft) : Prop where
  fits : draft.Fits pool .bool
  means : ∀ ⦃env : Env⦄ ⦃truth : Bool⦄, pool.Truth env e truth →
    draft.value pool env = .ok (.bool (function truth))
  light : draft.weight pool ≤ 1 + pool.weight e
  draws : draft.Draws (· = e) (· = .not)

section Unary

variable {pool : Pool} {e : ExprId} {function : Bool → Bool}

theorem unary_known (isBool : pool.HasTy e .bool) (same : ∀ truth, function truth = truth) :
    Unary pool e function (.known e) := by
  refine ⟨isBool, fun env truth holds => ?_, by simp, by simp⟩
  rw [same]
  exact holds

theorem unary_negation (isBool : pool.HasTy e .bool) (opposite : ∀ truth, function truth = !truth) :
    Unary pool e function (.negation e) := by
  refine ⟨Draft.fits_negation isBool, fun env truth holds => ?_, by simp, by simp⟩
  rw [opposite]
  exact Draft.value_negation holds

theorem unary_truth {value : Bool} (constant : ∀ truth, function truth = value) :
    Unary pool e function (.truth value) := by
  refine ⟨Draft.fits_truth value, fun env truth _ => ?_, by simp, Draft.draws_truth⟩
  rw [constant]
  rfl

end Unary

section Boolean

variable {pool : Pool} {draft : Draft} {op : Op} {a b : ExprId} {operation : Bool → Bool → Bool}
  (typed : pool.WellTyped) (left : pool.HasTy a .bool) (right : pool.HasTy b .bool)
include typed left right

section Binary

variable (computes : ∀ x y, op.eval [.bool x, .bool y] = .ok (.bool (operation x y)))
include computes

/-- What a proposal for an operator on two booleans owes, by truth values. -/
theorem Improves.of_truths (fits : draft.Fits pool .bool)
    (means : ∀ ⦃env : Env⦄ ⦃x y : Bool⦄, pool.Truth env a x → pool.Truth env b y →
      draft.value pool env = .ok (.bool (operation x y)))
    (lighter : draft.weight pool < op.weightCost + (pool.weight a + pool.weight b))
    (draws : draft.Draws (pool.Below [a, b]) (· ∈ simplifiedInto op)) :
    Improves pool op [a, b] .bool draft := by
  refine ⟨⟨fits, ?_⟩, by simpa using lighter, draws⟩
  intro env values value evaluated computed
  obtain ⟨truths, rfl, truthOf⟩ := typed.exists_truths (by simp [left, right]) evaluated
  obtain ⟨x, y, first, second, rfl⟩ := forall₂_two.mp truthOf
  obtain rfl := Except.ok.inj ((computes x y).symm.trans computed)
  exact means first second

/-- A proposal for a first operand that is a constant. -/
theorem Improves.of_left {truth : Bool} (negates : .not ∈ simplifiedInto op)
    (found : pool.truth? a = some truth) (unary : Unary pool b (operation truth) draft) :
    Improves pool op [a, b] .bool draft := by
  refine .of_truths typed left right computes unary.fits ?_ ?_ (unary.draws.imp ?_ ?_)
  · intro env x y first second
    obtain rfl := first.unique (Pool.truth_of_truth? found)
    exact unary.means second
  · have := unary.light
    have := Pool.weight_of_truth? found
    cases op <;> simp only [Op.weightCost] <;> omega
  · rintro _ rfl
    exact Pool.below_of_mem (by simp)
  · rintro _ rfl
    exact negates

/-- A proposal for a second operand that is a constant. -/
theorem Improves.of_right {truth : Bool} (negates : .not ∈ simplifiedInto op)
    (found : pool.truth? b = some truth) (unary : Unary pool a (operation · truth) draft) :
    Improves pool op [a, b] .bool draft := by
  refine .of_truths typed left right computes unary.fits ?_ ?_ (unary.draws.imp ?_ ?_)
  · intro env x y first second
    obtain rfl := second.unique (Pool.truth_of_truth? found)
    exact unary.means first
  · have := unary.light
    have := Pool.weight_of_truth? found
    cases op <;> simp only [Op.weightCost] <;> omega
  · rintro _ rfl
    exact Pool.below_of_mem (by simp)
  · rintro _ rfl
    exact negates

/-- A constant is proposed when the operation has one value on the truth values
that two operands can have together. -/
theorem Improves.of_constant {truth : Bool}
    (constant : ∀ ⦃env : Env⦄ ⦃x y : Bool⦄, pool.Truth env a x → pool.Truth env b y →
      operation x y = truth) : Improves pool op [a, b] .bool (.truth truth) := by
  refine .of_truths typed left right computes (Draft.fits_truth truth) ?_ ?_ Draft.draws_truth
  · intro env x y first second
    rw [constant first second]
    rfl
  · have := pool.weight_pos a
    rw [Draft.weight_truth]
    cases op <;> simp only [Op.weightCost] <;> omega

end Binary

omit left right in
/-- An expression and its negation have opposite truth values. -/
theorem truth_of_opposed (opposite : opposed pool a b) {env : Env} {x y : Bool}
    (first : pool.Truth env a x) (second : pool.Truth env b y) : x = !y := by
  unfold opposed at opposite
  rcases Bool.or_eq_true _ _ ▸ opposite with found | found
  · rw [← (typed.truth_negated (beq_iff_eq.mp found) first).unique second, Bool.not_not]
  · exact (first.unique (typed.truth_negated (beq_iff_eq.mp found) second))

theorem simplifyXor_improves (found : simplifyXor pool a b = some draft) :
    Improves pool .xor [a, b] .bool draft := by
  unfold simplifyXor at found
  split at found
  · rename_i isConst
    cases found
    exact .of_left typed left right Op.eval_xor (by decide) isConst (unary_known right (by decide))
  · rename_i isConst
    cases found
    exact .of_left typed left right Op.eval_xor (by decide) isConst (unary_negation right (by decide))
  · rename_i isConst
    cases found
    exact .of_right typed left right Op.eval_xor (by decide) isConst (unary_known left (by decide))
  · rename_i isConst
    cases found
    exact .of_right typed left right Op.eval_xor (by decide) isConst (unary_negation left (by decide))
  · split_ifs at found with same opposite
    · cases found
      subst same
      refine .of_constant typed left right Op.eval_xor fun env x y first second => ?_
      simp [first.unique second]
    · cases found
      refine .of_constant typed left right Op.eval_xor fun env x y first second => ?_
      simp [truth_of_opposed typed opposite first second]
    · split at found
      · rename_i x y negatedA negatedB
        cases found
        have xBool := (typed.negated negatedA).2
        have yBool := (typed.negated negatedB).2
        refine .of_truths typed left right Op.eval_xor ?_ ?_ ?_ ?_
        · exact Draft.fits_ofKnown_iff.mpr ⟨⟨[.bool, .bool], .cons xBool (.cons yBool .nil), .xor⟩, nofun⟩
        · intro env s t first second
          refine Draft.value_ofKnown.mpr ⟨[.bool !s, .bool !t], ?_, by simp⟩
          exact .cons (typed.truth_negated negatedA first)
            (.cons (typed.truth_negated negatedB second) .nil)
        · simp [typed.weight_negated negatedA, typed.weight_negated negatedB]
          omega
        · simp [simplifiedInto, Pool.below_negated _ negatedA, Pool.below_negated _ negatedB]
      · cases found

theorem simplifyImplies_improves (found : simplifyImplies pool a b = some draft) :
    Improves pool .implies [a, b] .bool draft := by
  unfold simplifyImplies at found
  split at found
  · rename_i isConst
    cases found
    exact .of_left typed left right Op.eval_implies (by decide) isConst (unary_known right (by decide))
  · rename_i isConst
    cases found
    exact .of_left typed left right Op.eval_implies (by decide) isConst (unary_truth (by decide))
  · rename_i isConst
    cases found
    exact .of_right typed left right Op.eval_implies (by decide) isConst (unary_truth (by decide))
  · rename_i isConst
    cases found
    exact .of_right typed left right Op.eval_implies (by decide) isConst (unary_negation left (by decide))
  · split_ifs at found with same
    cases found
    subst same
    refine .of_constant typed left right Op.eval_implies fun env x y first second => ?_
    simp [first.unique second]

omit left right in
theorem simplifyNot_improves (isBool : pool.HasTy a .bool)
    (found : (pool.negated? a).map Draft.known = some draft) :
    Improves pool .not [a] .bool draft := by
  obtain ⟨operand, negated, rfl⟩ := Option.map_eq_some_iff.mp found
  refine ⟨⟨(typed.negated negated).2, ?_⟩, ?_, Pool.below_negated List.mem_cons_self negated⟩
  · intro env values value evaluated computed
    obtain ⟨truths, rfl, truthOf⟩ := typed.exists_truths (by simpa using isBool) evaluated
    obtain ⟨x, first, rfl⟩ := forall₂_one.mp truthOf
    obtain rfl := Except.ok.inj ((Op.eval_not x).symm.trans computed)
    exact typed.truth_negated negated first
  · simp [typed.weight_negated negated, Op.weightCost]
    omega

end Boolean

section Equality

variable {pool : Pool} {draft : Draft} {a b : ExprId} {ty : Ty} (typed : pool.WellTyped)
  (left : pool.HasTy a ty) (right : pool.HasTy b ty)
include left

theorem isBoolean_iff : isBoolean pool a ↔ ty = .bool := by
  obtain ⟨form, stored⟩ := left
  simp [isBoolean, stored, Op.isBool_iff]

include typed right

theorem simplifyEq_improves (found : simplifyEq pool a b = some draft) :
    Improves pool .eq [a, b] .bool draft := by
  unfold simplifyEq at found
  have computes : ∀ x y, Op.eval .eq [.bool x, .bool y] = .ok (.bool (x == y)) := by decide
  by_cases same : a = b
  · rw [if_pos same] at found
    cases found
    subst same
    refine ⟨⟨Draft.fits_truth true, ?_⟩, ?_, Draft.draws_truth⟩
    · intro env values value evaluated computed
      obtain ⟨x, y, first, second, rfl⟩ := forall₂_two.mp evaluated
      obtain rfl := Except.ok.inj (first.symm.trans second)
      simpa using computed
    · have := pool.weight_pos a
      simp [Op.weightCost]
      omega
  rw [if_neg same] at found
  by_cases isBool : isBoolean pool a
  · rw [if_pos isBool] at found
    obtain rfl := (isBoolean_iff left).mp isBool
    split at found
    · rename_i isConst
      cases found
      exact .of_left typed left right computes (by decide) isConst (unary_known right (by decide))
    · rename_i isConst
      cases found
      exact .of_left typed left right computes (by decide) isConst (unary_negation right (by decide))
    · rename_i isConst
      cases found
      exact .of_right typed left right computes (by decide) isConst (unary_known left (by decide))
    · rename_i isConst
      cases found
      exact .of_right typed left right computes (by decide) isConst (unary_negation left (by decide))
    · split_ifs at found with opposite
      cases found
      refine .of_constant typed left right computes fun env x y first second => ?_
      simp [truth_of_opposed typed opposite first second]
  · rw [if_neg isBool] at found
    cases found

end Equality

section Choice

variable {pool : Pool} {draft : Draft} {c t e : ExprId} {ty : Ty} (typed : pool.WellTyped)
  (condition : pool.HasTy c .bool) (whenTrue : pool.HasTy t ty) (whenFalse : pool.HasTy e ty)

include typed condition in
/-- What a proposal for a choice owes, by the values of its operands. -/
theorem Improves.of_choice (fits : draft.Fits pool ty)
    (means : ∀ ⦃env : Env⦄ ⦃decision : Bool⦄ ⦃x y : Value⦄, pool.Truth env c decision →
      pool.evaluate t env = .ok x → pool.evaluate e env = .ok y →
        draft.value pool env = .ok (if decision then x else y))
    (lighter : draft.weight pool < 2 + (pool.weight c + (pool.weight t + pool.weight e)))
    (draws : draft.Draws (pool.Below [c, t, e]) (· ∈ simplifiedInto .ite)) :
    Improves pool .ite [c, t, e] ty draft := by
  refine ⟨⟨fits, ?_⟩, by simpa [Op.weightCost] using lighter, draws⟩
  intro env values value evaluated computed
  obtain ⟨decided, x, y, first, second, third, rfl⟩ := forall₂_three.mp evaluated
  obtain ⟨decision, rfl⟩ := typed.exists_truth condition first
  obtain rfl := Except.ok.inj ((Op.eval_ite decision x y).symm.trans computed)
  exact means first second third

section Junctions

variable {left right : Draft} {env : Env} {x y : Bool}

omit typed condition whenTrue whenFalse in
theorem fits_and (leftFits : left.Fits pool .bool) (rightFits : right.Fits pool .bool) :
    (Draft.apply .and [left, right]).Fits pool .bool :=
  Draft.fits_apply_iff.mpr
    ⟨[.bool, .bool], .cons leftFits (.cons rightFits .nil), .and (by simp) (by simp), nofun⟩

theorem fits_or (leftFits : left.Fits pool .bool) (rightFits : right.Fits pool .bool) :
    (Draft.apply .or [left, right]).Fits pool .bool :=
  Draft.fits_apply_iff.mpr
    ⟨[.bool, .bool], .cons leftFits (.cons rightFits .nil), .or (by simp) (by simp), nofun⟩

theorem value_and (leftValue : left.value pool env = .ok (.bool x))
    (rightValue : right.value pool env = .ok (.bool y)) :
    (Draft.apply .and [left, right]).value pool env = .ok (.bool (x && y)) :=
  Draft.value_apply.mpr
    ⟨[.bool x, .bool y], .cons leftValue (.cons rightValue .nil), by cases x <;> cases y <;> rfl⟩

theorem value_or (leftValue : left.value pool env = .ok (.bool x))
    (rightValue : right.value pool env = .ok (.bool y)) :
    (Draft.apply .or [left, right]).value pool env = .ok (.bool (x || y)) :=
  Draft.value_apply.mpr
    ⟨[.bool x, .bool y], .cons leftValue (.cons rightValue .nil), by cases x <;> cases y <;> rfl⟩

end Junctions

include typed condition in
theorem simplifyBoolIte_improves (whenTrue : pool.HasTy t .bool) (whenFalse : pool.HasTy e .bool)
    (found : simplifyBoolIte pool c t e = some draft) :
    Improves pool .ite [c, t, e] .bool draft := by
  have improves : ∀ {draft : Draft}, draft.Fits pool .bool →
      (∀ ⦃env : Env⦄ ⦃decision x y : Bool⦄, pool.Truth env c decision → pool.Truth env t x →
        pool.Truth env e y → draft.value pool env = .ok (.bool (if decision then x else y))) →
      draft.weight pool < 2 + (pool.weight c + (pool.weight t + pool.weight e)) →
      draft.Draws (pool.Below [c, t, e]) (· ∈ simplifiedInto .ite) →
        Improves pool .ite [c, t, e] .bool draft := by
    intro draft fits means lighter draws
    refine .of_choice typed condition fits ?_ lighter draws
    intro env decision x y first second third
    obtain ⟨x, rfl⟩ := typed.exists_truth whenTrue second
    obtain ⟨y, rfl⟩ := typed.exists_truth whenFalse third
    rw [means first second third]
    cases decision <;> rfl
  have weightPos := pool.weight_pos
  unfold simplifyBoolIte at found
  split at found
  · rename_i isTrue isFalse
    cases found
    refine improves condition (fun env decision x y first second third => ?_) (by simp; omega)
      (by simp [simplifiedInto, Pool.below_of_mem])
    obtain rfl := second.unique (Pool.truth_of_truth? isTrue)
    obtain rfl := third.unique (Pool.truth_of_truth? isFalse)
    cases decision <;> exact first
  · rename_i isFalse isTrue
    cases found
    refine improves (Draft.fits_negation condition) ?_ (by simp; grind)
      (by simp [simplifiedInto, Pool.below_of_mem])
    intro env decision x y first second third
    obtain rfl := second.unique (Pool.truth_of_truth? isFalse)
    obtain rfl := third.unique (Pool.truth_of_truth? isTrue)
    cases decision <;> exact Draft.value_negation first
  · rename_i isTrue _
    cases found
    refine improves (fits_or condition whenFalse) ?_ (by simp [Op.weightCost]; grind)
      (by simp [simplifiedInto, Pool.below_of_mem])
    intro env decision x y first second third
    obtain rfl := second.unique (Pool.truth_of_truth? isTrue)
    have either := value_or (Draft.value_known.trans first) (Draft.value_known.trans third)
    cases decision <;> exact either
  · rename_i isFalse _
    cases found
    refine improves (fits_and (Draft.fits_negation condition) whenFalse) ?_
      (by simp [Op.weightCost]; grind) (by simp [simplifiedInto, Pool.below_of_mem])
    intro env decision x y first second third
    obtain rfl := second.unique (Pool.truth_of_truth? isFalse)
    have both := value_and (Draft.value_negation first) (Draft.value_known.trans third)
    cases decision <;> exact both
  · rename_i _ isTrue
    cases found
    refine improves (fits_or (Draft.fits_negation condition) whenTrue) ?_
      (by simp [Op.weightCost]; grind) (by simp [simplifiedInto, Pool.below_of_mem])
    intro env decision x y first second third
    obtain rfl := third.unique (Pool.truth_of_truth? isTrue)
    have either := value_or (Draft.value_negation first) (Draft.value_known.trans second)
    cases decision <;> exact either
  · rename_i _ isFalse
    cases found
    refine improves (fits_and condition whenTrue) ?_ (by simp [Op.weightCost]; grind)
      (by simp [simplifiedInto, Pool.below_of_mem])
    intro env decision x y first second third
    obtain rfl := third.unique (Pool.truth_of_truth? isFalse)
    have both := value_and (Draft.value_known.trans first) (Draft.value_known.trans second)
    cases decision <;> exact both
  · cases found

include typed condition whenTrue whenFalse in
theorem simplifyIte_improves (scalar : ty.isBool ∨ ty.isUint)
    (found : simplifyIte pool c t e = some draft) : Improves pool .ite [c, t, e] ty draft := by
  have weightPos := pool.weight_pos
  unfold simplifyIte at found
  split at found
  · rename_i isTrue
    cases found
    refine .of_choice typed condition whenTrue ?_ (by simp; grind) (Pool.below_of_mem (by simp))
    intro env decision x y first second third
    obtain rfl := first.unique (Pool.truth_of_truth? isTrue)
    exact second
  · rename_i isFalse
    cases found
    refine .of_choice typed condition whenFalse ?_ (by simp; grind) (Pool.below_of_mem (by simp))
    intro env decision x y first second third
    obtain rfl := first.unique (Pool.truth_of_truth? isFalse)
    exact third
  · by_cases same : t = e
    · rw [if_pos same] at found
      cases found
      subst same
      refine .of_choice typed condition whenTrue ?_ (by simp; grind) (Pool.below_of_mem (by simp))
      intro env decision x y first second third
      obtain rfl := Except.ok.inj (second.symm.trans third)
      simpa using second
    · rw [if_neg same] at found
      split at found
      · rename_i inner negated
        cases found
        refine .of_choice typed condition ?_ ?_ ?_ ?_
        · exact Draft.fits_ofKnown_iff.mpr ⟨⟨[.bool, ty, ty],
            .cons (typed.negated negated).2 (.cons whenFalse (.cons whenTrue .nil)), .ite scalar⟩,
            nofun⟩
        · intro env decision x y first second third
          refine Draft.value_ofKnown.mpr ⟨[.bool !decision, y, x],
            .cons (typed.truth_negated negated first) (.cons third (.cons second .nil)), ?_⟩
          cases decision <;> rfl
        · simp [Op.weightCost, typed.weight_negated negated]
          omega
        · simp [simplifiedInto, Pool.below_of_mem, Pool.below_negated _ negated]
      · split_ifs at found with isBool
        obtain rfl := (isBoolean_iff whenTrue).mp isBool
        exact simplifyBoolIte_improves typed condition whenTrue whenFalse found

end Choice

end Rules

end Clausal
