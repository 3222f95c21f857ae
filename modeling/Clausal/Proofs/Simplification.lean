import Mathlib
import Clausal.Proofs.JunctionRules

/-!
# Simplification

The rules for words, selections and constants, and `simplification_improves`: on
operands that fit, every operator has a proposal or none, without a fault, and a
proposal improves the application.
-/

namespace Clausal.Rules

variable {pool : Pool} {draft : Draft} {op : Op} {operands : List ExprId} {ty : Ty}

/-- No operator applies to nothing. -/
theorem nonempty_of_applies (applies : pool.Applies op operands ty) : operands ≠ [] := by
  rintro rfl
  obtain ⟨types, each, operator⟩ := applies.typed
  obtain rfl := List.forall₂_nil_left_iff.mp each
  cases operator <;> contradiction

/-- Anything of weight one is lighter than an application. -/
theorem one_lt_weight (applies : pool.Applies op operands ty) :
    1 < op.weightCost + total pool.weight operands := by
  obtain ⟨operand, member⟩ := List.exists_mem_of_ne_nil operands (nonempty_of_applies applies)
  have positive := pool.weight_pos operand
  have counted : pool.weight operand ≤ total pool.weight operands := le_total_of_mem member
  cases op <;> simp only [Op.weightCost] <;> omega

section Folding

variable (typed : pool.WellTyped) (applies : pool.Applies op operands ty)
include typed applies

/-- An operator on constants is computed. -/
theorem fold_improves {values : List Value} (constants : operands.mapM pool.constant? = some values) :
    ∃ draft, fold pool op operands values = .ok draft ∧ Improves pool op operands ty draft := by
  obtain ⟨types, each, operator⟩ := applies.typed
  have evaluated : ∀ env, List.Forall₂ (fun operand value => pool.evaluate operand env = .ok value)
      operands values := by
    intro env
    refine (mapM_eq_some_iff.mp constants).imp fun operand value found => ?_
    obtain ⟨_, stored⟩ := Pool.constant?_eq_some_iff.mp found
    exact Pool.evaluate_const stored
  obtain ⟨value, computed, admitted⟩ :=
    operator.exists_eval (typed.admitsAll each (evaluated fun _ => none))
  refine ⟨.const ty value, ?_, ⟨⟨rfl, applies.sized, admitted⟩, ?_⟩, ?_, Draft.draws_const⟩
  · simp [fold, Pool.tys_eq_ok_iff.mpr each, computed, operator.accepted.2.2, bind, Except.bind,
      pure, Except.pure]
  · intro env others other otherEvaluated otherComputed
    have same : List.Forall₂ Eq values others :=
      forall₂_join (evaluated env) otherEvaluated fun _ _ _ _ first second =>
        Except.ok.inj (first.symm.trans second)
    obtain rfl := List.forall₂_eq_eq_eq ▸ same
    rw [Draft.value_const, Except.ok.inj (computed.symm.trans otherComputed)]
  · exact one_lt_weight applies

end Folding

section Selection

variable {index : Nat} {a : ExprId} (typed : pool.WellTyped)

/-- A part of what was assembled is lighter than the whole. -/
theorem weight_part_lt {assembles : Op} {wholeTy : Ty} {parts : List ExprId} {part : ExprId}
    (stored : pool.node? a = some ⟨wholeTy, .apply assembles parts⟩) (member : part ∈ parts) :
    pool.weight part < op.weightCost + total pool.weight [a] := by
  have counted : pool.weight part ≤ total pool.weight parts := le_total_of_mem member
  have cost : 0 < op.weightCost := by cases op <;> simp [Op.weightCost]
  rw [total_cons, total_nil, Pool.weight_apply stored]
  omega

theorem below_part {assembles : Op} {wholeTy : Ty} {parts : List ExprId} {part : ExprId}
    (stored : pool.node? a = some ⟨wholeTy, .apply assembles parts⟩) (member : part ∈ parts)
    (among : a ∈ operands) : pool.Below operands part :=
  ⟨a, among, .of_operand stored member .refl⟩

include typed

/-- A bit of a word that was assembled from bits is one of these. -/
theorem simplifyBit_improves {width : Nat} (isWord : pool.HasTy a (.uint width))
    (inside : index < width) :
    ∃ proposal, simplifySelection pool .bits index a = .ok proposal ∧
      ∀ draft, proposal = some draft → Improves pool (.bit index) [a] .bool draft := by
  unfold simplifySelection
  split
  · rename_i assembled
    obtain ⟨wordTy, stored⟩ := Pool.node?_of_op? assembled
    obtain ⟨types, each, operator⟩ := (typed.fits stored).typed
    obtain rfl := isWord.unique ⟨_, stored⟩
    cases operator with
    | bits nonempty bools =>
      obtain ⟨part, found⟩ : ∃ part, (pool.operands a)[index]? = some part :=
        ⟨_, List.getElem?_eq_getElem (by rw [each.length_eq]; exact inside)⟩
      have member := List.mem_of_getElem? found
      have isBool := Pool.hasTy_bool_of_forall₂ each bools
      refine ⟨some (.known part), by simp [entry, found, bind, Except.bind, pure, Except.pure], ?_⟩
      intro draft same
      cases same
      refine ⟨⟨isBool part member, ?_⟩, weight_part_lt stored member,
        below_part stored member List.mem_cons_self⟩
      intro env values value evaluated computed
      obtain ⟨word, wordValue, rfl⟩ := forall₂_one.mp evaluated
      obtain ⟨partValues, partsEvaluated, assembledTo⟩ := (Pool.evaluate_apply stored).mp wordValue
      obtain ⟨truths, rfl, truthOf⟩ := typed.exists_truths isBool partsEvaluated
      rw [Op.eval_bits] at assembledTo
      obtain rfl := Except.ok.inj assembledTo
      obtain ⟨truth, truthFound, holds⟩ := exists_getElem?_of_forall₂ truthOf found
      rw [Op.eval_bit, testBit_numberOfBits] at computed
      obtain rfl := Except.ok.inj computed
      rw [List.getD_eq_getElem?_getD, truthFound]
      exact holds
  · exact ⟨none, rfl, by simp⟩

/-- A component of a tuple that was assembled from components is one of these. -/
theorem simplifyField_improves {fields : List Ty} (isTuple : pool.HasTy a (.tuple fields))
    (inside : fields[index]? = some ty) :
    ∃ proposal, simplifySelection pool .tuple index a = .ok proposal ∧
      ∀ draft, proposal = some draft → Improves pool (.field index) [a] ty draft := by
  unfold simplifySelection
  split
  · rename_i assembled
    obtain ⟨tupleTy, stored⟩ := Pool.node?_of_op? assembled
    obtain ⟨types, each, operator⟩ := (typed.fits stored).typed
    obtain rfl := isTuple.unique ⟨_, stored⟩
    cases operator with
    | tuple nonempty =>
      obtain ⟨part, found, hasTy⟩ := exists_getElem?_of_forall₂ each.flip inside
      have member := List.mem_of_getElem? found
      refine ⟨some (.known part), by simp [entry, found, bind, Except.bind, pure, Except.pure], ?_⟩
      intro draft same
      cases same
      refine ⟨⟨hasTy, ?_⟩, weight_part_lt stored member,
        below_part stored member List.mem_cons_self⟩
      intro env values value evaluated computed
      obtain ⟨tuple, tupleValue, rfl⟩ := forall₂_one.mp evaluated
      obtain ⟨partValues, partsEvaluated, assembledTo⟩ := (Pool.evaluate_apply stored).mp tupleValue
      obtain rfl := Except.ok.inj ((Op.eval_tuple partValues).symm.trans assembledTo)
      obtain ⟨partValue, valueFound, partValueHolds⟩ :=
        exists_getElem?_of_forall₂ partsEvaluated found
      obtain rfl := Except.ok.inj ((Op.eval_field valueFound).symm.trans computed)
      exact partValueHolds
  · exact ⟨none, rfl, by simp⟩

end Selection

section Bits

variable {source : ExprId} (typed : pool.WellTyped)

theorem width?_eq_some_iff {width : Nat} :
    width? pool source = some width ↔ pool.HasTy source (.uint width) := by
  unfold width? Pool.HasTy
  cases found : pool.node? source with
  | none => simp
  | some node =>
    obtain ⟨ty, form⟩ := node
    cases ty <;> simp [Ty.width?]

/-- The value of a word with a value is a number of its width. -/
theorem exists_number (typed : pool.WellTyped) {width : Nat}
    (isWord : pool.HasTy source (.uint width)) {env : Env} {value : Value}
    (evaluated : pool.evaluate source env = .ok value) :
    ∃ number, value = .uint number ∧ number < 2 ^ width :=
  Ty.admits_uint_iff.mp (typed.admits isWord evaluated)

include typed

/-- A bit of a word that has a value. -/
theorem exists_testBit {e : ExprId} {index : Nat} (selects : pool.op? e = some (.bit index))
    (from_source : (pool.operands e).head? = some source) {env : Env} {truth : Bool}
    (holds : pool.Truth env e truth) :
    ∃ number, pool.evaluate source env = .ok (.uint number) ∧ truth = number.testBit index := by
  obtain ⟨bitTy, stored⟩ := Pool.node?_of_op? selects
  obtain ⟨types, each, operator⟩ := (typed.fits stored).typed
  cases operator with
  | bit inside =>
    obtain ⟨operand, isWord, only⟩ := forall₂_one.mp each.flip
    rw [only] at from_source
    cases from_source
    obtain ⟨values, evaluated, computed⟩ := (Pool.evaluate_apply stored).mp holds
    rw [only] at evaluated
    obtain ⟨value, sourceValue, rfl⟩ := forall₂_one.mp evaluated
    obtain ⟨number, rfl, -⟩ := exists_number typed isWord sourceValue
    rw [Op.eval_bit] at computed
    exact ⟨number, sourceValue, (Value.bool.inj (Except.ok.inj computed)).symm⟩

/-- The truth values of the bits of a word are its digits. -/
theorem truths_eq_of_areBitsOf {position : Nat} {operands : List ExprId}
    (bits : areBitsOf pool source position operands) {env : Env} {number : Nat}
    (sourceValue : pool.evaluate source env = .ok (.uint number)) {truths : List Bool}
    (each : List.Forall₂ (pool.Truth env) operands truths) :
    truths = (List.range' position operands.length).map number.testBit := by
  induction each generalizing position with
  | nil => rfl
  | @cons e truth operands truths holds _ inductionHypothesis =>
    simp only [areBitsOf, Bool.and_eq_true, beq_iff_eq] at bits
    obtain ⟨⟨selects, from_source⟩, rest⟩ := bits
    obtain ⟨own, ownValue, rfl⟩ := exists_testBit typed selects from_source holds
    obtain rfl := Value.uint.inj (Except.ok.inj (sourceValue.symm.trans ownValue))
    rw [List.length_cons, List.range'_succ, List.map_cons, inductionHypothesis rest]

/-- The proposal for a word that is assembled from all its bits in order. -/
theorem improves_source {first : ExprId} {rest : List ExprId} {bitTy : Ty}
    (applies : pool.Applies .bits (first :: rest) ty)
    (stored : pool.node? first = some ⟨bitTy, .apply (.bit 0) [source]⟩)
    (isWord : pool.HasTy source (.uint (first :: rest).length))
    (bits : areBitsOf pool source 0 (first :: rest)) :
    Improves pool .bits (first :: rest) ty (.known source) := by
  obtain ⟨types, each, operator⟩ := applies.typed
  cases operator with
  | bits nonempty bools =>
    have sameLength := each.length_eq
    refine ⟨⟨sameLength ▸ isWord, ?_⟩, ?_, below_part stored List.mem_cons_self List.mem_cons_self⟩
    · intro env values value evaluated computed
      obtain ⟨truths, rfl, truthOf⟩ :=
        typed.exists_truths (Pool.hasTy_bool_of_forall₂ each bools) evaluated
      obtain ⟨truth, others, holds, -, -⟩ := List.forall₂_cons_left_iff.mp truthOf
      have head : (pool.operands first).head? = some source := by
        simp [Pool.operands_of_node? stored]
      obtain ⟨number, sourceValue, -⟩ := exists_testBit typed (Pool.op?_of_apply stored) head holds
      obtain ⟨_, same, small⟩ := exists_number typed isWord sourceValue
      obtain rfl := Value.uint.inj same
      rw [Op.eval_bits, truths_eq_of_areBitsOf typed bits sourceValue truthOf,
        ← List.range_eq_range'] at computed
      obtain rfl := Except.ok.inj computed
      rw [Draft.value_known, sourceValue]
      exact congrArg (fun number => Except.ok (Value.uint number))
        ((numberOfBits_bitsOfNumber _ _).trans (Nat.mod_eq_of_lt small)).symm
    · have := Pool.weight_apply stored
      simp only [Op.weightCost, total_cons, total_nil, Draft.weight_known] at *
      omega

/-- The rules for `bits`. -/
theorem simplifyBits_improves (applies : pool.Applies .bits operands ty) :
    ∃ proposal, simplifyBits pool operands = .ok proposal ∧
      ∀ draft, proposal = some draft → Improves pool .bits operands ty draft := by
  obtain ⟨first, rest, rfl⟩ := List.exists_cons_of_ne_nil (nonempty_of_applies applies)
  by_cases selects : pool.op? first = some (.bit 0)
  · obtain ⟨bitTy, stored⟩ := Pool.node?_of_op? selects
    obtain ⟨types, each, operator⟩ := (typed.fits stored).typed
    cases operator with
    | bit inside =>
      obtain ⟨source, -, only⟩ := forall₂_one.mp each.flip
      rw [only] at stored
      by_cases assembled : width? pool source = some (first :: rest).length ∧
          areBitsOf pool source 0 (first :: rest)
      · refine ⟨some (.known source), ?_, fun draft same => ?_⟩
        · unfold simplifyBits
          simp [entry, selects, only, assembled, bind, Except.bind, pure, Except.pure]
        · cases same
          exact improves_source typed applies stored (width?_eq_some_iff.mp assembled.1) assembled.2
      · refine ⟨none, ?_, by simp⟩
        unfold simplifyBits
        simpa [entry, selects, only, bind, Except.bind, pure, Except.pure] using assembled
  · refine ⟨none, ?_, by simp⟩
    unfold simplifyBits
    simp [entry, selects, bind, Except.bind, pure, Except.pure]

end Bits

section Arithmetic

variable {width left right : Nat} {a b : ExprId} (typed : pool.WellTyped)
  (leftWord : pool.HasTy a (.uint left)) (rightWord : pool.HasTy b (.uint right))

theorem isNumber_iff {number : Nat} :
    isNumber pool a number ↔ pool.constant? a = some (.uint number) := by
  simp [isNumber]

/-- A constant has the number that is found in it. -/
theorem evaluate_of_isNumber {number : Nat} (found : isNumber pool a number) (env : Env) :
    pool.evaluate a env = .ok (.uint number) := by
  obtain ⟨_, stored⟩ := Pool.constant?_eq_some_iff.mp (isNumber_iff.mp found)
  exact Pool.evaluate_const stored

include typed leftWord rightWord

/-- What a proposal for an arithmetic operator owes, by the numbers of its
operands. -/
theorem Improves.of_numbers {operation : Nat → Nat → Nat}
    (computes : ∀ x y, op.eval [.uint x, .uint y] = .ok (.uint (operation x y)))
    (fits : draft.Fits pool (.uint width))
    (means : ∀ ⦃env : Env⦄ ⦃x y : Nat⦄, pool.evaluate a env = .ok (.uint x) → x < 2 ^ left →
      pool.evaluate b env = .ok (.uint y) → y < 2 ^ right →
        draft.value pool env = .ok (.uint (operation x y)))
    (light : draft.weight pool ≤ pool.weight a + pool.weight b)
    (draws : draft.Draws (· ∈ [a, b]) fun _ => False) :
    Improves pool op [a, b] (.uint width) draft := by
  refine ⟨⟨fits, ?_⟩, ?_, draws.imp (fun _ => Pool.below_of_mem) nofun⟩
  · intro env values value evaluated computed
    obtain ⟨first, second, firstValue, secondValue, rfl⟩ := forall₂_two.mp evaluated
    obtain ⟨x, rfl, small⟩ := exists_number typed leftWord firstValue
    obtain ⟨y, rfl, otherSmall⟩ := exists_number typed rightWord secondValue
    obtain rfl := Except.ok.inj ((computes x y).symm.trans computed)
    exact means firstValue small secondValue otherSmall
  · have cost : 0 < op.weightCost := by cases op <;> simp [Op.weightCost]
    simp only [total_cons, total_nil]
    omega

/-- The rules for `add`. -/
theorem simplifyAdd_improves (found : simplifyAdd pool width a b = some draft) :
    Improves pool (.add width) [a, b] (.uint width) draft := by
  unfold simplifyAdd at found
  split_ifs at found with leftZero rightZero
  · obtain ⟨zero, sameWidth⟩ := leftZero
    cases found
    have isWord := width?_eq_some_iff.mp sameWidth
    obtain rfl := Ty.uint.inj (rightWord.unique isWord)
    refine .of_numbers typed leftWord rightWord (Op.eval_add right) isWord ?_ (by simp) (by simp)
    intro env x y first _ second small
    obtain rfl := Value.uint.inj (Except.ok.inj (first.symm.trans (evaluate_of_isNumber zero env)))
    rw [Draft.value_known, second, Nat.zero_add, Nat.mod_eq_of_lt small]
  · obtain ⟨zero, sameWidth⟩ := rightZero
    cases found
    have isWord := width?_eq_some_iff.mp sameWidth
    obtain rfl := Ty.uint.inj (leftWord.unique isWord)
    refine .of_numbers typed leftWord rightWord (Op.eval_add left) isWord ?_ (by simp) (by simp)
    intro env x y first small second _
    obtain rfl := Value.uint.inj (Except.ok.inj (second.symm.trans (evaluate_of_isNumber zero env)))
    rw [Draft.value_known, first, Nat.add_zero, Nat.mod_eq_of_lt small]

omit typed leftWord in
/-- The proposals for a constant factor: zero, or the other factor if nothing is
cut off from it. -/
theorem simplifyMulBy_cases (positive : 0 < width)
    (found : simplifyMulBy pool width a b = some draft) :
    ∃ factor, isNumber pool a factor ∧ draft.Fits pool (.uint width) ∧
      draft.weight pool ≤ pool.weight b ∧ draft.Draws (· = b) (fun _ => False) ∧
        ∀ ⦃env : Env⦄ ⦃y : Nat⦄, pool.evaluate b env = .ok (.uint y) → y < 2 ^ right →
          draft.value pool env = .ok (.uint (factor * y % 2 ^ width)) := by
  unfold simplifyMulBy at found
  split_ifs at found with zero one
  · cases found
    refine ⟨0, zero, ⟨rfl, positive, by positivity⟩, pool.weight_pos b, Draft.draws_word, ?_⟩
    intro env y _ _
    simp
  · obtain ⟨one, sameWidth⟩ := one
    cases found
    have isWord := width?_eq_some_iff.mp sameWidth
    obtain rfl := Ty.uint.inj (rightWord.unique isWord)
    refine ⟨1, one, isWord, le_rfl, rfl, ?_⟩
    intro env y evaluated small
    rw [Draft.value_known, evaluated, Nat.one_mul, Nat.mod_eq_of_lt small]

/-- The rules for `mul`. -/
theorem simplifyMul_improves (positive : 0 < width)
    (found : simplifyMul pool width a b = some draft) :
    Improves pool (.mul width) [a, b] (.uint width) draft := by
  unfold simplifyMul at found
  rcases Option.or_eq_some_iff.mp found with byLeft | ⟨-, byRight⟩
  · obtain ⟨factor, isConst, fits, light, draws, means⟩ :=
      simplifyMulBy_cases rightWord positive byLeft
    refine .of_numbers typed leftWord rightWord (Op.eval_mul width) fits ?_ (by omega)
      (draws.imp (by simp) nofun)
    intro env x y first _ second small
    obtain rfl :=
      Value.uint.inj (Except.ok.inj (first.symm.trans (evaluate_of_isNumber isConst env)))
    exact means second small
  · obtain ⟨factor, isConst, fits, light, draws, means⟩ :=
      simplifyMulBy_cases leftWord positive byRight
    refine .of_numbers typed leftWord rightWord (Op.eval_mul width) fits ?_ (by omega)
      (draws.imp (by simp) nofun)
    intro env x y first small second _
    obtain rfl :=
      Value.uint.inj (Except.ok.inj (second.symm.trans (evaluate_of_isNumber isConst env)))
    rw [means first small, Nat.mul_comm]

end Arithmetic

/-- On operands that fit, simplification does not fail, and what it proposes
improves the application. -/
theorem simplification_improves (typed : pool.WellTyped) (applies : pool.Applies op operands ty) :
    ∃ proposal, simplification pool op operands = .ok proposal ∧
      ∀ draft, proposal = some draft → Improves pool op operands ty draft := by
  unfold simplification
  split
  · rename_i values constants
    obtain ⟨draft, folded, improves⟩ := fold_improves typed applies constants
    refine ⟨some draft, by simp [folded, bind, Except.bind, pure, Except.pure], ?_⟩
    rintro _ ⟨⟩
    exact improves
  · obtain ⟨types, each, operator⟩ := applies.typed
    cases operator with
    | not =>
      obtain ⟨a, isBool, rfl⟩ := forall₂_one.mp each.flip
      exact ⟨_, rfl, fun draft found => simplifyNot_improves typed isBool found⟩
    | and nonempty bools =>
      exact ⟨_, rfl, fun draft found => simplifyJunction_improves typed applies (.inl rfl) found⟩
    | or nonempty bools =>
      exact ⟨_, rfl, fun draft found => simplifyJunction_improves typed applies (.inr rfl) found⟩
    | clause nonempty bools =>
      exact ⟨_, rfl, fun draft found => simplifyClause_improves typed applies found⟩
    | xor =>
      obtain ⟨a, b, left, right, rfl⟩ := forall₂_two.mp each.flip
      exact ⟨_, rfl, fun draft found => simplifyXor_improves typed left right found⟩
    | implies =>
      obtain ⟨a, b, left, right, rfl⟩ := forall₂_two.mp each.flip
      exact ⟨_, rfl, fun draft found => simplifyImplies_improves typed left right found⟩
    | ite scalar =>
      obtain ⟨c, t, e, condition, whenTrue, whenFalse, rfl⟩ := forall₂_three.mp each.flip
      exact ⟨_, rfl, fun draft found =>
        simplifyIte_improves typed condition whenTrue whenFalse scalar found⟩
    | eq operandTy =>
      obtain ⟨a, b, left, right, rfl⟩ := forall₂_two.mp each.flip
      exact ⟨_, rfl, fun draft found => simplifyEq_improves typed left right found⟩
    | bit inside =>
      obtain ⟨a, isWord, rfl⟩ := forall₂_one.mp each.flip
      exact simplifyBit_improves typed isWord inside
    | bits nonempty bools => exact simplifyBits_improves typed applies
    | add positive left right =>
      obtain ⟨a, b, leftWord, rightWord, rfl⟩ := forall₂_two.mp each.flip
      exact ⟨_, rfl, fun draft found => simplifyAdd_improves typed leftWord rightWord found⟩
    | mul positive left right =>
      obtain ⟨a, b, leftWord, rightWord, rfl⟩ := forall₂_two.mp each.flip
      exact ⟨_, rfl, fun draft found =>
        simplifyMul_improves typed leftWord rightWord positive found⟩
    | tuple nonempty => exact ⟨none, rfl, nofun⟩
    | field found =>
      obtain ⟨a, isTuple, rfl⟩ := forall₂_one.mp each.flip
      exact simplifyField_improves typed isTuple found

end Clausal.Rules
