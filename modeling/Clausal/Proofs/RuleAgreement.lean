import Mathlib
import Clausal.Rules.Negate
import Clausal.Proofs.Canonical
import Clausal.Proofs.JunctionAgreement
import Clausal.Proofs.Ordering

/-!
# Rules cannot tell matching expressions apart

A rule looks at the nodes of expressions, follows operands and compares names, and
matching expressions of two pools are the same in all of this, up to the order of
the operands of free operators. So a rule proposes the same draft for both, up to
the names of the expressions in it and up to that order. Alike expressions match
without free operators, and then the drafts have the same tree.
-/

namespace Clausal

namespace Pools

/-- Varied expressions have the same values. -/
theorem Varied.evaluate {pools : Pools} {free : Op → Prop} {a b : ExprId} {env : Env} {value : Value}
    (commutative : ∀ {op}, free op → op.isCommutative) (varied : pools.Varied free a b)
    (evaluated : pools.left.evaluate a env = .ok value) :
    pools.right.evaluate b env = .ok value := by
  have stored := varied.left
  induction stored using Pool.Has.induction generalizing b value with
  | step a node found inductionHypothesis =>
    cases varied.matched commutative with
    | var left right =>
      rw [Pool.evaluate_var left] at evaluated
      rwa [Pool.evaluate_var right]
    | const left right =>
      rwa [Pool.evaluate_const left, ← Pool.evaluate_const right] at evaluated
    | @apply ty op xs ys left right aligned =>
      rw [left] at found
      cases found
      obtain ⟨values, each, computed⟩ := (Pool.evaluate_apply left).mp evaluated
      have means : ∀ {zs}, List.Forall₂ (pools.Varied free) xs zs →
          List.Forall₂ (fun z value => pools.right.evaluate z env = .ok value) zs values := fun along =>
        forall₂_join along each fun x member z value varied evaluated =>
          inductionHypothesis x member varied evaluated
      by_cases isFree : free op
      · obtain ⟨zs, along, perm⟩ := aligned.reordered
        -- both orders have the same type, so each may take the place of the other
        have fits := (Rules.replaces_of_perm pools.rightTyped (pools.rightTyped.fits right) perm
          (commutative isFree)).fits
        have applies : pools.right.Applies op zs ty := Draft.fits_ofKnown_iff.mp fits
        have replaces :=
          Rules.replaces_of_perm pools.rightTyped applies perm.symm (commutative isFree)
        exact (Pool.evaluate_apply right).mpr
          (Draft.value_ofKnown.mp (replaces.means (means along) computed))
      · exact (Pool.evaluate_apply right).mpr ⟨values, means (aligned.inOrder isFree), computed⟩

end Pools

namespace Rules

open Pools

variable {pools : Pools} {free : Op → Prop} {related : ExprId → ExprId → Prop}
  {a b c x y z : ExprId} {xs ys : List ExprId} {op : Op}

section Order

variable {pool : Pool}

theorem truth?_eq_none_of_constant? {e : ExprId} (unfixed : pool.constant? e = none) :
    pool.truth? e = none := by
  cases found : pool.truth? e with
  | none => rfl
  | some truth =>
    obtain ⟨ty, stored⟩ := Pool.truth?_eq_some_iff.mp found
    rw [Pool.constant?_eq_some_iff.mpr ⟨ty, stored⟩] at unfixed
    cases unfixed

theorem opposed_swap (pool : Pool) (x y : ExprId) : opposed pool y x = opposed pool x y :=
  Bool.or_comm _ _

theorem unfixed_of_mapM (constants : [y, x].mapM pool.constant? = none) :
    pool.constant? x = none ∨ pool.constant? y = none := by
  obtain ⟨e, member, unfixed⟩ := exists_of_mapM_eq_none constants
  rcases List.mem_pair.mp member with rfl | rfl
  · exact .inr unfixed
  · exact .inl unfixed

variable (unfixed : pool.constant? x = none ∨ pool.constant? y = none)
include unfixed

/-- The rules for `xor` propose the same for operands in the other order, up to the
order. -/
theorem simplifyXor_swap :
    simplifyXor pool y x = simplifyXor pool x y ∨
      ∃ p q, simplifyXor pool x y = some (.ofKnown .xor [p, q]) ∧
        simplifyXor pool y x = some (.ofKnown .xor [q, p]) := by
  have noTruths := unfixed.imp truth?_eq_none_of_constant? truth?_eq_none_of_constant?
  simp only [simplifyXor, opposed_swap pool x y, @eq_comm _ y x]
  generalize pool.truth? x = s, pool.truth? y = t at noTruths ⊢
  rcases s with _ | ⟨_ | _⟩ <;> rcases t with _ | ⟨_ | _⟩
  case none.none =>
    dsimp only
    split_ifs
    · exact .inl rfl
    · exact .inl rfl
    · cases pool.negated? x with
      | none => cases pool.negated? y <;> exact .inl rfl
      | some p =>
        cases pool.negated? y with
        | none => exact .inl rfl
        | some q => exact .inr ⟨p, q, rfl, rfl⟩
  -- at most one operand is a constant
  all_goals first | exact .inl rfl | simp at noTruths

theorem simplifyEq_swap (sameTy : isBoolean pool x = isBoolean pool y) :
    simplifyEq pool y x = simplifyEq pool x y := by
  have noTruths := unfixed.imp truth?_eq_none_of_constant? truth?_eq_none_of_constant?
  simp only [simplifyEq, sameTy, opposed_swap pool x y, @eq_comm _ y x]
  generalize pool.truth? x = s, pool.truth? y = t at noTruths ⊢
  rcases noTruths with rfl | rfl
  · rcases t with _ | ⟨_ | _⟩ <;> rfl
  · rcases s with _ | ⟨_ | _⟩ <;> rfl

theorem simplifyAdd_swap {width : Nat} : simplifyAdd pool width y x = simplifyAdd pool width x y := by
  have apart : ¬ (isNumber pool x 0 ∧ isNumber pool y 0) := by
    rcases unfixed with none | none <;> simp [isNumber, none]
  unfold simplifyAdd
  split_ifs <;> simp_all

end Order

section Operands

theorem isBoolean_eq_of_hasTy {pool : Pool} {ty : Ty} (left : pool.HasTy a ty) (right : pool.HasTy b ty) :
    isBoolean pool a = isBoolean pool b := by
  rw [Bool.eq_iff_iff, isBoolean_iff left, isBoolean_iff right]

theorem isBoolean_eq_of_matched (matched : pools.Matched free related a x) :
    isBoolean pools.left a = isBoolean pools.right x := by
  cases matched with
  | var left right | const left right | apply left right => simp [isBoolean, left, right]

theorem width?_eq_of_matched (matched : pools.Matched free related a x) :
    width? pools.left a = width? pools.right x := by
  cases matched with
  | var left right | const left right | apply left right => simp [width?, left, right]

theorem isNumber_eq_of_matched {number : Nat} (matched : pools.Matched free related a x) :
    isNumber pools.left a number = isNumber pools.right x number := by
  simp only [isNumber, matched.constant?_eq]

variable (matching : pools.Matching free related) (first : related a x)
include matching first

/-- A part is selected from related expressions alike, since parts stay in order. -/
theorem simplifySelection_varied {assembles : Op} {index : Nat} {proposal other : Option Draft}
    (strict : ¬ free assembles) (left : simplifySelection pools.left assembles index a = .ok proposal)
    (right : simplifySelection pools.right assembles index x = .ok other) :
    pools.VariedProposal free proposal other := by
  have matched := matching.matched first
  unfold simplifySelection at left right
  rw [matched.op?_eq] at left
  split at left
  · rename_i assembled
    rw [if_pos assembled] at right
    obtain ⟨part, isPart, left⟩ := bind_eq_ok_iff.mp left
    obtain ⟨otherPart, isOtherPart, right⟩ := bind_eq_ok_iff.mp right
    cases left
    cases right
    have operands := matched.operands_inOrder strict (matched.op?_eq.trans assembled)
    exact .some (.known (matching.varied (rel_of_entry operands isPart isOtherPart)))
  · rename_i notAssembled
    rw [if_neg notAssembled] at right
    cases left
    cases right
    exact .none

variable (second : related b y)
include second

theorem opposed_eq_of_related (interchange : Op.Interchange free) :
    opposed pools.left a b = opposed pools.right x y := by
  have matches_iff : ∀ {a b x y}, related a x → related b y →
      (pools.left.negated? a = some b ↔ pools.right.negated? x = some y) := by
    intro a b x y first second
    have inner := (matching.matched first).negated? interchange
    revert inner
    generalize pools.left.negated? a = left, pools.right.negated? x = right
    rintro (@⟨_, _, inner⟩ | _)
    · simpa using matching.eq_iff inner second
    · simp
  rw [Bool.eq_iff_iff]
  simp only [opposed, Bool.or_eq_true, beq_iff_eq, matches_iff first second, matches_iff second first]

theorem simplifyXor_varied (interchange : Op.Interchange free) :
    pools.VariedProposal free (simplifyXor pools.left a b) (simplifyXor pools.right x y) := by
  have firstMatched := matching.matched first
  have secondMatched := matching.matched second
  unfold simplifyXor
  rw [firstMatched.truth?_eq, secondMatched.truth?_eq]
  generalize pools.right.truth? x = s, pools.right.truth? y = t
  rcases s with _ | ⟨_ | _⟩
  · rcases t with _ | ⟨_ | _⟩
    · simp only [matching.eq_iff first second,
        opposed_eq_of_related matching first second interchange]
      split
      · exact .some (.truth _)
      · split
        · exact .some (.truth _)
        · have left := firstMatched.negated? interchange
          have right := secondMatched.negated? interchange
          revert left right
          generalize pools.left.negated? a = p, pools.right.negated? x = q, pools.left.negated? b = r,
            pools.right.negated? y = s
          rintro (@⟨_, _, left⟩ | _) (@⟨_, _, right⟩ | _)
          · exact .some (.ofKnown _ (.of_forall₂ (.cons (matching.varied left)
              (.cons (matching.varied right) .nil))))
          · exact .none
          · exact .none
          · exact .none
    · exact .some (.known (matching.varied first))
    · exact .some (.negation (matching.varied first))
  · exact .some (.known (matching.varied second))
  · exact .some (.negation (matching.varied second))

theorem simplifyEq_varied (interchange : Op.Interchange free) :
    pools.VariedProposal free (simplifyEq pools.left a b) (simplifyEq pools.right x y) := by
  have firstMatched := matching.matched first
  have secondMatched := matching.matched second
  simp only [simplifyEq, matching.eq_iff first second, isBoolean_eq_of_matched firstMatched,
    opposed_eq_of_related matching first second interchange, firstMatched.truth?_eq,
    secondMatched.truth?_eq]
  generalize pools.right.truth? x = s, pools.right.truth? y = t
  split
  · exact .some (.truth _)
  · split
    · rcases s with _ | ⟨_ | _⟩
      · rcases t with _ | ⟨_ | _⟩
        · dsimp only
          split
          · exact .some (.truth _)
          · exact .none
        · exact .some (.negation (matching.varied first))
        · exact .some (.known (matching.varied first))
      · exact .some (.negation (matching.varied second))
      · exact .some (.known (matching.varied second))
    · exact .none

/-- Where `xor` is free, its operands may also be in the other order. -/
theorem simplifyXor_varied_swap (interchange : Op.Interchange free) (isFree : free .xor)
    (unfixed : pools.right.constant? x = none ∨ pools.right.constant? y = none) :
    pools.VariedProposal free (simplifyXor pools.left a b) (simplifyXor pools.right y x) := by
  have proposals := simplifyXor_varied matching first second interchange
  rcases simplifyXor_swap unfixed with same | ⟨p, q, inOrder, swapped⟩
  · rwa [same]
  · rw [inOrder] at proposals
    rw [swapped]
    generalize simplifyXor pools.left a b = proposal at proposals ⊢
    cases proposals with
    | some draft => exact .some (draft.reorder isFree (.swap _ _ _))

theorem simplifyImplies_varied :
    pools.VariedProposal free (simplifyImplies pools.left a b) (simplifyImplies pools.right x y) := by
  unfold simplifyImplies
  rw [(matching.matched first).truth?_eq, (matching.matched second).truth?_eq]
  generalize pools.right.truth? x = s, pools.right.truth? y = t
  rcases s with _ | ⟨_ | _⟩
  · rcases t with _ | ⟨_ | _⟩
    · simp only [matching.eq_iff first second]
      split
      · exact .some (.truth _)
      · exact .none
    · exact .some (.negation (matching.varied first))
    · exact .some (.truth _)
  · exact .some (.truth _)
  · exact .some (.known (matching.varied second))

theorem simplifyAdd_varied {width : Nat} :
    pools.VariedProposal free (simplifyAdd pools.left width a b)
      (simplifyAdd pools.right width x y) := by
  have firstMatched := matching.matched first
  have secondMatched := matching.matched second
  simp only [simplifyAdd, isNumber_eq_of_matched firstMatched, isNumber_eq_of_matched secondMatched,
    width?_eq_of_matched firstMatched, width?_eq_of_matched secondMatched]
  split
  · exact .some (.known (matching.varied second))
  · split
    · exact .some (.known (matching.varied first))
    · exact .none

theorem simplifyMulBy_varied {width : Nat} :
    pools.VariedProposal free (simplifyMulBy pools.left width a b)
      (simplifyMulBy pools.right width x y) := by
  simp only [simplifyMulBy, isNumber_eq_of_matched (matching.matched first),
    width?_eq_of_matched (matching.matched second)]
  split
  · exact .some (.word _ _)
  · split
    · exact .some (.known (matching.varied second))
    · exact .none

theorem simplifyMul_varied {width : Nat} :
    pools.VariedProposal free (simplifyMul pools.left width a b)
      (simplifyMul pools.right width x y) := by
  have forwards : pools.VariedProposal free (simplifyMulBy pools.left width a b)
    (simplifyMulBy pools.right width x y) := simplifyMulBy_varied matching first second
  unfold simplifyMul
  revert forwards
  generalize simplifyMulBy pools.left width a b = p, simplifyMulBy pools.right width x y = q
  rintro (@⟨_, _, same⟩ | _)
  · exact .some same
  · exact simplifyMulBy_varied matching second first

variable (third : related c z)
include third

theorem simplifyBoolIte_varied :
    pools.VariedProposal free (simplifyBoolIte pools.left a b c)
      (simplifyBoolIte pools.right x y z) := by
  have firstVaried := matching.varied first
  have secondVaried := matching.varied second
  have thirdVaried := matching.varied third
  unfold simplifyBoolIte
  rw [(matching.matched second).truth?_eq, (matching.matched third).truth?_eq]
  generalize pools.right.truth? y = s, pools.right.truth? z = t
  rcases s with _ | ⟨_ | _⟩ <;> rcases t with _ | ⟨_ | _⟩
  · exact .none
  · exact .some (.ofKnown _ (.of_forall₂ (.cons firstVaried (.cons secondVaried .nil))))
  · exact .some (.apply _ (.of_forall₂ (.cons (.negation firstVaried) (.cons (.known secondVaried) .nil))))
  · exact .some (.apply _ (.of_forall₂ (.cons (.negation firstVaried) (.cons (.known thirdVaried) .nil))))
  · exact .none
  · exact .some (.negation firstVaried)
  · exact .some (.ofKnown _ (.of_forall₂ (.cons firstVaried (.cons thirdVaried .nil))))
  · exact .some (.known firstVaried)
  · exact .none

theorem simplifyIte_varied (interchange : Op.Interchange free) :
    pools.VariedProposal free (simplifyIte pools.left a b c) (simplifyIte pools.right x y z) := by
  have firstMatched := matching.matched first
  simp only [simplifyIte, firstMatched.truth?_eq, matching.eq_iff second third,
    isBoolean_eq_of_matched (matching.matched second)]
  generalize pools.right.truth? x = s
  rcases s with _ | ⟨_ | _⟩
  · dsimp only
    split
    · exact .some (.known (matching.varied second))
    · have inner := firstMatched.negated? interchange
      revert inner
      generalize pools.left.negated? a = p, pools.right.negated? x = q
      rintro (@⟨_, _, inner⟩ | _)
      · exact .some (.ofKnown _ (.of_forall₂ (.cons (matching.varied inner)
          (.cons (matching.varied third) (.cons (matching.varied second) .nil)))))
      · dsimp only
        split
        · exact simplifyBoolIte_varied matching first second third
        · exact .none
  · exact .some (.known (matching.varied third))
  · exact .some (.known (matching.varied second))

end Operands

section Words

theorem areBitsOf_eq_of_related {position : Nat} (matching : pools.Matching free related)
    (interchange : Op.Interchange free) (source : related a x) (each : List.Forall₂ related xs ys) :
    areBitsOf pools.left a position xs = areBitsOf pools.right x position ys := by
  induction each generalizing position with
  | nil => rfl
  | @cons bit other _ _ first _ inductionHypothesis =>
    have matched := matching.matched first
    simp only [areBitsOf, matched.op?_eq, inductionHypothesis]
    by_cases isBit : pools.right.op? other = some (.bit position)
    · have heads := matched.operands_inOrder (interchange.not_free rfl)
        (matched.op?_eq.trans isBit)
      revert heads
      generalize pools.left.operands _ = left, pools.right.operands _ = right
      rintro (_ | ⟨head, _⟩)
      · rfl
      · have same := matching.eq_iff head source
        simp only [List.head?_cons, beq_eq_decide, Option.some.injEq, same]
    · rw [beq_eq_false_iff_ne.mpr isBit, Bool.false_and, Bool.false_and, Bool.false_and, Bool.false_and]

theorem simplifyBits_varied {proposal other : Option Draft} (matching : pools.Matching free related)
    (interchange : Op.Interchange free) (each : List.Forall₂ related xs ys)
    (left : simplifyBits pools.left xs = .ok proposal)
    (right : simplifyBits pools.right ys = .ok other) : pools.VariedProposal free proposal other := by
  obtain ⟨first, isFirst, left⟩ := bind_eq_ok_iff.mp left
  obtain ⟨otherFirst, isOtherFirst, right⟩ := bind_eq_ok_iff.mp right
  have matched := matching.matched (rel_of_entry each isFirst isOtherFirst)
  rw [matched.op?_eq] at left
  split at left
  · rename_i isBit
    rw [if_pos isBit] at right
    obtain ⟨source, isSource, left⟩ := bind_eq_ok_iff.mp left
    obtain ⟨otherSource, isOtherSource, right⟩ := bind_eq_ok_iff.mp right
    have operands := matched.operands_inOrder (interchange.not_free rfl)
      (matched.op?_eq.trans isBit)
    have sources := rel_of_entry operands isSource isOtherSource
    rw [width?_eq_of_matched (matching.matched sources),
      areBitsOf_eq_of_related matching interchange sources each, each.length_eq] at left
    split at left
    · rename_i whole
      rw [if_pos whole] at right
      cases left
      cases right
      exact .some (.known (matching.varied sources))
    · rename_i notWhole
      rw [if_neg notWhole] at right
      cases left
      cases right
      exact .none
  · rename_i notBit
    rw [if_neg notBit] at right
    cases left
    cases right
    exact .none

end Words

section Rules

/-- A computed application is the constant of its type and value. -/
theorem exists_const_of_fold {pool : Pool} {e : ExprId} {ty : Ty} {values : List Value} {draft : Draft}
    (typed : pool.WellTyped) (stored : pool.node? e = some ⟨ty, .apply op xs⟩)
    (constants : xs.mapM pool.constant? = some values) (folded : fold pool op xs values = .ok draft) :
    ∃ value, draft = .const ty value ∧ ∀ env, pool.evaluate e env = .ok value := by
  obtain ⟨types, hasTys, operator⟩ := (typed.fits stored).typed
  obtain ⟨others, isTypes, folded⟩ := bind_eq_ok_iff.mp folded
  obtain ⟨value, computed, folded⟩ := bind_eq_ok_iff.mp folded
  obtain ⟨otherTy, isTy, folded⟩ := bind_eq_ok_iff.mp folded
  cases folded
  obtain rfl := Except.ok.inj ((Pool.tys_eq_ok_iff.mpr hasTys).symm.trans isTypes)
  obtain rfl := Except.ok.inj (operator.accepted.2.2.symm.trans isTy)
  refine ⟨value, rfl, fun env => (Pool.evaluate_apply stored).mpr ⟨values, ?_, computed⟩⟩
  refine (mapM_eq_some_iff.mp constants).imp fun operand value found => ?_
  obtain ⟨_, operandStored⟩ := Pool.constant?_eq_some_iff.mp found
  exact Pool.evaluate_const operandStored

/-- Aligned operands are constants on both sides, with aligned values, or on none. -/
theorem constants_aligned (matching : pools.Matching free related)
    (aligned : Aligned (free op) related xs ys) :
    Option.Rel (Aligned (free op) Eq) (xs.mapM pools.left.constant?)
      (ys.mapM pools.right.constant?) := by
  refine rel_mapM_of_aligned (aligned.imp fun x y holds => ?_)
  rw [(matching.matched holds).constant?_eq]
  cases pools.right.constant? y with
  | none => exact .none
  | some value => exact .some rfl

section Simplification

variable {e other : ExprId} {ty : Ty} {proposal otherProposal : Option Draft}
  (matching : pools.Matching free related) (interchange : Op.Interchange free) (top : related e other)
  (stored : pools.left.node? e = some ⟨ty, .apply op xs⟩)
  (otherStored : pools.right.node? other = some ⟨ty, .apply op ys⟩)
include matching interchange top stored otherStored

/-- Matching applications of constants are computed to the same constant. -/
theorem fold_varied {values others : List Value} {draft otherDraft : Draft}
    (constants : xs.mapM pools.left.constant? = some values)
    (otherConstants : ys.mapM pools.right.constant? = some others)
    (left : fold pools.left op xs values = .ok draft)
    (right : fold pools.right op ys others = .ok otherDraft) :
    pools.VariedDraft free draft otherDraft := by
  obtain ⟨value, rfl, evaluates⟩ := exists_const_of_fold pools.leftTyped stored constants left
  obtain ⟨otherValue, rfl, otherEvaluates⟩ :=
    exists_const_of_fold pools.rightTyped otherStored otherConstants right
  have evaluated := (matching.varied top).evaluate interchange.commutative (evaluates fun _ => none)
  obtain rfl := Except.ok.inj (evaluated.symm.trans (otherEvaluates _))
  exact .const ty value

variable (aligned : Aligned (free op) related xs ys)
include aligned

/-- Simplification proposes the same for matching applications. -/
theorem simplification_varied (left : simplification pools.left op xs = .ok proposal)
    (right : simplification pools.right op ys = .ok otherProposal) :
    pools.VariedProposal free proposal otherProposal := by
  have constants := constants_aligned matching aligned
  obtain ⟨types, hasTys, operator⟩ := (pools.leftTyped.fits stored).typed
  unfold simplification at left right
  generalize found : xs.mapM pools.left.constant? = values,
    otherFound : ys.mapM pools.right.constant? = others at constants left right
  cases constants with
  | some =>
    obtain ⟨folded, isFolded, left⟩ := bind_eq_ok_iff.mp left
    obtain ⟨otherFolded, isOtherFolded, right⟩ := bind_eq_ok_iff.mp right
    cases left
    cases right
    exact .some (fold_varied matching interchange top stored otherStored found otherFound isFolded
      isOtherFolded)
  | none =>
    cases operator with
    | and | or =>
      cases left
      cases right
      exact simplifyJunction_varied matching interchange (by simp) aligned
    | clause =>
      cases left
      cases right
      exact simplifyClause_varied matching interchange aligned
    | tuple =>
      cases left
      cases right
      exact .none
    | bits =>
      have each := aligned.inOrder (interchange.not_free rfl)
      exact simplifyBits_varied matching interchange each left right
    | not =>
      obtain _ | ⟨-, _ | -⟩ := hasTys
      obtain ⟨x, rfl, first⟩ := aligned.singleton
      cases left
      cases right
      have inner := (matching.matched first).negated? interchange
      revert inner
      generalize pools.left.negated? _ = p, pools.right.negated? x = q
      rintro (@⟨_, _, inner⟩ | _)
      · exact .some (.known (matching.varied inner))
      · exact .none
    | bit | field =>
      obtain _ | ⟨-, _ | -⟩ := hasTys
      obtain ⟨x, rfl, first⟩ := aligned.singleton
      exact simplifySelection_varied matching first (interchange.not_free rfl) left right
    | implies =>
      obtain ⟨a, b, -, -, rfl⟩ := forall₂_two.mp hasTys.flip
      obtain ⟨x, y, first, second, rfl⟩ := forall₂_two.mp
        (aligned.inOrder (interchange.not_free rfl))
      cases left
      cases right
      exact simplifyImplies_varied matching first second
    | mul =>
      obtain ⟨a, b, -, -, rfl⟩ := forall₂_two.mp hasTys.flip
      obtain ⟨x, y, first, second, rfl⟩ := forall₂_two.mp (aligned.inOrder interchange.not_mul)
      cases left
      cases right
      exact simplifyMul_varied matching first second
    | ite =>
      have each := aligned.inOrder (interchange.not_free rfl)
      obtain _ | ⟨-, _ | ⟨-, _ | ⟨-, _ | -⟩⟩⟩ := hasTys
      obtain _ | ⟨first, _ | ⟨second, _ | ⟨third, _ | -⟩⟩⟩ := each
      cases left
      cases right
      exact simplifyIte_varied matching first second third interchange
    | xor =>
      obtain ⟨a, b, -, -, rfl⟩ := forall₂_two.mp hasTys.flip
      obtain ⟨x, y, first, second, rfl | ⟨isFree, rfl⟩⟩ := aligned.pair
      · cases left
        cases right
        exact simplifyXor_varied matching first second interchange
      · cases left
        cases right
        exact simplifyXor_varied_swap matching first second interchange isFree
          (unfixed_of_mapM otherFound)
    | eq operandTy =>
      obtain ⟨a, b, hasTy, otherHasTy, rfl⟩ := forall₂_two.mp hasTys.flip
      obtain ⟨x, y, first, second, rfl | ⟨isFree, rfl⟩⟩ := aligned.pair
      · cases left
        cases right
        exact simplifyEq_varied matching first second interchange
      · cases left
        cases right
        have sameTy : isBoolean pools.right x = isBoolean pools.right y := by
          rw [← isBoolean_eq_of_matched (matching.matched first),
            ← isBoolean_eq_of_matched (matching.matched second), isBoolean_eq_of_hasTy hasTy otherHasTy]
        rw [simplifyEq_swap (unfixed_of_mapM otherFound) sameTy]
        exact simplifyEq_varied matching first second interchange
    | add =>
      obtain ⟨a, b, -, -, rfl⟩ := forall₂_two.mp hasTys.flip
      obtain ⟨x, y, first, second, rfl | ⟨isFree, rfl⟩⟩ := aligned.pair
      · cases left
        cases right
        exact simplifyAdd_varied matching first second
      · cases left
        cases right
        rw [simplifyAdd_swap (unfixed_of_mapM otherFound)]
        exact simplifyAdd_varied matching first second

end Simplification

/-- Proposals that are made for booleans only vary if the drafts do. -/
theorem whereBoolean_varied {proposal other : Option Draft} {draft otherDraft : Draft}
    (same : isBoolean pools.left a = isBoolean pools.right x)
    (varied : pools.VariedDraft free draft otherDraft)
    (left : (if isBoolean pools.left a then .ok (some draft) else .ok none : Proposal) = .ok proposal)
    (right : (if isBoolean pools.right x then .ok (some otherDraft) else .ok none : Proposal) = .ok other) :
    pools.VariedProposal free proposal other := by
  rw [same] at left
  split at left
  · rename_i isBool
    rw [if_pos isBool] at right
    cases left
    cases right
    exact .some varied
  · rename_i notBool
    rw [if_neg notBool] at right
    cases left
    cases right
    exact .none

/-- The opposites of varied applications vary. That of `xor` negates the second
operand, so there the operands have to be in the same order. -/
theorem negation_varied {e : ExprId} {ty : Ty} {proposal other : Option Draft}
    (interchange : Op.Interchange free) (stored : pools.left.node? e = some ⟨ty, .apply op xs⟩)
    (aligned : Aligned (free op) (pools.Varied free) xs ys) (ordered : op = .xor → ¬ free op)
    (left : negation pools.left op xs = .ok proposal) (right : negation pools.right op ys = .ok other) :
    pools.VariedProposal free proposal other := by
  have negations : Aligned (free op) (pools.VariedDraft free) (xs.map Draft.negation)
      (ys.map Draft.negation) := aligned.map fun _ _ => .negation
  have isBoolean_eq : ∀ {a x}, pools.Varied free a x → isBoolean pools.left a = isBoolean pools.right x :=
    fun varied => isBoolean_eq_of_matched (varied.matched interchange.commutative)
  obtain ⟨types, hasTys, operator⟩ := (pools.leftTyped.fits stored).typed
  unfold negation at left right
  cases operator with
  | and =>
    cases left
    cases right
    exact .some (.apply _ (negations.loosen interchange.and_iff_or.mp))
  | or =>
    cases left
    cases right
    exact .some (.apply _ (negations.loosen interchange.and_iff_or.mpr))
  | clause =>
    cases left
    cases right
    exact .some (.apply _ (negations.loosen fun isFree =>
      interchange.and_iff_or.mpr (interchange.or_of_clause isFree)))
  | bit | bits | add | mul | tuple | field =>
    cases left
    cases right
    exact .none
  | not =>
    obtain _ | ⟨-, _ | -⟩ := hasTys
    obtain ⟨x, rfl, first⟩ := aligned.singleton
    cases left
    cases right
    exact .some (.known first)
  | xor =>
    obtain ⟨a, b, -, -, rfl⟩ := forall₂_two.mp hasTys.flip
    obtain ⟨x, y, first, second, rfl⟩ := forall₂_two.mp (aligned.inOrder (ordered rfl))
    cases left
    cases right
    exact .some (.apply _ (.of_forall₂ (.cons (.known first) (.cons (.negation second) .nil))))
  | implies =>
    obtain ⟨a, b, -, -, rfl⟩ := forall₂_two.mp hasTys.flip
    obtain ⟨x, y, first, second, rfl⟩ := forall₂_two.mp
      (aligned.inOrder (interchange.not_free rfl))
    cases left
    cases right
    exact .some (.apply _ (.of_forall₂ (.cons (.known first) (.cons (.negation second) .nil))))
  | eq operandTy =>
    obtain ⟨a, b, hasTy, otherHasTy, rfl⟩ := forall₂_two.mp hasTys.flip
    have sameTy := isBoolean_eq_of_hasTy hasTy otherHasTy
    have draft := Pools.VariedDraft.ofKnown .xor (aligned.loosen interchange.xor_of_eq)
    -- whichever operand comes first, it has the type of both
    obtain ⟨x, y, rfl, isBool_eq⟩ :
        ∃ x y, ys = [x, y] ∧ isBoolean pools.left a = isBoolean pools.right x := by
      obtain ⟨x, y, first, second, rfl | ⟨-, rfl⟩⟩ := aligned.pair
      · exact ⟨x, y, rfl, isBoolean_eq first⟩
      · exact ⟨y, x, rfl, sameTy.trans (isBoolean_eq second)⟩
    exact whereBoolean_varied isBool_eq draft left right
  | ite =>
    have each := aligned.inOrder (interchange.not_free rfl)
    obtain _ | ⟨-, _ | ⟨-, _ | ⟨-, _ | -⟩⟩⟩ := hasTys
    obtain _ | ⟨first, _ | ⟨second, _ | ⟨third, _ | -⟩⟩⟩ := each
    refine whereBoolean_varied (isBoolean_eq second) (.apply _ (.of_forall₂ ?_)) left right
    exact .cons (.known first) (.cons (.negation second) (.cons (.negation third) .nil))

section Alike

variable (each : List.Forall₂ pools.Alike xs ys)
include each

/-- Alike operands are put into the same order. -/
theorem sorted_alike : List.Forall₂ pools.Alike (sorted pools.left xs) (sorted pools.right ys) := by
  obtain ⟨left, right, same⟩ := forall₂_alike_iff.mp each
  refine forall₂_alike_iff.mpr ⟨fun x member => ?_, fun y member => ?_, ?_⟩
  · exact left x (List.mem_mergeSort.mp member)
  · exact right y (List.mem_mergeSort.mp member)
  · rw [Pool.map_tree_sorted left, Pool.map_tree_sorted right, same]

theorem canonicalization_alike :
    pools.VariedProposal free (canonicalization pools.left op xs)
      (canonicalization pools.right op ys) := by
  have inOrder := sorted_alike each
  simp only [canonicalization, list_eq_iff inOrder each]
  split
  · split
    · exact .none
    · exact .some (.ofKnown op (.of_forall₂ (inOrder.imp fun _ _ => Alike.varied)))
  · exact .none

end Alike

end Rules

end Rules

end Clausal
