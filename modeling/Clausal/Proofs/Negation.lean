import Mathlib
import Clausal.Proofs.Results

/-!
# Negation

`Rules.Opposes` is what a negation rule owes: its proposal is a boolean with the
opposite values, is no negation itself, and negates operands at most, so that what
stands below it has a smaller rank than the negation that it replaces. Where no
rule applies, the operand resists the negation. `absorb_yields` is about the step
that moves the negation at the top of an expression down.
-/

namespace Clausal.Rules

variable {pool : Pool} {draft : Draft} {op : Op} {operands : List ExprId}

/-- A proposal is the opposite of an operator on operands. -/
structure Opposes (pool : Pool) (op : Op) (operands : List ExprId) (draft : Draft) : Prop where
  fits : draft.Fits pool .bool
  means : ∀ ⦃env : Env⦄ ⦃values : List Value⦄ ⦃truth : Bool⦄,
    List.Forall₂ (fun operand value => pool.evaluate operand env = .ok value) operands values →
      op.eval values = .ok (.bool truth) → draft.value pool env = .ok (.bool !truth)
  draws : draft.Draws (· ∈ operands) (· ∈ negatedInto op)
  top : op ≠ .not → ∃ dual parts, dual ≠ .not ∧ draft = .apply dual parts
  shallow : ∀ ⦃after : Pool⦄ ⦃e : ExprId⦄, pool.Extends after → draft.Realizes after e →
    ∀ operand ∈ after.operands e, after.rank operand ≤ 1 + pool.peak operands

/-- An operand or the negation of one. -/
def Signed (operands : List ExprId) (draft : Draft) : Prop :=
  ∃ operand ∈ operands, draft = .known operand ∨ draft = .negation operand

/-- The rank of an operand or its negation. -/
theorem Signed.rankAtMost (signed : Signed operands draft)
    (stored : ∀ operand ∈ operands, pool.Has operand) :
    draft.RankAtMost pool (1 + pool.peak operands) := by
  obtain ⟨operand, member, rfl | rfl⟩ := signed
  · have low : pool.rank operand ≤ pool.peak operands := Pool.le_peak member
    exact Draft.rankAtMost_known (stored operand member) (low.trans (Nat.le_add_left _ _))
  · refine Draft.rankAtMost_apply (fun _ => rfl) fun part partMember => ?_
    obtain rfl := List.mem_singleton.mp partMember
    exact Draft.rankAtMost_known (stored operand member) (Pool.le_peak member)

theorem Signed.draws (signed : Signed operands draft) (negates : .not ∈ negatedInto op) :
    draft.Draws (· ∈ operands) (· ∈ negatedInto op) := by
  obtain ⟨operand, member, rfl | rfl⟩ := signed
  · exact member
  · exact Draft.draws_negation.mpr ⟨negates, member⟩

/-- An application to operands and their negations is shallow. -/
theorem shallow_apply {parts : List Draft} {dual : Op} (signed : ∀ part ∈ parts, Signed operands part)
    (stored : ∀ operand ∈ operands, pool.Has operand) {after : Pool} {e : ExprId}
    (extension : pool.Extends after) (realizes : (Draft.apply dual parts).Realizes after e) :
    ∀ operand ∈ after.operands e, after.rank operand ≤ 1 + pool.peak operands :=
  Draft.rank_le_of_realizes (fun part member => (signed part member).rankAtMost stored) extension
    realizes

/-- The operands of an application that fits are stored. -/
theorem has_of_applies {ty : Ty} (applies : pool.Applies op operands ty) :
    ∀ operand ∈ operands, pool.Has operand := by
  obtain ⟨types, each, -⟩ := applies.typed
  intro operand member
  obtain ⟨operandTy, -, hasTy⟩ := exists_of_forall₂_of_mem each member
  exact hasTy.has

section Junction

variable (typed : pool.WellTyped) (applies : pool.Applies op operands .bool)
include typed applies

/-- The opposite of a junction is the other junction of the negations. -/
theorem opposes_of_dual (isJunction : IsJunction op) {dual : Op} (dualIs : IsJunction dual)
    (opposite : neutral dual = !neutral op) (notClause : dual ≠ .clause)
    (brought : dual ∈ negatedInto op ∧ .not ∈ negatedInto op ∧ dual ≠ .not) :
    Opposes pool op operands (.apply dual (operands.map .negation)) := by
  obtain ⟨-, nonempty, bools⟩ := bools_of_applies isJunction applies
  have signed : ∀ part ∈ operands.map Draft.negation, Signed operands part := by
    intro part member
    obtain ⟨operand, operandMember, rfl⟩ := List.mem_map.mp member
    exact ⟨operand, operandMember, .inr rfl⟩
  refine ⟨?_, ?_, ?_, fun _ => ⟨_, _, brought.2.2, rfl⟩, fun after e extension realizes => ?_⟩
  · obtain ⟨⟨types, each, operator⟩, -⟩ := applies_junction dualIs nonempty bools
      fun isClause => absurd isClause notClause
    refine Draft.fits_apply_iff.mpr ⟨types, ?_, operator, fun isClause => absurd isClause notClause⟩
    refine List.forall₂_map_left_iff.mpr (forall₂_imp_of_mem each fun operand member ty hasTy => ?_)
    obtain rfl := hasTy.unique (bools operand member)
    exact Draft.fits_negation hasTy
  · intro env values truth evaluated computed
    obtain ⟨truths, rfl, truthOf⟩ := typed.exists_truths bools evaluated
    rw [eval_junction isJunction] at computed
    obtain rfl := Value.bool.inj (Except.ok.inj computed)
    refine Draft.value_apply.mpr ⟨(truths.map (!·)).map .bool, ?_, ?_⟩
    · rw [List.map_map, List.forall₂_map_left_iff, List.forall₂_map_right_iff]
      exact truthOf.imp fun _ _ => Draft.value_negation
    · rw [eval_junction dualIs, junction_dual opposite]
  · exact Draft.draws_apply.mpr ⟨brought.1, fun part member => (signed part member).draws brought.2.1⟩
  · exact shallow_apply signed (has_of_applies applies) extension realizes

end Junction

section Boolean

variable {a b c t e : ExprId} (typed : pool.WellTyped)
include typed

/-- What the opposite of an operator on two booleans owes, by truth values. -/
theorem Opposes.of_truths {operation : Bool → Bool → Bool}
    (computes : ∀ x y, op.eval [.bool x, .bool y] = .ok (.bool (operation x y)))
    (left : pool.HasTy a .bool) (right : pool.HasTy b .bool) {dual : Op} {first second : Draft}
    (fits : (Draft.apply dual [first, second]).Fits pool .bool)
    (means : ∀ ⦃env : Env⦄ ⦃x y : Bool⦄, pool.Truth env a x → pool.Truth env b y →
      (Draft.apply dual [first, second]).value pool env = .ok (.bool !operation x y))
    (brought : dual ∈ negatedInto op ∧ .not ∈ negatedInto op ∧ dual ≠ .not)
    (firstSigned : Signed [a, b] first) (secondSigned : Signed [a, b] second) :
    Opposes pool op [a, b] (.apply dual [first, second]) := by
  have signed : ∀ part ∈ [first, second], Signed [a, b] part := by simp [firstSigned, secondSigned]
  refine ⟨fits, ?_, ?_, fun _ => ⟨_, _, brought.2.2, rfl⟩, fun after e => shallow_apply signed ?_⟩
  · intro env values truth evaluated computed
    obtain ⟨truths, rfl, truthOf⟩ := typed.exists_truths (by simp [left, right]) evaluated
    obtain ⟨x, y, holds, otherHolds, rfl⟩ := forall₂_two.mp truthOf
    obtain rfl := Value.bool.inj (Except.ok.inj ((computes x y).symm.trans computed))
    exact means holds otherHolds
  · exact Draft.draws_apply.mpr ⟨brought.1, fun part member => (signed part member).draws brought.2.1⟩
  · simp [left.has, right.has]

theorem opposes_xor (left : pool.HasTy a .bool) (right : pool.HasTy b .bool) :
    Opposes pool .xor [a, b] (.apply .xor [.known a, .negation b]) := by
  refine .of_truths typed Op.eval_xor left right ?_ ?_ (by decide) ⟨a, by simp⟩ ⟨b, by simp⟩
  · exact Draft.fits_apply_iff.mpr
      ⟨[.bool, .bool], .cons left (.cons (Draft.fits_negation right) .nil), .xor, nofun⟩
  · intro env x y first second
    refine Draft.value_apply.mpr
      ⟨[.bool x, .bool !y], .cons first (.cons (Draft.value_negation second) .nil), ?_⟩
    cases x <;> cases y <;> rfl

theorem opposes_implies (left : pool.HasTy a .bool) (right : pool.HasTy b .bool) :
    Opposes pool .implies [a, b] (.apply .and [.known a, .negation b]) := by
  refine .of_truths typed Op.eval_implies left right (fits_and left (Draft.fits_negation right)) ?_
    (by decide) ⟨a, by simp⟩ ⟨b, by simp⟩
  intro env x y first second
  rw [value_and (Draft.value_known.trans first) (Draft.value_negation second)]
  cases x <;> cases y <;> rfl

theorem opposes_eq (left : pool.HasTy a .bool) (right : pool.HasTy b .bool) :
    Opposes pool .eq [a, b] (.ofKnown .xor [a, b]) := by
  have computes : ∀ x y, Op.eval .eq [.bool x, .bool y] = .ok (.bool (x == y)) := by decide
  refine .of_truths typed computes left right ?_ ?_ (by decide) ⟨a, by simp⟩ ⟨b, by simp⟩
  · exact Draft.fits_apply_iff.mpr
      ⟨[.bool, .bool], .cons left (.cons right .nil), .xor, nofun⟩
  · intro env x y first second
    refine Draft.value_apply.mpr ⟨[.bool x, .bool y], .cons first (.cons second .nil), ?_⟩
    cases x <;> cases y <;> rfl

theorem opposes_ite (condition : pool.HasTy c .bool) (whenTrue : pool.HasTy t .bool)
    (whenFalse : pool.HasTy e .bool) :
    Opposes pool .ite [c, t, e] (.apply .ite [.known c, .negation t, .negation e]) := by
  refine ⟨?_, ?_, by simp [negatedInto], fun _ => ⟨_, _, by simp, rfl⟩,
    fun after result => shallow_apply ?_ ?_⟩
  · exact Draft.fits_apply_iff.mpr ⟨[.bool, .bool, .bool], .cons condition
      (.cons (Draft.fits_negation whenTrue) (.cons (Draft.fits_negation whenFalse) .nil)),
      .ite (.inl rfl), by simp⟩
  · intro env values truth evaluated computed
    obtain ⟨truths, rfl, truthOf⟩ :=
      typed.exists_truths (by simp [condition, whenTrue, whenFalse]) evaluated
    obtain ⟨decision, x, y, first, second, third, rfl⟩ := forall₂_three.mp truthOf
    refine Draft.value_apply.mpr ⟨[.bool decision, .bool !x, .bool !y], .cons first
      (.cons (Draft.value_negation second) (.cons (Draft.value_negation third) .nil)), ?_⟩
    simp only [List.map_cons, List.map_nil, Op.eval_ite, Except.ok.injEq] at computed ⊢
    cases decision <;> simp_all
  · simp only [List.mem_cons, List.not_mem_nil, or_false, forall_eq_or_imp, forall_eq]
    exact ⟨⟨c, by simp⟩, ⟨t, by simp⟩, ⟨e, by simp⟩⟩
  · simp [condition.has, whenTrue.has, whenFalse.has]

theorem opposes_not (isBool : pool.HasTy a .bool) : Opposes pool .not [a] (.known a) := by
  refine ⟨isBool, ?_, List.mem_cons_self, fun notNot => absurd rfl notNot, ?_⟩
  · intro env values truth evaluated computed
    obtain ⟨truths, rfl, truthOf⟩ := typed.exists_truths (by simpa using isBool) evaluated
    obtain ⟨x, first, rfl⟩ := forall₂_one.mp truthOf
    obtain rfl := Value.bool.inj (Except.ok.inj ((Op.eval_not x).symm.trans computed))
    rw [Draft.value_known, first, Bool.not_not]
  · intro after result extension realizes operand member
    obtain rfl : result = a := realizes
    have below := Pool.rank_lt_of_mem_operands member
    have bound : pool.rank result ≤ pool.peak [result] := Pool.le_peak List.mem_cons_self
    rw [extension.rank_eq isBool.has] at below
    omega

end Boolean

/-- On operands that fit, negation does not fail. What it proposes is the opposite
of the application, which otherwise is an equality of others than booleans or a
selection. -/
theorem negation_opposes (typed : pool.WellTyped) (applies : pool.Applies op operands .bool) :
    ∃ proposal, negation pool op operands = .ok proposal ∧
      (∀ draft, proposal = some draft → Opposes pool op operands draft) ∧
      (proposal = none → op = .eq ∧ (∀ operand ∈ operands, ¬ pool.HasTy operand .bool) ∨
        (∃ index, op = .bit index) ∨ ∃ index, op = .field index) := by
  obtain ⟨types, each, operator⟩ := applies.typed
  cases operator with
  | not =>
    obtain ⟨a, isBool, rfl⟩ := forall₂_one.mp each.flip
    refine ⟨_, rfl, ?_, nofun⟩
    rintro _ ⟨⟩
    exact opposes_not typed isBool
  | and nonempty bools =>
    refine ⟨_, rfl, ?_, nofun⟩
    rintro _ ⟨⟩
    exact opposes_of_dual typed applies (.inl rfl) (.inr (.inl rfl)) rfl (by simp) (by decide)
  | or nonempty bools =>
    refine ⟨_, rfl, ?_, nofun⟩
    rintro _ ⟨⟩
    exact opposes_of_dual typed applies (.inr (.inl rfl)) (.inl rfl) rfl (by simp) (by decide)
  | clause nonempty bools =>
    refine ⟨_, rfl, ?_, nofun⟩
    rintro _ ⟨⟩
    exact opposes_of_dual typed applies (.inr (.inr rfl)) (.inl rfl) rfl (by simp) (by decide)
  | xor =>
    obtain ⟨a, b, left, right, rfl⟩ := forall₂_two.mp each.flip
    refine ⟨_, rfl, ?_, nofun⟩
    rintro _ ⟨⟩
    exact opposes_xor typed left right
  | implies =>
    obtain ⟨a, b, left, right, rfl⟩ := forall₂_two.mp each.flip
    refine ⟨_, rfl, ?_, nofun⟩
    rintro _ ⟨⟩
    exact opposes_implies typed left right
  | ite scalar =>
    obtain ⟨c, t, e, condition, whenTrue, whenFalse, rfl⟩ := forall₂_three.mp each.flip
    refine ⟨some _, if_pos ((isBoolean_iff whenTrue).mpr rfl), ?_, nofun⟩
    rintro _ ⟨⟩
    exact opposes_ite typed condition whenTrue whenFalse
  | eq operandTy =>
    obtain ⟨a, b, left, right, rfl⟩ := forall₂_two.mp each.flip
    by_cases isBool : isBoolean pool a
    · refine ⟨some _, if_pos isBool, ?_, nofun⟩
      rintro _ ⟨⟩
      obtain rfl := (isBoolean_iff left).mp isBool
      exact opposes_eq typed left right
    · refine ⟨none, if_neg isBool, nofun, fun _ => .inl ⟨rfl, fun operand member operandBool => ?_⟩⟩
      rw [isBoolean_iff left] at isBool
      rcases List.mem_pair.mp member with rfl | rfl
      · exact isBool (Pool.HasTy.unique left operandBool)
      · exact isBool (Pool.HasTy.unique right operandBool)
  | bit inside => exact ⟨none, rfl, nofun, fun _ => .inr (.inl ⟨_, rfl⟩)⟩
  | field found => exact ⟨none, rfl, nofun, fun _ => .inr (.inr ⟨_, rfl⟩)⟩

end Clausal.Rules

namespace Clausal.Pass

variable {pool : Pool} {e : ExprId}

theorem negated?_of_node? {ty : Ty} {operand : ExprId} {rest : List ExprId}
    (stored : pool.node? e = some ⟨ty, .apply .not (operand :: rest)⟩) :
    pool.negated? e = some operand :=
  Pool.negated?_eq_some_iff.mpr ⟨ty, rest, stored⟩

/-- An application of `not` has one operand. -/
theorem exists_negated? (typed : pool.WellTyped) (isNot : pool.op? e = some .not) :
    ∃ operand, pool.operands e = [operand] ∧ pool.negated? e = some operand := by
  obtain ⟨ty, stored⟩ := Pool.node?_of_op? isNot
  obtain ⟨types, each, operator⟩ := (typed.fits stored).typed
  cases operator
  obtain ⟨operand, -, only⟩ := forall₂_one.mp each.flip
  rw [only] at stored
  exact ⟨operand, only, negated?_of_node? stored⟩

/-- Two negations in front of a boolean may be left out. -/
theorem refines_of_pair (typed : pool.WellTyped) {inner operand : ExprId}
    (outer : pool.negated? e = some inner) (pair : pool.negated? inner = some operand) :
    pool.Refines e operand := by
  obtain ⟨stored, -⟩ := typed.negated outer
  obtain ⟨-, isBool⟩ := typed.negated pair
  refine ⟨⟨.bool, ⟨_, stored⟩, isBool⟩, fun env value evaluated => ?_⟩
  obtain ⟨truth, rfl⟩ := typed.exists_truth ⟨_, stored⟩ evaluated
  have inside := typed.truth_negated pair (typed.truth_negated outer evaluated)
  rwa [Bool.not_not] at inside

/-- What is left without pairs of negations refines the expression, is no higher
and occurs in it. -/
theorem stripPairs_refines (typed : pool.WellTyped) (stored : pool.Has e) :
    pool.Refines e (stripPairs pool e) ∧ pool.rank (stripPairs pool e) ≤ pool.rank e ∧
      pool.Reaches e (stripPairs pool e) ∧ (pool.Rigid e → stripPairs pool e = e) := by
  fun_induction stripPairs pool e with
  | case1 e ty inner rest outer innerTy operand innerRest pair inductionHypothesis =>
    have outerNegated := negated?_of_node? outer
    have pairNegated := negated?_of_node? pair
    obtain ⟨refines, rank, reaches, -⟩ := inductionHypothesis (typed.negated pairNegated).2.has
    refine ⟨(refines_of_pair typed outerNegated pairNegated).trans refines, ?_, ?_, ?_⟩
    · have below := Pool.rank_lt_of_mem outer List.mem_cons_self
      have further := Pool.rank_lt_of_mem pair List.mem_cons_self
      omega
    · exact (Pool.reaches_negated outerNegated).trans
        ((Pool.reaches_negated pairNegated).trans reaches)
    · intro rigid
      rw [(rigid.selects_negated outerNegated).negated?_eq_none] at pairNegated
      cases pairNegated
  | case2 => exact ⟨.refl stored, le_rfl, .refl, fun _ => rfl⟩
  | case3 => exact ⟨.refl stored, le_rfl, .refl, fun _ => rfl⟩

/-- No pair of negations is left. -/
theorem negated?_stripPairs {inner : ExprId} (negated : pool.negated? (stripPairs pool e) = some inner) :
    pool.negated? inner = none := by
  fun_induction stripPairs pool e with
  | case1 e ty outer rest found outerTy operand outerRest pair inductionHypothesis =>
    exact inductionHypothesis negated
  | case2 e ty other rest found noPair =>
    rw [negated?_of_node? found] at negated
    cases negated
    unfold Pool.negated?
    split
    · rename_i stored
      exact absurd stored (noPair _ _ _)
    · rfl
  | case3 e noNegation =>
    unfold Pool.negated? at negated
    split at negated
    · rename_i stored
      exact absurd stored (noNegation _ _ _)
    · cases negated

/-- An expression that resists negations is none. -/
theorem negated?_of_resists (resists : pool.Resists e) : pool.negated? e = none := by
  cases resists with
  | var stored | bit stored | field stored | equality stored different =>
    simp [Pool.negated?, stored]

theorem stripPairs_of_resists (resists : pool.Resists e) : stripPairs pool e = e := by
  have notNegated := negated?_of_resists resists
  unfold stripPairs
  split
  · rename_i stored
    rw [negated?_of_node? stored] at notNegated
    cases notNegated
  · rfl

/-- A boolean that is neither a constant nor an application which absorbs negations
resists them. -/
theorem resists_of_not_absorbs (typed : pool.WellTyped) (isBool : pool.HasTy e .bool)
    (notConstant : pool.truth? e = none)
    (refused : ∀ op ∈ pool.op? e, ¬ op.absorbsNegation) : pool.Resists e := by
  obtain ⟨form, stored⟩ := isBool
  cases form with
  | var name => exact .var stored
  | const value =>
    have admitted : Ty.admits .bool value := typed.fits stored
    obtain ⟨truth, rfl⟩ := Ty.admits_bool_iff.mp admitted
    simp [Pool.truth?, stored] at notConstant
  | apply op operands =>
    have kept := refused op (Pool.op?_of_apply stored)
    obtain ⟨types, -, operator⟩ := (typed.fits stored).typed
    cases operator with
    | bit inside => exact .bit stored
    | field found => exact .field stored
    | _ => exact absurd rfl kept

section Absorption

variable {top inner : ExprId} (typed : pool.WellTyped) (stored : pool.Has e)
  (strips : stripPairs pool e = top)
include typed stored strips

/-- The expression without pairs of negations may stay at the top, if it is no
negation that can be moved on. -/
theorem tops_stripPairs (resists : ∀ operand, pool.negated? top = some operand → pool.Resists operand) :
    Tops .pushNegation pool e top := by
  obtain ⟨refines, rank, reaches, rigid⟩ := stripPairs_refines typed stored
  rw [strips] at refines rank reaches rigid
  refine ⟨refines, rigid, ?shallow, ?keeps, nofun, fun _ => ⟨?resists, ?kept⟩⟩
  case shallow =>
    exact fun operand member => (Pool.rank_lt_of_mem_operands member).trans_le rank
  case keeps =>
    exact fun _ grammar _ follows => follows.of_reaches reaches
  case resists =>
    intro isNot operand member
    obtain ⟨only, same, found⟩ := exists_negated? typed isNot
    rw [same] at member
    obtain rfl := List.mem_singleton.mp member
    exact resists operand found
  case kept =>
    exact fun resistsE => strips ▸ stripPairs_of_resists resistsE

variable (negated : pool.negated? top = some inner)
include negated

/-- An expression that takes the place of the negation on top, once pairs are
left out. -/
theorem tops_of_opposite {after : Pool} (advances : pool.Advances after) {r : ExprId}
    (notSelects : ¬ pool.Selects inner) (isBool : after.HasTy r .bool)
    (means : ∀ ⦃env : Env⦄ ⦃truth : Bool⦄, pool.Truth env inner truth →
      after.Truth env r !truth)
    (shallow : ∀ operand ∈ after.operands r, after.rank operand ≤ pool.rank inner)
    (keeps : ∀ ⦃grammar : Grammar⦄, grammar.Closed Rules.negatedInto → pool.Follows grammar inner →
      after.Follows grammar r)
    (notNegation : after.op? r ≠ some .not) : Tops .pushNegation after e r := by
  obtain ⟨refines, rank, reaches, rigid⟩ := stripPairs_refines typed stored
  rw [strips] at refines rank reaches rigid
  have extension := advances.extension
  obtain ⟨topStored, innerBool⟩ := typed.negated negated
  have topRefines : after.Refines top r := by
    refine ⟨⟨.bool, ⟨_, extension topStored⟩, isBool⟩, fun env value evaluated => ?_⟩
    rw [extension.evaluate_eq refines.has_right] at evaluated
    obtain ⟨truth, rfl⟩ := typed.exists_truth ⟨_, topStored⟩ evaluated
    have opposite := means (typed.truth_negated negated evaluated)
    rwa [Bool.not_not] at opposite
  refine ⟨(refines.mono extension).trans topRefines, ?rigid, ?shallow, ?keeps, nofun,
    fun _ => ⟨fun isNot => absurd isNot notNegation, ?kept⟩⟩
  case rigid =>
    intro rigidE
    rw [extension.rigid_iff stored] at rigidE
    have same := rigid rigidE
    rw [← same] at rigidE
    exact absurd (rigidE.selects_negated negated) notSelects
  case shallow =>
    intro operand member
    rw [extension.rank_eq stored]
    have below := Pool.rank_lt_of_mem topStored List.mem_cons_self
    have bound := shallow operand member
    omega
  case keeps =>
    intro _ grammar closed follows
    rw [extension.follows_iff stored] at follows
    exact keeps closed (follows.of_reaches (reaches.trans (Pool.reaches_negated negated)))
  case kept =>
    intro resists
    rw [extension.resists_iff stored] at resists
    rw [← strips, stripPairs_of_resists resists, negated?_of_resists resists] at negated
    cases negated

/-- A negated application is replaced by its opposite, if there is one. -/
theorem negate_yields {ty : Ty} {op : Op} {operands : List ExprId}
    (application : pool.node? inner = some ⟨ty, .apply op operands⟩)
    (absorbs : op.absorbsNegation) :
    Build.Yields (do
      let result ← Rules.negate op operands
      return result.getD top) pool fun r after => Tops .pushNegation after e r := by
  obtain ⟨topStored, innerBool⟩ := typed.negated negated
  obtain rfl := innerBool.unique ⟨_, application⟩
  have applies : pool.Applies op operands .bool := typed.fits application
  have notPair : op ≠ .not := by
    rintro rfl
    obtain ⟨operand, -, pair⟩ := exists_negated? typed (Pool.op?_of_apply application)
    rw [negated?_stripPairs (strips.symm ▸ negated)] at pair
    cases pair
  obtain ⟨proposal, proposed, opposes, refuses⟩ := Rules.negation_opposes typed applies
  refine Stateful.Yields.bind (.get (.ofExcept proposed
    (Draft.build?_yields fun draft found => (opposes draft found).fits))) ?_
  rintro result after advances (⟨none, rfl, rfl⟩ | ⟨draft, r, found, rfl, stores⟩)
  · have kept : Tops .pushNegation after e top := by
      refine tops_stripPairs typed stored strips fun operand same => ?_
      rw [negated] at same
      cases same
      obtain ⟨rfl, different⟩ | ⟨index, rfl⟩ | ⟨index, rfl⟩ := refuses none
      · exact .equality application different
      · exact .bit application
      · exact .field application
    exact .pure kept
  · have opposite := opposes draft found
    refine .pure (show Tops .pushNegation after e r from
      tops_of_opposite typed stored strips negated advances ?_ stores.hasTy ?_ ?_ ?_ ?_)
    · intro selects
      cases selects with
      | var selected | bit selected further | field selected further =>
        rw [application] at selected
        cases selected <;> cases absorbs
    · intro env truth holds
      obtain ⟨values, evaluated, computed⟩ := (Pool.evaluate_apply application).mp holds
      exact (stores.evaluate_eq env).trans (opposite.means evaluated computed)
    · intro operand member
      have bound := opposite.shallow advances.extension stores.realizes operand member
      have cost := Pool.rankCost_pos op (pool.decidingTy ⟨.bool, .apply op operands⟩)
      rw [Pool.rank_apply application]
      omega
    · intro grammar closed follows
      obtain ⟨⟨permitted, -⟩, each⟩ := (Pool.everywhere_apply application).mp follows
      refine opposite.draws.follows stores.realizes (fun operand member => ?_) fun new member => ?_
      · exact (advances.extension.follows_iff (Rules.has_of_applies applies operand member)).mpr
          (each operand member)
      · obtain ⟨allowed, anything⟩ := closed permitted new member
        exact ⟨allowed, anything after⟩
    · obtain ⟨dual, parts, notNot, rfl⟩ := opposite.top notPair
      obtain ⟨_, _, built, -⟩ := Draft.realizes_apply_iff.mp stores.realizes
      rw [Pool.op?_of_apply built]
      exact fun same => notNot (Option.some.inj same)

end Absorption

/-- Moving a negation at the top down makes a top for the expression. -/
theorem absorb_yields (typed : pool.WellTyped) (stored : pool.Has e) :
    Build.Yields (absorb e) pool fun r after => Tops .pushNegation after e r := by
  unfold absorb
  refine .get ?_
  dsimp only
  split
  · rename_i notNegated
    refine .pure (tops_stripPairs typed stored rfl fun operand found => ?_)
    rw [notNegated] at found
    cases found
  · rename_i inner negated
    obtain ⟨-, innerBool⟩ := typed.negated negated
    split
    · rename_i truth isConst
      refine (Build.truth_yields _).mono fun r after advances result => ?_
      have leaf : after.op? r = none := by simp [Pool.op?, result, Node.op?]
      refine tops_of_opposite typed stored rfl negated advances ?_ ⟨_, result⟩ ?_ ?_ ?_ ?_
      · intro selects
        rw [selects.truth?_eq_none] at isConst
        cases isConst
      · intro env own holds
        obtain rfl := holds.unique (Pool.truth_of_truth? isConst)
        exact Pool.evaluate_const result
      · intro operand member
        simp [Pool.operands_of_node? result] at member
      · exact fun _ _ _ => Pool.everywhere_leaf leaf
      · simp [leaf]
    · rename_i notConstant
      have kept : (∀ op ∈ pool.op? inner, ¬ op.absorbsNegation) →
          Tops .pushNegation pool e (stripPairs pool e) := by
        intro refused
        refine tops_stripPairs typed stored rfl fun operand found => ?_
        rw [negated] at found
        cases found
        exact resists_of_not_absorbs typed innerBool notConstant refused
      split
      · rename_i op operands application
        split
        · rename_i absorbs
          exact negate_yields typed stored rfl negated application absorbs
        · rename_i refused
          refine .pure (kept ?_)
          rw [Pool.op?_of_apply application]
          rintro _ ⟨⟩
          exact refused
      · rename_i noApplication
        refine .pure (kept fun op found => ?_)
        obtain ⟨ty, application⟩ := Pool.node?_of_op? found
        exact absurd application (noApplication _ _ _)

end Clausal.Pass
