import Mathlib
import Clausal.Proofs.Formulas
import Clausal.Proofs.History

/-!
# The shape of normal forms

The normal form of a boolean is a constant, or a formula over atoms in which no
constant and no composite operator is left.

Negations are at atoms when they have been pushed down. The simplification that
follows may bring in others: an exclusive disjunction or an equality of which one
side turns out to be constant becomes the negation of the other side, whatever
that is. Without these two operators, negations stay at atoms.
-/

namespace Clausal

namespace Grammar

/-- Parts are picked from variables only. -/
def selective : Grammar where
  operator _ := True
  operand pool op e := op.isSelection → pool.Selects e
  stable extension stored := imp_congr_right fun _ => extension.selects_iff stored
  replaced resembles selects isSelection :=
    resembles.selects (selects isSelection) ▸ selects isSelection

/-- The opposites of applications bring in no selections. -/
theorem selective_closed : selective.Closed Rules.negatedInto := by
  intro op _ new member
  have notSelection : ¬ new.isSelection := by
    cases op <;> simp [Rules.negatedInto] at member <;> rcases member with rfl | rfl <;>
      simp [Op.isSelection]
  exact ⟨trivial, fun _ _ isSelection => absurd isSelection notSelection⟩

/-- Negations are of selections from variables, and no operator occurs for which
simplification brings in a negation. -/
def literal : Grammar where
  operator op := .not ∉ Rules.simplifiedInto op
  operand pool op e := op = .not → pool.Selects e
  stable extension stored := imp_congr_right fun _ => extension.selects_iff stored
  replaced resembles selects isNot := resembles.selects (selects isNot) ▸ selects isNot

/-- Simplification brings in no negation that the grammar of literals does not
allow. -/
theorem literal_closed : literal.Closed Rules.simplifiedInto := by
  intro op positive new member
  have brought : .not ∉ Rules.simplifiedInto new ∧ new ≠ .not := by
    cases op <;> simp_all [literal, Rules.simplifiedInto]
  exact ⟨brought.1, fun _ _ isNot => absurd isNot brought.2⟩

end Grammar

namespace Pool

variable {pool : Pool} {e ready pushed r x operand : ExprId}

/-- Every negation that occurs in an expression is the negation of an atom. -/
def NegatesAtoms (pool : Pool) (e : ExprId) : Prop :=
  pool.Everywhere (fun op operands => op = .not → ∀ operand ∈ operands, pool.isAtom operand) e

theorem Extends.negatesAtoms_iff {before after : Pool} (extension : before.Extends after)
    (stored : before.Has e) : after.NegatesAtoms e ↔ before.NegatesAtoms e :=
  extension.everywhere_iff stored fun operandsStored => imp_congr_right fun _ =>
    forall₂_congr fun operand member => by
      have operandStored := operandsStored operand member
      rw [isAtom_iff, isAtom_iff, extension.hasTy_iff operandStored, extension.selects_iff operandStored]

/-- Negations of atoms follow the grammar of literals where neither exclusive
disjunctions nor equalities occur. -/
theorem follows_literal (plain : pool.Plain e) (negatesAtoms : pool.NegatesAtoms e)
    (neither : ∀ x, pool.Reaches e x → pool.op? x ≠ some .xor ∧ pool.op? x ≠ some .eq) :
    pool.Follows .literal e := by
  intro x reaches op found
  constructor
  · have supported := (plain reaches op found).1
    have others := neither x reaches
    rw [found] at others
    cases op <;> simp_all [Grammar.plain, Grammar.literal, Lower.supports, Rules.simplifiedInto]
  · intro operand member isNot
    exact (isAtom_iff.mp (negatesAtoms reaches op found isNot operand member)).2

section Typed

variable (typed : pool.WellTyped)
include typed

/-- What may occur in a formula: atoms with the selections that lead to them, and
connectives between booleans. -/
theorem Formula.part (formula : pool.Formula e) (reaches : pool.Reaches e x) :
    pool.constant? x = none ∧ ∀ op ∈ pool.op? x, op.isSelection ∨
      op.isConnective ∧ ∀ operand ∈ pool.operands x, pool.HasTy operand .bool := by
  have selection (selects : pool.Selects x) :
      pool.constant? x = none ∧ ∀ op ∈ pool.op? x, op.isSelection := by
    refine ⟨selects.constant?_eq_none, ?_⟩
    cases selects with
    | var stored | bit stored further | field stored further =>
      simp [op?, stored, Node.op?, Op.isSelection]
  rcases formula.of_reaches typed reaches with formula | selects
  · cases formula with
    | atom isAtom =>
      obtain ⟨notConstant, isSelection⟩ := selection (isAtom_iff.mp isAtom).2
      exact ⟨notConstant, fun op found => .inl (isSelection op found)⟩
    | connective isConnective stored each =>
      refine ⟨by simp [constant?, stored], fun op found => .inr ?_⟩
      rw [op?_of_apply stored, Option.mem_some_iff] at found
      rw [← found, operands_of_node? stored]
      exact ⟨isConnective, fun operand member => (each operand member).hasTy⟩
  · obtain ⟨notConstant, isSelection⟩ := selection selects
    exact ⟨notConstant, fun op found => .inl (isSelection op found)⟩

/-- A negation has one operand, which is a boolean. -/
theorem stored_of_isNot (isNot : pool.op? x = some .not) (member : operand ∈ pool.operands x) :
    pool.node? x = some ⟨.bool, .apply .not [operand]⟩ ∧ pool.HasTy operand .bool := by
  obtain ⟨only, operandsEq, negated⟩ := Pass.exists_negated? typed isNot
  obtain rfl : operand = only := by simpa [operandsEq] using member
  exact typed.negated negated

/-- In a plain expression that no rule simplifies, parts are picked from variables. -/
theorem follows_selective (simplified : pool.Simplified e) (plain : pool.Plain e) :
    pool.Follows .selective e := by
  intro x reaches op found
  refine ⟨trivial, fun operand member selection => ?_⟩
  exact selects_of_selection typed selection found (simplified.of_reaches reaches)
    (plain.of_reaches reaches) operand member

/-- In a plain expression that picks parts from variables only, a boolean that
resists negations is an atom. -/
theorem isAtom_of_resists (isBool : pool.HasTy e .bool) (resists : pool.Resists e)
    (selective : pool.Follows .selective e) (plain : pool.Plain e) : pool.isAtom e := by
  refine isAtom_iff.mpr ⟨isBool, ?_⟩
  cases resists with
  | var stored => exact .var stored
  | bit stored =>
    obtain ⟨types, each, operator⟩ := (typed.fits stored).typed
    cases operator
    obtain ⟨source, -, rfl⟩ := forall₂_one.mp each.flip
    have allowed := ((everywhere_apply stored).mp selective).1
    exact .bit stored (allowed.2 source List.mem_cons_self rfl)
  | field stored =>
    obtain ⟨types, each, operator⟩ := (typed.fits stored).typed
    cases operator
    obtain ⟨source, -, rfl⟩ := forall₂_one.mp each.flip
    have allowed := ((everywhere_apply stored).mp selective).1
    exact .field stored (allowed.2 source List.mem_cons_self rfl)
  | equality stored different =>
    -- a plain equality is between booleans
    obtain ⟨types, each, operator⟩ := (typed.fits stored).typed
    cases operator
    obtain ⟨a, b, -, -, rfl⟩ := forall₂_two.mp each.flip
    have allowed := ((everywhere_apply stored).mp plain).1
    exact absurd (allowed.2 a List.mem_cons_self rfl) (different a List.mem_cons_self)

/-- When negations have been pushed down, they are at atoms. -/
theorem negatesAtoms_of_pushed (simplified : pool.Simplified ready) (plain : pool.Plain ready)
    (result : Pass.Result .pushNegation pool ready pushed) : pool.NegatesAtoms pushed := by
  have selective : pool.Follows .selective pushed :=
    result.keeps (by simp) Grammar.selective_closed (follows_selective typed simplified plain)
  have pushedPlain := result.plain (.inr plain)
  intro x reaches op found isNot operand member
  subst isNot
  obtain ⟨-, isBool⟩ := stored_of_isNot typed found member
  have reachesOperand : pool.Reaches pushed operand := reaches.tail member
  exact isAtom_of_resists typed isBool (result.settles.1 reaches .not found rfl operand member)
    (selective.of_reaches reachesOperand) (pushedPlain.of_reaches reachesOperand)

/-- The grammar of literals has negations of atoms only. -/
theorem negatesAtoms_of_literal (follows : pool.Follows .literal e) : pool.NegatesAtoms e := by
  intro x reaches op found isNot operand member
  subst isNot
  obtain ⟨-, isBool⟩ := stored_of_isNot typed found member
  exact isAtom_iff.mpr ⟨isBool, (follows reaches .not found).2 operand member rfl⟩

/-- Where no rule applies, what is negated is neither constant nor a negation. -/
theorem negated_of_simplified (simplified : pool.Simplified e) :
    pool.Everywhere (fun op operands => op = .not → ∀ operand ∈ operands,
      pool.constant? operand = none ∧ pool.op? operand ≠ some .not) e := by
  intro x reaches op found isNot operand member
  subst isNot
  obtain ⟨stored, -⟩ := stored_of_isNot typed found member
  have kept := ((everywhere_apply stored).mp (simplified.of_reaches reaches)).1
  have notConstant := Rules.mapM_constant?_of_kept typed (typed.fits stored) kept
  simp only [Rules.simplification, notConstant] at kept
  constructor
  · cases constant : pool.constant? operand with
    | none => rfl
    | some value => simp [constant] at notConstant
  · intro isNegation
    obtain ⟨inner, -, innerNegated⟩ := Pass.exists_negated? typed isNegation
    simp [innerNegated] at kept

end Typed

end Pool

namespace Pass

/-- Running passes in two goes is running them in one. -/
theorem runAll_append (first second : List Pass) (e : ExprId) :
    runAll (first ++ second) e = runAll first e >>= runAll second := by
  unfold runAll
  rw [List.foldlM_append]

namespace Chain

variable {pool : Pool} {e r : ExprId}

/-- The passes up to the pushing of negations make an expression plain, with
negations of atoms only. -/
theorem negatesAtoms (typed : pool.WellTyped)
    (chain : Chain pool [.simplify, .decompose, .simplify, .pushNegation] e r) :
    pool.Plain r ∧ pool.NegatesAtoms r := by
  obtain _ | ⟨-, _ | ⟨decomposed, _ | ⟨again, _ | ⟨pushed, _ | -⟩⟩⟩⟩ := chain
  have plain := again.plain (.inr (decomposed.plain (.inl rfl)))
  exact ⟨pushed.plain (.inr plain), Pool.negatesAtoms_of_pushed typed again.settles plain pushed⟩

/-- Canonicalization in the end reorders a plain expression that no rule simplifies. -/
theorem exists_simple (chain : Chain pool
      [.simplify, .decompose, .simplify, .pushNegation, .simplify, .canonicalize] e r) :
    ∃ simple, pool.Refines e simple ∧ pool.Simplified simple ∧ pool.Plain simple ∧
      pool.Reordered simple r := by
  obtain _ | ⟨first, _ | ⟨decomposed, _ | ⟨again, _ | ⟨pushed, _ | ⟨last, _ | ⟨canonical, _ | -⟩⟩⟩⟩⟩⟩ :=
    chain
  have plain := pushed.plain (.inr (again.plain (.inr (decomposed.plain (.inl rfl)))))
  have refines := first.refines.trans (decomposed.refines.trans (again.refines.trans pushed.refines))
  exact ⟨_, refines.trans last.refines, last.settles, last.plain (.inr plain), canonical.settles⟩

end Chain

end Pass

namespace Workspace

variable {workspace : Workspace PassMemory} {e : ExprId}

/-- The normal form of a boolean is a constant, or a formula over atoms. In a formula
there are no constants, and no operators but connectives between booleans and the
selections that lead to atoms. -/
theorem Reachable.normalize_shape (reachable : workspace.Reachable)
    (isBool : workspace.pool.HasTy e .bool) :
    ∃ n after, Pass.normalize e workspace = .ok n after ∧
      ((∃ truth, after.pool.node? n = some ⟨.bool, .const (.bool truth)⟩) ∨
        after.pool.Formula n ∧ ∀ x, after.pool.Reaches n x →
          after.pool.constant? x = none ∧ ∀ op ∈ after.pool.op? x, op.isSelection ∨
            op.isConnective ∧ ∀ operand ∈ after.pool.operands x, after.pool.HasTy operand .bool) := by
  rw [Pass.normalize_eq_runAll]
  obtain ⟨n, after, ended, advances, chain⟩ :=
    (Pass.runAll_yields _ reachable.sound isBool.has).exists_ok
  refine ⟨n, after, ended, ?_⟩
  have typed := (advances.sound reachable.sound).typed
  obtain ⟨simple, refines, simplified, plain, reordered⟩ := chain.exists_simple
  have simpleBool : after.pool.HasTy simple .bool := refines.hasTy (advances.extension.hasTy isBool)
  rcases Pool.formula_of_simplified typed simpleBool simplified plain with ⟨truth, found⟩ | formula
  · obtain ⟨ty, stored⟩ := Pool.truth?_eq_some_iff.mp found
    obtain rfl := simpleBool.unique ⟨_, stored⟩
    obtain rfl := reordered.eq_of_leaf (by simp [Pool.op?, stored, Node.op?])
    exact .inl ⟨truth, stored⟩
  · have normalFormula := reordered.formula formula
    exact .inr ⟨normalFormula, fun x reaches => normalFormula.part typed reaches⟩

/-- The normal form of `x + x = x` over words of four bits is a formula, as the equation is
true for zero and false for one. -/
theorem normalize_shape_sum : ∃ (workspace : Workspace PassMemory) (x sum e : ExprId),
    workspace.Reachable ∧ workspace.pool.node? x = some ⟨.uint 4, .var "x"⟩ ∧
      workspace.pool.node? sum = some ⟨.uint 4, .apply (.add 4) [x, x]⟩ ∧
        workspace.pool.node? e = some ⟨.bool, .apply .eq [sum, x]⟩ ∧
          ∃ n after, Pass.normalize e workspace = .ok n after ∧ after.pool.Formula n ∧
            ∀ part, after.pool.Reaches n part → after.pool.constant? part = none := by
  have sized : (Ty.uint 4).Sized := Nat.succ_pos 3
  obtain ⟨first, x, firstReachable, xStored⟩ := exists_reachable_variable "x" sized
  have hasTy : first.pool.HasTy x (.uint 4) := ⟨_, xStored⟩
  obtain ⟨second, sum, secondReachable, toSecond, sumStored⟩ :=
    firstReachable.exists_apply (.add (by decide : 0 < 4) 4 4) (by simp) (.cons hasTy (.cons hasTy .nil))
  obtain ⟨third, e, reachable, toThird, stored⟩ := secondReachable.exists_apply (.eq _) (by simp)
    (.cons ⟨_, sumStored⟩ (.cons (toSecond.hasTy hasTy) .nil))
  obtain ⟨n, after, ended, shape⟩ := reachable.normalize_shape ⟨_, stored⟩
  obtain ⟨advances, refines, -⟩ := Stateful.Meets.of_ok
    (Pass.normalize_yields reachable.sound (Pool.has_iff.mpr ⟨_, stored⟩)) ended
  have value : ∀ number, (Ty.uint 4).admits (.uint number) →
      after.pool.evaluate n (fun _ => some (.uint number)) =
        .ok (.bool (Value.uint ((number + number) % 2 ^ 4) = .uint number)) := by
    intro number admitted
    have xValue : third.pool.evaluate x (fun _ => some (.uint number)) = .ok (.uint number) :=
      (Pool.evaluate_var (toThird (toSecond xStored))).mpr ⟨rfl, admitted⟩
    have sumValue := (Pool.evaluate_apply (toThird sumStored)).mpr
      ⟨_, .cons xValue (.cons xValue .nil), Op.eval_add 4 number number⟩
    have own := (Pool.evaluate_apply stored).mpr ⟨_, .cons sumValue (.cons xValue .nil), Op.eval_eq _ _⟩
    rw [← advances.extension.evaluate_eq (Pool.has_iff.mpr ⟨_, stored⟩)] at own
    exact refines.means own
  have notConstant : ¬∃ truth, after.pool.node? n = some ⟨.bool, .const (.bool truth)⟩ := by
    rintro ⟨truth, isConstant⟩
    have zero := value 0 (by decide)
    have one := value 1 (by decide)
    rw [Pool.evaluate_const isConstant] at zero one
    simp [zero] at one
  obtain ⟨formula, parts⟩ := shape.resolve_left notConstant
  exact ⟨third, x, sum, e, reachable, toThird (toSecond xStored), toThird sumStored, stored, n, after,
    ended, formula, fun part reaches => (parts part reaches).1⟩

/-- The passes up to the pushing of negations leave negations of atoms only. The
simplification that follows may bring in others, but neither where it has nothing to
do nor where there are no exclusive disjunctions and equalities, and never of a
constant or of a negation. -/
theorem Reachable.normalize_negations (reachable : workspace.Reachable)
    (stored : workspace.pool.Has e) :
    ∃ pushed middle n after,
      Pass.runAll [.simplify, .decompose, .simplify, .pushNegation] e workspace = .ok pushed middle ∧
      Pass.runAll [.simplify, .canonicalize] pushed middle = .ok n after ∧
      Pass.normalize e workspace = .ok n after ∧
      middle.pool.NegatesAtoms pushed ∧
      (middle.pool.Simplified pushed ∨ (∀ x, middle.pool.Reaches pushed x →
        middle.pool.op? x ≠ some .xor ∧ middle.pool.op? x ≠ some .eq) → after.pool.NegatesAtoms n) ∧
      after.pool.Everywhere (fun op operands => op = .not → ∀ operand ∈ operands,
        after.pool.constant? operand = none ∧ after.pool.op? operand ≠ some .not) n := by
  obtain ⟨pushed, middle, isPushed, toMiddle, chain⟩ :=
    (Pass.runAll_yields [.simplify, .decompose, .simplify, .pushNegation] reachable.sound
      stored).exists_ok
  have middleSound := toMiddle.sound reachable.sound
  have pushedStored := chain.refines.has_right
  obtain ⟨plain, negatesAtoms⟩ := chain.negatesAtoms middleSound.typed
  obtain ⟨n, after, ended, toAfter, _ | ⟨last, _ | ⟨canonical, _ | -⟩⟩⟩ :=
    (Pass.runAll_yields [.simplify, .canonicalize] middleSound pushedStored).exists_ok
  have typed := (toAfter.sound middleSound).typed
  refine ⟨pushed, middle, n, after, isPushed, ended, ?whole, negatesAtoms, ?literal, ?simplified⟩
  case whole =>
    have split := Pass.runAll_append [.simplify, .decompose, .simplify, .pushNegation]
      [.simplify, .canonicalize] e
    rw [Pass.normalize_eq_runAll]
    exact split ▸ Stateful.bind_eq_ok.mpr ⟨pushed, middle, isPushed, ended⟩
  case literal =>
    intro harmless
    apply canonical.settles.everywhere Pool.Reordered.isAtom
    rcases harmless with simplified | neither
    · have same := last.fixed rfl ((toAfter.extension.simplified_iff pushedStored).mpr simplified)
      exact same ▸ (toAfter.extension.negatesAtoms_iff pushedStored).mpr negatesAtoms
    · have literal := (toAfter.extension.follows_iff pushedStored).mpr
        (Pool.follows_literal plain negatesAtoms neither)
      exact Pool.negatesAtoms_of_literal typed (last.keeps (by simp) Grammar.literal_closed literal)
  case simplified =>
    refine canonical.settles.everywhere ?_ (Pool.negated_of_simplified typed last.settles)
    intro operand other reordered
    rw [reordered.constant?_eq, reordered.op?_eq]
    exact id

/-- The normal form of the negation of the lowest bit of a word negates atoms only. -/
theorem normalize_negations_bit : ∃ (workspace : Workspace PassMemory) (x low e : ExprId),
    workspace.Reachable ∧ workspace.pool.node? x = some ⟨.uint 4, .var "x"⟩ ∧
      workspace.pool.node? low = some ⟨.bool, .apply (.bit 0) [x]⟩ ∧
        workspace.pool.node? e = some ⟨.bool, .apply .not [low]⟩ ∧
          ∃ n after, Pass.normalize e workspace = .ok n after ∧ after.pool.NegatesAtoms n := by
  have sized : (Ty.uint 4).Sized := Nat.succ_pos 3
  obtain ⟨first, x, firstReachable, xStored⟩ := exists_reachable_variable "x" sized
  have selects : first.pool.Applies (.bit 0) [x] .bool :=
    ⟨⟨[.uint 4], .cons ⟨_, xStored⟩ .nil, .bit (by decide)⟩, nofun⟩
  obtain ⟨second, low, secondReachable, toSecond, lowStored⟩ :=
    firstReachable.exists_built (.apply (.bit 0) [x]) (Build.apply_yields selects)
  have negates : second.pool.Applies .not [low] .bool :=
    ⟨⟨[.bool], .cons ⟨_, lowStored⟩ .nil, .not⟩, nofun⟩
  obtain ⟨third, e, reachable, toThird, stored⟩ :=
    secondReachable.exists_built (.apply .not [low]) (Build.apply_yields negates)
  have eStored : third.pool.Has e := Pool.has_iff.mpr ⟨_, stored⟩
  obtain ⟨pushed, middle, n, after, isPushed, -, ended, -, literal, -⟩ :=
    reachable.normalize_negations eStored
  refine ⟨third, x, low, e, reachable, toThird (toSecond xStored), toThird lowStored, stored, n, after,
    ended, literal (.inr fun y reaches => ?_)⟩
  -- no pass changes the expression, and only negations and selections occur in it
  obtain ⟨toMiddle, chain⟩ :=
    Stateful.Meets.of_ok (Pass.runAll_yields _ reachable.sound eStored) isPushed
  have extension := toThird.trans toMiddle.extension
  have rigid : middle.pool.Rigid e := .negation (toMiddle.extension stored)
    (.bit (extension lowStored) (.var (extension (toSecond xStored))))
  obtain rfl := chain.eq_of_rigid rigid
  have rigidPart : middle.pool.Rigid y := by
    induction reaches with
    | refl => exact rigid
    | tail _ member inductionHypothesis =>
      exact inductionHypothesis.operand (toMiddle.sound reachable.sound).typed member
  have excluded (op : Op) (found : middle.pool.op? y = some op) : op ≠ .xor ∧ op ≠ .eq := by
    obtain ⟨ty, application⟩ := Pool.node?_of_op? found
    rcases rigidPart.op_cases application with rfl | ⟨index, rfl⟩ | ⟨index, rfl⟩ <;> simp
  exact ⟨fun found => (excluded _ found).1 rfl, fun found => (excluded _ found).2 rfl⟩

end Workspace

end Clausal
