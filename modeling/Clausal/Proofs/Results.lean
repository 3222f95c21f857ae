import Mathlib
import Clausal.Proofs.Derivations
import Clausal.Proofs.Locality
import Clausal.Proofs.Refinement

/-!
# What passes achieve

`Pass.Result` is what a pass owes for an expression. All passes refine the
expression, keep the grammars that are closed under the operators they bring in,
and return what derives from the expression. Beyond that, simplification leaves
nothing to simplify, pushing negations leaves them where they cannot be moved on,
canonicalization reorders and leaves operands in order, and decomposition makes the
expression plain. All of this lasts when the pool grows, and a pass that is run on
its result changes nothing (`Result.still`).

`Pass.Tops` is the part of it that the step at the top of an expression owes in a
walk from the top down.
-/

namespace Clausal

namespace Pool

variable {pool before after : Pool} {e r : ExprId}

section Simplified

/-- No rule simplifies an application that occurs in an expression. -/
def Simplified (pool : Pool) (e : ExprId) : Prop :=
  pool.Everywhere (fun op operands => Rules.simplification pool op operands = .ok none) e

theorem Extends.simplified_iff (extension : before.Extends after) (stored : before.Has e) :
    after.Simplified e ↔ before.Simplified e :=
  extension.everywhere_iff stored fun operandsStored => by
    rw [Rules.simplification_eq extension operandsStored]

end Simplified

section Pushed

/-- A negation in front of the expression cannot be moved on: it is a variable, a
selection, or an equality of others than booleans. -/
inductive Resists (pool : Pool) (e : ExprId) : Prop where
  | var {ty : Ty} {name : String} (stored : pool.node? e = some ⟨ty, .var name⟩)
  | bit {ty : Ty} {index : Nat} {operands : List ExprId}
      (stored : pool.node? e = some ⟨ty, .apply (.bit index) operands⟩)
  | field {ty : Ty} {index : Nat} {operands : List ExprId}
      (stored : pool.node? e = some ⟨ty, .apply (.field index) operands⟩)
  | equality {ty : Ty} {operands : List ExprId}
      (stored : pool.node? e = some ⟨ty, .apply .eq operands⟩)
      (different : ∀ operand ∈ operands, ¬ pool.HasTy operand .bool)

/-- What resists negations is neither a negation nor a constant. -/
theorem Resists.eq_none (resists : pool.Resists e) : pool.negated? e = none ∧ pool.truth? e = none := by
  cases resists with
  | var stored | bit stored | field stored | equality stored => simp [negated?, truth?, stored]

theorem Extends.resists_iff (extension : before.Extends after) (stored : before.Has e) :
    after.Resists e ↔ before.Resists e := by
  constructor
  · intro resists
    cases resists with
    | var found => exact .var (extension.node?_eq stored ▸ found)
    | bit found => exact .bit (extension.node?_eq stored ▸ found)
    | field found => exact .field (extension.node?_eq stored ▸ found)
    | equality found different =>
      rw [extension.node?_eq stored] at found
      exact .equality found fun operand member isBool =>
        different operand member (extension.hasTy isBool)
  · intro resists
    cases resists with
    | var found => exact .var (extension found)
    | bit found => exact .bit (extension found)
    | field found => exact .field (extension found)
    | equality found different =>
      refine .equality (extension found) fun operand member isBool => different operand member ?_
      exact (extension.hasTy_iff (has_of_mem_operands found member)).mp isBool

/-- Every negation that occurs in an expression stands where it cannot be moved on. -/
def Pushed (pool : Pool) (e : ExprId) : Prop :=
  pool.Everywhere (fun op operands => op = .not → ∀ operand ∈ operands, pool.Resists operand) e

theorem Extends.pushed_iff (extension : before.Extends after) (stored : before.Has e) :
    after.Pushed e ↔ before.Pushed e :=
  extension.everywhere_iff stored fun operandsStored => imp_congr_right fun _ =>
    forall₂_congr fun operand member => extension.resists_iff (operandsStored operand member)

end Pushed

section Reordered

/-- Two expressions are the same up to the order of operands under commutative
operators. -/
inductive Reordered (pool : Pool) : ExprId → ExprId → Prop where
  | leaf {e : ExprId} (stored : pool.Has e) (leaf : pool.op? e = none) : Reordered pool e e
  | apply {e r : ExprId} {ty : Ty} {op : Op} {operands new sorted : List ExprId}
      (stored : pool.node? e = some ⟨ty, .apply op operands⟩)
      (result : pool.node? r = some ⟨ty, .apply op sorted⟩) (length_eq : operands.length = new.length)
      (each : ∀ {index : Nat} {operand other : ExprId}, operands[index]? = some operand →
        new[index]? = some other → Reordered pool operand other)
      (perm : sorted.Perm new) (ordered : ¬ op.isCommutative → sorted = new) : Reordered pool e r

/-- An application is reordered by reordering its operands, and then their list if
the operator is commutative. -/
theorem reordered_apply {ty : Ty} {op : Op} {operands new sorted : List ExprId}
    (stored : pool.node? e = some ⟨ty, .apply op operands⟩)
    (result : pool.node? r = some ⟨ty, .apply op sorted⟩)
    (each : List.Forall₂ pool.Reordered operands new) (perm : sorted.Perm new)
    (ordered : ¬ op.isCommutative → sorted = new) : pool.Reordered e r := by
  obtain ⟨length_eq, each⟩ := forall₂_iff_getElem?.mp each
  exact .apply stored result length_eq (each _ _ _) perm ordered

theorem Reordered.refl (stored : pool.Has e) : pool.Reordered e e := by
  induction stored using Has.induction with
  | step e node found inductionHypothesis =>
    cases isOp : pool.op? e with
    | none => exact .leaf (has_iff.mpr ⟨node, found⟩) isOp
    | some op =>
      obtain ⟨ty, application⟩ := node?_of_op? isOp
      refine reordered_apply application application (List.forall₂_same.mpr ?_) (.refl _) fun _ => rfl
      rwa [operands_of_node? found]

theorem Reordered.mono (extension : before.Extends after) (reordered : before.Reordered e r) :
    after.Reordered e r := by
  induction reordered with
  | leaf stored leaf => exact .leaf (extension.has stored) ((extension.op?_eq stored).trans leaf)
  | apply stored result length_eq _ perm ordered inductionHypothesis =>
    exact .apply (extension stored) (extension result) length_eq inductionHypothesis perm ordered

theorem Reordered.op?_eq (reordered : pool.Reordered e r) : pool.op? r = pool.op? e := by
  cases reordered with
  | leaf stored leaf => rfl
  | apply stored result length_eq each perm ordered => rw [op?_of_apply stored, op?_of_apply result]

end Reordered

section Canonical

/-- The operands of every commutative operator in an expression are in structural
order. -/
def Canonical (pool : Pool) (e : ExprId) : Prop :=
  pool.Everywhere (fun op operands => op.isCommutative → Rules.sorted pool operands = operands) e

theorem Extends.canonical_iff (extension : before.Extends after) (stored : before.Has e) :
    after.Canonical e ↔ before.Canonical e :=
  extension.everywhere_iff stored fun operandsStored => by rw [extension.sorted_eq operandsStored]

end Canonical

end Pool

/-- The operators that the opposite of an application brings in. -/
def Rules.negatedInto : Op → List Op
  | .and => [.or, .not]
  | .or | .clause | .implies => [.and, .not]
  | .xor | .eq => [.xor, .not]
  | .ite => [.ite, .not]
  | _ => []

namespace Pass

variable {pass : Pass} {pool before after : Pool} {e r : ExprId}

/-- The operators that a pass other than decomposition brings in for one. -/
def brings : Pass → Op → List Op
  | .simplify => Rules.simplifiedInto
  | .pushNegation => Rules.negatedInto
  | .canonicalize | .decompose => fun _ => []

/-- Passes other than decomposition leave plain expressions plain. -/
theorem plain_closed (pass : Pass) : Grammar.plain.Closed pass.brings := by
  intro op supported new member
  have brought : Lower.supports new ∧ new ≠ .eq := by
    cases pass <;> cases op <;>
      simp_all [brings, Rules.simplifiedInto, Rules.negatedInto, Lower.supports, Grammar.plain] <;>
        rcases member with rfl | rfl <;> simp
  exact ⟨brought.1, fun _ _ isEq => absurd isEq brought.2⟩

/-- What a pass may do to an expression on the way: it refines the expression,
which is kept if it is rigid, and keeps the grammars that are closed under the
operators it brings in. Simplification adds no weight, and keeps what no rule
simplifies. -/
structure Step (pass : Pass) (pool : Pool) (e r : ExprId) : Prop where
  refines : pool.Refines e r
  rigid : pool.Rigid e → r = e
  keeps : pass ≠ .decompose → ∀ ⦃grammar : Grammar⦄, grammar.Closed pass.brings →
    pool.Follows grammar e → pool.Follows grammar r
  lighter : pass = .simplify → pool.weight r ≤ pool.weight e
  fixed : pass = .simplify → pool.Simplified e → r = e

namespace Step

theorem refl (stored : pool.Has e) : pass.Step pool e e :=
  ⟨.refl stored, fun _ => rfl, fun _ _ _ => id, fun _ => le_rfl, fun _ _ => rfl⟩

theorem mono (extension : before.Extends after) (step : pass.Step before e r) :
    pass.Step after e r := by
  have stored := step.refines.has_left
  have resultStored := step.refines.has_right
  refine ⟨step.refines.mono extension, ?rigid, ?keeps, ?lighter, ?fixed⟩
  case rigid =>
    intro rigid
    exact step.rigid ((extension.rigid_iff stored).mp rigid)
  case keeps =>
    intro notDecompose grammar closed follows
    rw [extension.follows_iff stored] at follows
    exact (extension.follows_iff resultStored).mpr (step.keeps notDecompose closed follows)
  case lighter =>
    intro isSimplify
    rw [extension.weight_eq stored, extension.weight_eq resultStored]
    exact step.lighter isSimplify
  case fixed =>
    intro isSimplify simplified
    exact step.fixed isSimplify ((extension.simplified_iff stored).mp simplified)

theorem trans {middle : ExprId} (earlier : pass.Step pool e middle) (later : pass.Step pool middle r) :
    pass.Step pool e r := by
  refine ⟨earlier.refines.trans later.refines, ?rigid, ?keeps, ?lighter, ?fixed⟩
  case rigid =>
    intro rigid
    have same := earlier.rigid rigid
    rw [later.rigid (same.symm ▸ rigid), same]
  case keeps =>
    intro notDecompose grammar closed follows
    exact later.keeps notDecompose closed (earlier.keeps notDecompose closed follows)
  case lighter =>
    intro isSimplify
    exact (later.lighter isSimplify).trans (earlier.lighter isSimplify)
  case fixed =>
    intro isSimplify simplified
    have same := earlier.fixed isSimplify simplified
    rw [later.fixed isSimplify (same.symm ▸ simplified), same]

theorem resembles (step : pass.Step pool e r) : pool.Resembles e r :=
  ⟨step.refines.hasTy, fun selects => step.rigid (.selection selects)⟩

end Step

/-- What a pass is run for. Pushing negations also keeps them where an expression
resists them, so that a negation in front of it stays. -/
def Settles : Pass → Pool → ExprId → ExprId → Prop
  | .simplify, pool, _, r => pool.Simplified r
  | .pushNegation, pool, e, r => pool.Pushed r ∧ (pool.Resists e → pool.Resists r)
  | .canonicalize, pool, e, r => pool.Reordered e r
  | .decompose, pool, _, r => pool.Plain r

section Still

/-- The top of an expression stays where no rule applies. -/
theorem atTop_eq_self {applies : Op → Bool} {rule : Op → List ExprId → Build (Option ExprId)}
    (kept : ∀ {ty : Ty} {op : Op} {operands : List ExprId},
      pool.node? e = some ⟨ty, .apply op operands⟩ → applies op → rule op operands pool = .ok none pool) :
    atTop applies rule e pool = .ok e pool := by
  unfold atTop
  simp only [bind, EStateM.bind, get, getThe, MonadStateOf.get, EStateM.get]
  rcases found : pool.node? e with _ | ⟨ty, _ | _ | ⟨op, operands⟩⟩
  · rfl
  · rfl
  · rfl
  · by_cases permitted : applies op
    · simp only [permitted, if_true, EStateM.bind, kept found permitted]
      rfl
    · simp only [permitted]
      rfl

/-- Nothing is stored exactly where no rule applies. -/
theorem simplify_eq_none_iff {op : Op} {operands : List ExprId} :
    Rules.simplify op operands pool = .ok none pool ↔
      Rules.simplification pool op operands = .ok none := by
  unfold Rules.simplify
  constructor
  · intro ended
    obtain ⟨_, _, ⟨⟩, ended⟩ := Stateful.bind_eq_ok.mp ended
    obtain ⟨proposal, _, proposed, built⟩ := Stateful.bind_eq_ok.mp ended
    obtain ⟨same, -⟩ := Stateful.ofExcept_eq_ok.mp proposed
    rw [same]
    cases proposal with
    | none => rfl
    | some draft =>
      obtain ⟨_, _, -, ⟨⟩⟩ := Stateful.bind_eq_ok.mp built
  · intro noRule
    refine Stateful.bind_eq_ok.mpr ⟨pool, pool, rfl, Stateful.bind_eq_ok.mpr ⟨none, pool, ?_, rfl⟩⟩
    exact Stateful.ofExcept_eq_ok.mpr ⟨noRule, rfl⟩

/-- The top of an expression stays where nothing simplifies it. -/
theorem simplify_eq_self
    (kept : ∀ op ∈ pool.op? e, Rules.simplification pool op (pool.operands e) = .ok none) :
    step .simplify e pool = .ok e pool := by
  refine atTop_eq_self fun {ty op operands} stored _ => simplify_eq_none_iff.mpr ?_
  have kept := kept op (Pool.op?_of_apply stored)
  rwa [Pool.operands_of_node? stored] at kept

/-- No rule decomposes an application that is plain at the top: of the operators that
rules decompose, only equality is plain, and that of booleans stays. -/
theorem decompose_of_plain {ty : Ty} {op : Op} {operands : List ExprId} (typed : pool.WellTyped)
    (stored : pool.node? e = some ⟨ty, .apply op operands⟩)
    (allowed : Grammar.plain.Allows pool op operands) :
    Rules.decompose op operands pool = .ok none pool := by
  obtain ⟨supported, bools⟩ := allowed
  change Lower.supports op at supported
  by_cases isEq : op = .eq
  · subst isEq
    obtain ⟨types, each, operator⟩ := (typed.fits stored).typed
    cases operator with
    | eq operandTy =>
      obtain ⟨a, b, left, right, rfl⟩ := forall₂_two.mp each.flip
      exact Build.tyOf_bind (bools a List.mem_cons_self rfl) _
  · cases op <;> first | rfl | simp_all [Lower.supports]

/-- A negation stays in front of what resists it. -/
theorem absorb_eq_self (typed : pool.WellTyped)
    (resist : pool.op? e = some .not → ∀ operand ∈ pool.operands e, pool.Resists operand) :
    absorb e pool = .ok e pool := by
  unfold absorb
  simp only [bind, EStateM.bind, get, getThe, MonadStateOf.get, EStateM.get]
  cases outer : pool.negated? e with
  | none =>
    have single : stripPairs pool e = e := by rw [stripPairs_eq, outer, Option.bind_none]
    rw [single, outer]
    rfl
  | some inner =>
    obtain ⟨ty, rest, stored⟩ := Pool.negated?_eq_some_iff.mp outer
    have resists : pool.Resists inner := by
      refine resist (Pool.op?_of_apply stored) inner ?_
      rw [Pool.operands_of_node? stored]
      exact List.mem_cons_self
    obtain ⟨noPair, noConstant⟩ := resists.eq_none
    have single : stripPairs pool e = e := by rw [stripPairs_eq, outer, Option.bind_some, noPair]
    rw [single, outer]
    dsimp only
    rw [noConstant]
    cases resists with
    | var found | bit found | field found =>
      rw [found]
      rfl
    | equality found different =>
      rw [found]
      obtain ⟨types, each, operator⟩ := (typed.fits found).typed
      cases operator with
      | eq operandTy =>
        obtain ⟨a, b, left, right, rfl⟩ := forall₂_two.mp each.flip
        have notBool : ¬ Rules.isBoolean pool a := by
          rw [Rules.isBoolean_iff left]
          rintro rfl
          exact different a List.mem_cons_self left
        have none : Rules.negation pool .eq [a, b] = .ok none := if_neg notBool
        change (EStateM.bind (Rules.negate .eq [a, b]) fun result => pure (result.getD e)) pool = _
        simp only [Rules.negate, bind, EStateM.bind, get, getThe, MonadStateOf.get, EStateM.get, none]
        rfl

end Still

/-- What a pass makes of an expression. -/
structure Result (pass : Pass) (pool : Pool) (e r : ExprId) : Prop extends pass.Step pool e r where
  settles : pass.Settles pool e r
  inOrder : pass = .canonicalize → pool.Canonical r
  derives : pass.Derives (pool.tree e) (pool.tree r)

namespace Result

/-- A result lasts when the pool grows. -/
theorem mono (extension : before.Extends after) (result : pass.Result before e r) :
    pass.Result after e r := by
  have stored := result.refines.has_left
  have resultStored := result.refines.has_right
  refine ⟨result.toStep.mono extension, ?settles, ?inOrder, ?derives⟩
  case settles =>
    have settles := result.settles
    cases pass with
    | simplify => exact (extension.simplified_iff resultStored).mpr settles
    | pushNegation =>
      refine ⟨(extension.pushed_iff resultStored).mpr settles.1, ?_⟩
      rw [extension.resists_iff stored, extension.resists_iff resultStored]
      exact settles.2
    | canonicalize => exact Pool.Reordered.mono extension settles
    | decompose => exact (extension.follows_iff resultStored).mpr settles
  case inOrder =>
    intro isCanonicalize
    exact (extension.canonical_iff resultStored).mpr (result.inOrder isCanonicalize)
  case derives =>
    rw [extension.tree_eq stored, extension.tree_eq resultStored]
    exact result.derives

/-- A pass changes nothing in its results. -/
theorem still {x : ExprId} (result : pass.Result pool e r) (typed : pool.WellTyped)
    (reaches : pool.Reaches r x) : pass.step x pool = .ok x pool := by
  have settles := result.settles
  cases pass with
  | simplify => exact simplify_eq_self (settles reaches)
  | pushNegation =>
    exact absorb_eq_self typed fun isNot => settles.1 reaches .not isNot rfl
  | canonicalize =>
    refine atTop_eq_self fun {ty op operands} stored commutative => ?_
    have none : Rules.canonicalization pool op operands = none := by
      have inOrder := result.inOrder rfl reaches op (Pool.op?_of_apply stored) commutative
      rw [Pool.operands_of_node? stored] at inOrder
      exact (if_pos commutative).trans (if_pos inOrder)
    simp only [Rules.canonicalize, bind, EStateM.bind, get, getThe, MonadStateOf.get, EStateM.get, none]
    rfl
  | decompose =>
    refine atTop_eq_self fun {ty op operands} stored _ => decompose_of_plain typed stored ?_
    have allowed := settles reaches op (Pool.op?_of_apply stored)
    rwa [Pool.operands_of_node? stored] at allowed

/-- A result is its own result. -/
theorem self (result : pass.Result pool e r) (typed : pool.WellTyped) : pass.Result pool r r := by
  have stored := result.refines.has_right
  refine ⟨.refl stored, ?_, result.inOrder,
    derives_self typed stored fun x reaches => result.still typed reaches⟩
  have settles := result.settles
  cases pass with
  | simplify => exact settles
  | pushNegation => exact ⟨settles.1, id⟩
  | canonicalize => exact .refl stored
  | decompose => exact settles

/-- Decomposition makes an expression plain, and the other passes leave it so. -/
theorem plain (result : pass.Result pool e r) (plain : pass = .decompose ∨ pool.Plain e) :
    pool.Plain r := by
  by_cases isDecompose : pass = .decompose
  · subst isDecompose
    exact result.settles
  · exact result.keeps isDecompose (plain_closed pass) (plain.resolve_left isDecompose)

end Result

/-- `top` may take the place of `e` in a walk from the top down: it refines `e`,
which is kept if it is rigid, keeps grammars, and its operands have smaller ranks.
When decomposing, its top is plain. When pushing negations, it is no negation that
can be moved on, and it is `e` if that resists negations. -/
structure Tops (pass : Pass) (pool : Pool) (e top : ExprId) : Prop where
  refines : pool.Refines e top
  rigid : pool.Rigid e → top = e
  shallow : ∀ operand ∈ pool.operands top, pool.rank operand < pool.rank e
  keeps : pass ≠ .decompose → ∀ ⦃grammar : Grammar⦄, grammar.Closed pass.brings →
    pool.Follows grammar e → pool.Follows grammar top
  plain : pass = .decompose → ∀ op ∈ pool.op? top, Grammar.plain.Allows pool op (pool.operands top)
  pushed : pass = .pushNegation → (pool.op? top = some .not → ∀ operand ∈ pool.operands top,
    pool.Resists operand) ∧ (pool.Resists e → top = e)

/-- What may take the place of an expression may do so in a later pool. -/
theorem Tops.mono {top : ExprId} (extension : before.Extends after) (tops : pass.Tops before e top) :
    pass.Tops after e top := by
  have stored := tops.refines.has_left
  have topStored := tops.refines.has_right
  have operandsStored : ∀ operand ∈ before.operands top, before.Has operand :=
    fun _ => Pool.has_operand
  refine ⟨tops.refines.mono extension, ?rigid, ?shallow, ?keeps, ?plain, ?pushed⟩
  case rigid =>
    intro rigid
    exact tops.rigid ((extension.rigid_iff stored).mp rigid)
  case shallow =>
    intro operand member
    rw [extension.operands_eq topStored] at member
    rw [extension.rank_eq (operandsStored operand member), extension.rank_eq stored]
    exact tops.shallow operand member
  case keeps =>
    intro notDecompose grammar closed follows
    rw [extension.follows_iff stored] at follows
    exact (extension.follows_iff topStored).mpr (tops.keeps notDecompose closed follows)
  case plain =>
    intro isDecompose op found
    rw [extension.op?_eq topStored] at found
    rw [extension.operands_eq topStored, Grammar.allows_iff_of_extends extension operandsStored]
    exact tops.plain isDecompose op found
  case pushed =>
    intro isPush
    rw [extension.op?_eq topStored, extension.operands_eq topStored, extension.resists_iff stored]
    obtain ⟨resist, kept⟩ := tops.pushed isPush
    refine ⟨fun isNot operand member => ?_, kept⟩
    exact (extension.resists_iff (operandsStored operand member)).mpr (resist isNot operand member)

end Pass

end Clausal
