import Mathlib
import Clausal.Proofs.Tolerance

/-!
# Expressions that passes leave alone

An expression is settled if the passes in front of canonicalization change none of its
nodes. Applications of connectives to different expressions that stand by themselves
are settled. If no operator occurs twice in a settled expression, the order of operands
makes no difference to these passes.
-/

namespace Clausal

namespace Pass

variable {pool : Pool} {e r : ExprId} {passes : List Pass}

/-- Simplification puts a stored expression in the place of an application. -/
theorem simplify_eq_known {ty : Ty} {op : Op} {operands : List ExprId}
    (stored : pool.node? e = some ⟨ty, .apply op operands⟩) (simplifies : op.simplifies)
    (known : Rules.simplification pool op operands = .ok (some (.known r))) :
    step .simplify e pool = .ok r pool := by
  unfold step atTop
  simp only [bind, EStateM.bind, get, getThe, MonadStateOf.get, EStateM.get, stored, simplifies, if_true,
    Rules.simplify, known]
  rfl

/-- Passes that change no node of an expression return it. -/
theorem Chain.eq_of_still (chain : Chain pool passes e r) (typed : pool.WellTyped)
    (still : ∀ pass ∈ passes, ∀ x, pool.Reaches e x → pass.step x pool = .ok x pool) : r = e := by
  induction chain with
  | nil => rfl
  | @cons pass passes e middle r first rest inductionHypothesis =>
    have self := derives_self typed first.refines.has_left (still pass List.mem_cons_self)
    obtain rfl := typed.tree_injective first.refines.has_right first.refines.has_left
      (first.derives.unique self)
    exact inductionHypothesis fun pass member => still pass (List.mem_cons_of_mem _ member)

/-- Passes that change no node of an expression derive it from itself. -/
theorem derivesAll_self (typed : pool.WellTyped) (stored : pool.Has e)
    (still : ∀ pass ∈ passes, ∀ x, pool.Reaches e x → pass.step x pool = .ok x pool) :
    DerivesAll passes (pool.tree e) (pool.tree e) := by
  induction passes with
  | nil => exact .nil
  | cons pass passes inductionHypothesis =>
    rw [List.forall_mem_cons] at still
    exact .cons (derives_self typed stored still.1) (inductionHypothesis still.2)

/-- All passes derive a rigid expression from itself. -/
theorem derivesAll_of_rigid {workspace : Workspace PassMemory} (sound : workspace.Sound)
    (rigid : workspace.pool.Rigid e) (stored : workspace.pool.Has e) (passes : List Pass) :
    DerivesAll passes (workspace.pool.tree e) (workspace.pool.tree e) := by
  obtain ⟨r, after, -, advances, chain⟩ := (runAll_yields passes sound stored).exists_ok
  have extension := advances.extension
  obtain rfl := chain.eq_of_rigid ((extension.rigid_iff stored).mpr rigid)
  rw [← extension.tree_eq stored]
  exact chain.derives

/-- An expression that the passes in front of canonicalization make rigid is normalized to
what they make of it. -/
theorem normalize_of_prepared {workspace : Workspace PassMemory} (sound : workspace.Sound)
    (stored : workspace.pool.Has e) (has : workspace.pool.Has r) (rigid : workspace.pool.Rigid r)
    (derives : DerivesAll preparation (workspace.pool.tree e) (workspace.pool.tree r)) :
    Work.Yields (normalize e) workspace fun normal _ => normal = r := by
  rw [normalize_eq_runAll]
  refine (runAll_yields _ sound stored).mono fun normal after advances chain => ?_
  have extension := advances.extension
  obtain ⟨p, front, canonicalized⟩ := chain.exists_canonicalized
  have same := front.derives
  rw [extension.tree_eq stored] at same
  obtain rfl : p = r := by
    refine (advances.sound sound).typed.tree_injective front.refines.has_right (extension.has has) ?_
    rw [same.unique derives, extension.tree_eq has]
  exact canonicalized.rigid ((extension.rigid_iff has).mpr rigid)

end Pass

namespace Rules

variable {pool : Pool} {a b e : ExprId} {op : Op}

/-- An expression stands by itself in a junction: it is no constant and no negation,
and is not merged. -/
structure Stands (pool : Pool) (op : Op) (e : ExprId) : Prop where
  constant?_eq : pool.constant? e = none
  negated?_eq : pool.negated? e = none
  unnest_eq : unnest pool op e = some [e]

theorem stands_var {ty : Ty} {name : String} (stored : pool.node? e = some ⟨ty, .var name⟩) :
    Stands pool op e := by
  refine ⟨by simp [Pool.constant?, stored], by simp [Pool.negated?, stored], ?_⟩
  rw [unnest_eq]
  simp [Pool.truth?, Pool.op?, stored, Node.op?]

/-- Other connectives than negations stand by themselves unless they are merged. -/
theorem stands_apply {ty : Ty} {nested : Op} {operands : List ExprId}
    (stored : pool.node? e = some ⟨ty, .apply nested operands⟩) (positive : nested ≠ .not)
    (apart : ¬ merges op nested) : Stands pool op e := by
  refine ⟨by simp [Pool.constant?, stored], by simp [Pool.negated?, stored, positive], ?_⟩
  rw [unnest_eq]
  simp [Pool.truth?, Pool.op?, stored, Node.op?, apart]

section Pair

variable (isAndOr : op = .and ∨ op = .or) (first : Stands pool op a)
include isAndOr first

/-- Two different expressions that stand by themselves stay a junction. -/
theorem simplification_pair (second : Stands pool op b) (differ : a ≠ b) :
    simplification pool op [a, b] = .ok none := by
  have constants : [a, b].mapM pool.constant? = none := by simp [first.constant?_eq]
  have kept : simplifyJunction pool op [a, b] = none := by
    simp [simplifyJunction, first.unnest_eq, second.unnest_eq, distinct, distinctAfter, differ,
      complementary, first.negated?_eq, second.negated?_eq]
  rcases isAndOr with rfl | rfl <;> simp [simplification, constants, kept]

/-- Of an expression that stands by itself twice, one is kept. -/
theorem simplification_twice : simplification pool op [a, a] = .ok (some (.known a)) := by
  have constants : [a, a].mapM pool.constant? = none := by simp [first.constant?_eq]
  have kept : simplifyJunction pool op [a, a] = some (.known a) := by
    simp [simplifyJunction, first.unnest_eq, distinct, distinctAfter, complementary, first.negated?_eq]
  rcases isAndOr with rfl | rfl <;> simp [simplification, constants, kept]

end Pair

/-- The negation of an expression that stands by itself stays. -/
theorem simplification_not (first : Stands pool op a) : simplification pool .not [a] = .ok none := by
  have constants : [a].mapM pool.constant? = none := by simp [first.constant?_eq]
  simp [simplification, constants, first.negated?_eq]

/-- A choice whose condition is known to be true. -/
theorem simplification_ite_true {c : ExprId} (truth : pool.truth? c = some true)
    (first : pool.constant? a = none) : simplification pool .ite [c, a, b] = .ok (some (.known a)) := by
  have constants : [c, a, b].mapM pool.constant? = none := by
    cases found : pool.constant? c <;> simp [found, first]
  simp [simplification, constants, simplifyIte, truth]

/-- An equation of a boolean with what is known to be true. -/
theorem simplification_eq_true (isBool : isBoolean pool a) (first : pool.constant? a = none)
    (truth : pool.truth? b = some true) : simplification pool .eq [a, b] = .ok (some (.known a)) := by
  have constants : [a, b].mapM pool.constant? = none := by simp [first]
  have differ : a ≠ b := by
    rintro rfl
    simp [truth?_eq_none_of_constant? first] at truth
  simp [simplification, constants, simplifyEq, differ, isBool, truth?_eq_none_of_constant? first, truth]

/-- The exclusive disjunction of two different expressions that stand by themselves
stays. -/
theorem simplification_xor (first : Stands pool op a) (second : Stands pool op b) (differ : a ≠ b) :
    simplification pool .xor [a, b] = .ok none := by
  have constants : [a, b].mapM pool.constant? = none := by simp [first.constant?_eq]
  have kept : simplifyXor pool a b = none := by
    simp [simplifyXor, truth?_eq_none_of_constant? first.constant?_eq,
      truth?_eq_none_of_constant? second.constant?_eq, differ, opposed, first.negated?_eq,
      second.negated?_eq]
  simp [simplification, constants, kept]

end Rules

namespace Pool

variable {pool : Pool} {e x r : ExprId} {ty : Ty} {op : Op} {a b : ExprId}

/-- An expression without negations in which nothing is to be decomposed and no rule
simplifies anything. -/
def Settled (pool : Pool) (e : ExprId) : Prop :=
  pool.Everywhere (fun op operands => op ≠ .not ∧ op.decomposes = false ∧
    Rules.simplification pool op operands = .ok none) e

/-- Nothing but canonicalization changes such an expression. -/
theorem Settled.still {pass : Pass} (settled : pool.Settled e) (typed : pool.WellTyped)
    (prepares : pass ∈ Pass.preparation) (reaches : pool.Reaches e x) :
    pass.step x pool = .ok x pool := by
  cases pass with
  | simplify => exact Pass.simplify_eq_self fun op found => (settled reaches op found).2.2
  | pushNegation =>
    exact Pass.absorb_eq_self typed fun isNot => absurd rfl (settled reaches .not isNot).1
  | decompose =>
    refine Pass.atTop_eq_self fun {ty op operands} stored decomposes => ?_
    rw [(settled reaches op (op?_of_apply stored)).2.1] at decomposes
    cases decomposes
  | canonicalize => simp [Pass.preparation] at prepares

theorem Settled.derives (settled : pool.Settled e) (typed : pool.WellTyped) (stored : pool.Has e) :
    Pass.Derives .simplify (pool.tree e) (pool.tree e) :=
  Pass.derives_self typed stored fun _ => settled.still typed (by simp [Pass.preparation])

theorem Settled.derivesAll (settled : pool.Settled e) (typed : pool.WellTyped) (stored : pool.Has e) :
    Pass.DerivesAll Pass.preparation (pool.tree e) (pool.tree e) :=
  Pass.derivesAll_self typed stored fun _ prepares _ => settled.still typed prepares

theorem op?_of_tree {trees : List Tree} (stored : pool.Has e) (same : pool.tree e = .apply op trees) :
    pool.op? e = some op := by
  obtain ⟨⟨ty, form⟩, found⟩ := has_iff.mp stored
  rw [tree_of_node? found] at same
  cases form <;> cases same
  exact op?_of_apply found

/-- The normal form of an expression that is simplified to a settled one has the
operator of that. -/
theorem Settled.op?_eq {r : ExprId} (settled : pool.Settled x) (typed : pool.WellTyped)
    (stored : pool.Has x) (first : Pass.Derives .simplify (pool.tree e) (pool.tree x))
    (chain : Pass.Chain pool Pass.stages e r) : pool.op? r = pool.op? x := by
  obtain ⟨p, prepared, canonicalized⟩ := chain.exists_canonicalized
  cases prepared with
  | cons simplified rest =>
    obtain rfl := typed.tree_injective simplified.refines.has_right stored
      (simplified.derives.unique first)
    obtain rfl := rest.eq_of_still typed fun pass member _ =>
      settled.still typed (List.mem_cons_of_mem _ member)
    exact Reordered.op?_eq canonicalized.settles

theorem settled_leaf (leaf : pool.op? e = none) : pool.Settled e :=
  everywhere_leaf leaf

theorem settled_var {name : String} (stored : pool.node? e = some ⟨ty, .var name⟩) : pool.Settled e :=
  settled_leaf (by simp [op?, stored, Node.op?])

section Pair

variable (stored : pool.node? e = some ⟨ty, .apply op [a, b]⟩) (differ : a ≠ b)
  (stand : ∀ operand ∈ [a, b], Rules.Stands pool op operand)
  (settled : ∀ operand ∈ [a, b], pool.Settled operand)
include stored differ stand settled

/-- A junction of two settled expressions that stand by themselves is settled. -/
theorem settled_junction (isAndOr : op = .and ∨ op = .or) : pool.Settled e := by
  have kept := Rules.simplification_pair isAndOr (stand a (by simp)) (stand b (by simp)) differ
  refine (everywhere_apply stored).mpr ⟨⟨?_, ?_, kept⟩, settled⟩ <;>
    rcases isAndOr with rfl | rfl <;> simp [Op.decomposes]

theorem settled_xor (isXor : op = .xor) : pool.Settled e := by
  subst isXor
  have kept := Rules.simplification_xor (stand a (by simp)) (stand b (by simp)) differ
  exact (everywhere_apply stored).mpr ⟨⟨by simp, rfl, kept⟩, settled⟩

end Pair

/-- Simplification derives a stored expression from the application that it replaces, if
the operands and the expression are simple. -/
theorem derives_known {operands : List ExprId} (typed : pool.WellTyped)
    (stored : pool.node? e = some ⟨ty, .apply op operands⟩) (simplifies : op.simplifies)
    (known : Rules.simplification pool op operands = .ok (some (.known r))) (differ : r ≠ e)
    (has : pool.Has r) (each : ∀ operand ∈ operands,
      Pass.Derives .simplify (pool.tree operand) (pool.tree operand))
    (self : Pass.Derives .simplify (pool.tree r) (pool.tree r)) :
    Pass.Derives .simplify (pool.tree e) (pool.tree r) := by
  have isStored : pool.Has e := has_iff.mpr ⟨_, stored⟩
  have turns : Pass.Turns .simplify (pool.tree e) (pool.tree r) :=
    .of_ok typed isStored (Pass.simplify_eq_known stored simplifies known)
  have operandsSelf :
      List.Forall₂ (Pass.Derives .simplify) (pool.tree e).operands (pool.tree e).operands := by
    rw [operands_tree isStored, operands_of_node? stored, List.forall₂_map_left_iff,
      List.forall₂_map_right_iff, List.forall₂_same]
    exact each
  have changed : pool.tree r ≠ pool.tree e := fun same => differ (typed.tree_injective has isStored same)
  exact .of_again operandsSelf (by rwa [Tree.rebuild_operands]) (by rwa [Tree.rebuild_operands]) self

/-- Simplification derives an application from another one if it derives the operands from
each other and changes nothing at the top. -/
theorem derives_operands {operands new : List ExprId} (typed : pool.WellTyped)
    (stored : pool.node? e = some ⟨ty, .apply op operands⟩)
    (target : pool.node? r = some ⟨ty, .apply op new⟩)
    (each : List.Forall₂ (fun operand result =>
      Pass.Derives .simplify (pool.tree operand) (pool.tree result)) operands new)
    (still : Rules.simplification pool op new = .ok none) :
    Pass.Derives .simplify (pool.tree e) (pool.tree r) := by
  have isStored : pool.Has r := has_iff.mpr ⟨_, target⟩
  have unchanged : Pass.step .simplify r pool = .ok r pool := by
    refine Pass.simplify_eq_self fun own found => ?_
    rw [op?_of_apply target, Option.mem_some_iff] at found
    rwa [operands_of_node? target, ← found]
  have turns : Pass.Turns .simplify (pool.tree r) (pool.tree r) := .of_ok typed isStored unchanged
  have rebuilt : (pool.tree e).rebuild (new.map pool.tree) = pool.tree r := by
    rw [tree_apply stored, tree_apply target, Tree.rebuild]
  refine .of_up rfl ?_ (rebuilt ▸ turns) fun _ => rebuilt.symm
  rw [tree_apply stored, Tree.operands, List.forall₂_map_left_iff, List.forall₂_map_right_iff]
  exact each

/-- A settled expression that stands by itself is what a junction of it with itself is
simplified to. -/
theorem Settled.derives_twice (settled : pool.Settled a) (typed : pool.WellTyped)
    (stored : pool.node? e = some ⟨ty, .apply op [a, a]⟩) (isAndOr : op = .and ∨ op = .or)
    (stands : Rules.Stands pool op a) : Pass.Derives .simplify (pool.tree e) (pool.tree a) := by
  have simplifies : op.simplifies := by rcases isAndOr with rfl | rfl <;> rfl
  have has : pool.Has a := has_of_mem_operands stored List.mem_cons_self
  have self := settled.derives typed has
  have differ : a ≠ e := by
    rintro rfl
    exact (index_lt_of_node? stored List.mem_cons_self).false
  exact derives_known typed stored simplifies (Rules.simplification_twice isAndOr stands) differ has
    (by simpa using self) self

/-- A choice by a constant is simplified to what it chooses. -/
theorem derives_choice {c : ExprId} (typed : pool.WellTyped)
    (stored : pool.node? e = some ⟨ty, .apply .ite [c, a, b]⟩)
    (truth : pool.node? c = some ⟨.bool, .const (.bool true)⟩) (first : pool.constant? a = none)
    (settled : ∀ operand ∈ [c, a, b], pool.Settled operand) :
    Pass.Derives .simplify (pool.tree e) (pool.tree a) := by
  have known : Rules.simplification pool .ite [c, a, b] = .ok (some (.known a)) :=
    Rules.simplification_ite_true (by simp [truth?, truth]) first
  have self : ∀ operand ∈ [c, a, b], Pass.Derives .simplify (pool.tree operand) (pool.tree operand) :=
    fun operand member => (settled operand member).derives typed (has_of_mem_operands stored member)
  have differ : a ≠ e := by
    rintro rfl
    exact (index_lt_of_node? stored (by simp : _ ∈ [c, _, b])).false
  exact derives_known typed stored rfl known differ (has_of_mem_operands stored (by simp)) self
    (self a (by simp))

section Steady

/-- The parts of the tree of an expression are the trees of its parts. -/
theorem exists_of_tree_reaches {part : Tree} (stored : pool.Has e)
    (reaches : (pool.tree e).Reaches part) : ∃ x, pool.Reaches e x ∧ pool.Has x ∧ part = pool.tree x := by
  induction reaches with
  | refl => exact ⟨e, .refl, stored, rfl⟩
  | tail _ member inductionHypothesis =>
    obtain ⟨x, reaches, has, rfl⟩ := inductionHypothesis
    rw [operands_tree has] at member
    obtain ⟨operand, isOperand, rfl⟩ := List.mem_map.mp member
    exact ⟨operand, reaches.tail isOperand, has_operand isOperand, rfl⟩

variable {free : Op → Prop}

/-- No operator occurs twice in an expression. -/
def Diverse (pool : Pool) (e : ExprId) : Prop :=
  ∀ a b op, pool.Reaches e a → pool.Reaches e b → pool.op? a = some op → pool.op? b = some op → a = b

/-- Then no two different parts of it vary. -/
theorem Diverse.separated (diverse : pool.Diverse e) (stored : pool.Has e) :
    (pool.tree e).Separated free := by
  intro p q reaches otherReaches varies
  obtain ⟨a, toA, aStored, rfl⟩ := exists_of_tree_reaches stored reaches
  obtain ⟨b, toB, bStored, rfl⟩ := exists_of_tree_reaches stored otherReaches
  rcases varies.cases with ⟨op, xs, ys, left, right, -⟩ | ⟨same, -⟩
  · rw [diverse a b op toA toB (op?_of_tree aStored left) (op?_of_tree bStored right)]
  · exact same

theorem Diverse.of_reaches (diverse : pool.Diverse e) (reaches : pool.Reaches e x) : pool.Diverse x :=
  fun a b op toA toB => diverse a b op (reaches.trans toA) (reaches.trans toB)

/-- The order of operands in a settled expression without repeated operators makes no
difference to the passes in front of canonicalization. -/
theorem Settled.steadyAll (settled : pool.Settled e) (typed : pool.WellTyped) (stored : pool.Has e)
    (diverse : pool.Diverse e) : Pass.SteadyAll free Pass.preparation (pool.tree e) := by
  refine Pass.steadyAll_of_still typed stored (fun pass member x => settled.still typed member) ?_
  intro pass member x reaches
  have has := (reaches.tree stored).2
  cases pass with
  | simplify => exact (diverse.of_reaches reaches).separated has
  | pushNegation =>
    intro _ denies
    have isNot : pool.op? x = some .not := by
      generalize same : pool.tree x = tree at denies
      cases denies with
      | single | pair => exact op?_of_tree has same
    exact (settled reaches .not isNot).1 rfl
  | decompose => trivial
  | canonicalize => simp [Pass.preparation] at member

end Steady

end Pool

end Clausal
