import Mathlib
import Clausal.Proofs.BuildAgreement

/-!
# Derivations of passes

A pass does one thing at a node, and a walk does it at all nodes of an expression.
`Pass.Turns` says what becomes of a tree at its top, and `Pass.Derives` what
becomes of the whole tree. Both are about trees: they mention neither the pool in
which an expression is stored nor the results that are remembered. A tree has at
most one derivation result (`Derives.unique`), so whatever makes derivations is
independent of both.
-/

namespace Clausal

namespace Tree

/-- The operands of a tree; leaves have none. -/
def operands : Tree → List Tree
  | .apply _ operands => operands
  | _ => []

/-- A tree with other operands; leaves stay as they are. -/
def rebuild : Tree → List Tree → Tree
  | .apply op _, new => .apply op new
  | leaf, _ => leaf

@[simp] theorem rebuild_operands (tree : Tree) : tree.rebuild tree.operands = tree := by
  cases tree <;> rfl

end Tree

theorem Pool.operands_tree {pool : Pool} {e : ExprId} (stored : pool.Has e) :
    (pool.tree e).operands = (pool.operands e).map pool.tree := by
  obtain ⟨⟨ty, form⟩, found⟩ := Pool.has_iff.mp stored
  rw [Pool.tree_of_node? found, Pool.operands_of_node? found]
  cases form <;> rfl

/-- There are words of width zero, and nothing is made of an expression. -/
structure Pool.Stuck (pool : Pool) (makes : Tree → Tree → Prop) (e : ExprId) : Prop where
  narrow : ¬ pool.Sized
  no_result : ¬∃ result, makes (pool.tree e) result

namespace Pass

variable {pass : Pass} {pool : Pool} {e r : ExprId} {tree top result other : Tree} {new : List Tree}

/-- What a pass does at a node. -/
def step : Pass → ExprId → Build ExprId
  | .simplify => atTop Op.simplifies Rules.simplify
  | .pushNegation => absorb
  | .canonicalize => atTop Op.canonicalizes Rules.canonicalize
  | .decompose => atTop Op.decomposes Rules.decompose

/-- Whether a pass treats operands before the node. -/
def ascends : Pass → Bool
  | .simplify | .canonicalize => true
  | .pushNegation | .decompose => false

/-- What a pass does at alike expressions is alike. -/
theorem step_accord {pools : Pools} {a b : ExprId} (pass : Pass) (alike : pools.Alike a b) :
    pools.Accord (fun _ => False) (pass.step a) (pass.step b) := by
  have matching := pools.matching_alike
  have varied := matching.varied alike
  cases pass with
  | simplify =>
    exact Pools.atTop_accord varied (matching.matched alike) fun left right aligned =>
      Pools.simplify_similar matching Op.interchange_none alike left right aligned
  | pushNegation => exact Pools.absorb_accord Op.interchange_none varied fun _ _ _ => id
  | canonicalize =>
    exact Pools.atTop_accord varied (matching.matched alike) fun _ _ aligned =>
      Pools.canonicalize_similar (aligned.inOrder id)
  | decompose =>
    exact Pools.atTop_accord varied (varied.matched False.elim) fun left _ aligned =>
      Pools.decompose_similar Op.interchange_none left aligned

/-- At the top of a tree, a pass makes another tree of it. -/
def Turns (pass : Pass) (tree top : Tree) : Prop :=
  ∃ (before after : Pool) (e r : ExprId), before.WellTyped ∧ before.Has e ∧ before.tree e = tree ∧
    pass.step e before = .ok r after ∧ after.tree r = top

theorem Turns.of_ok {after : Pool} (typed : pool.WellTyped) (stored : pool.Has e)
    (ended : pass.step e pool = .ok r after) : pass.Turns (pool.tree e) (after.tree r) :=
  ⟨pool, after, e, r, typed, stored, rfl, ended, rfl⟩

theorem Turns.unique (turns : pass.Turns tree top) (otherTurns : pass.Turns tree other) :
    top = other := by
  obtain ⟨before, after, e, r, typed, stored, unfolds, ended, rfl⟩ := turns
  obtain ⟨otherBefore, otherAfter, x, s, otherTyped, otherStored, otherUnfolds, otherEnded, rfl⟩ :=
    otherTurns
  let pools : Pools := ⟨before, otherBefore, typed, otherTyped⟩
  have alike : pools.Alike e x := ⟨stored, otherStored, unfolds.trans otherUnfolds.symm⟩
  obtain ⟨_, rfl, rfl, -, results⟩ := step_accord pass alike ended otherEnded
  exact results.varies.eq fun _ => id

/-- What a pass makes of a tree. Simplification goes on with what a rule returns
until no rule applies. -/
inductive Derives (pass : Pass) : Tree → Tree → Prop where
  | up {tree top : Tree} {new : List Tree} (ascends : pass.ascends)
      (length_eq : tree.operands.length = new.length)
      (each : ∀ (index : Nat) (operand result : Tree), tree.operands[index]? = some operand →
        new[index]? = some result → Derives pass operand result)
      (turns : pass.Turns (tree.rebuild new) top)
      (settled : pass = .simplify → top = tree.rebuild new) : Derives pass tree top
  | again {tree top result : Tree} {new : List Tree} (isSimplify : pass = .simplify)
      (length_eq : tree.operands.length = new.length)
      (each : ∀ (index : Nat) (operand result : Tree), tree.operands[index]? = some operand →
        new[index]? = some result → Derives pass operand result)
      (turns : pass.Turns (tree.rebuild new) top) (changed : top ≠ tree.rebuild new)
      (rest : Derives pass top result) : Derives pass tree result
  | down {tree top : Tree} {new : List Tree} (descends : pass.ascends = false)
      (turns : pass.Turns tree top) (length_eq : top.operands.length = new.length)
      (each : ∀ (index : Nat) (operand result : Tree), top.operands[index]? = some operand →
        new[index]? = some result → Derives pass operand result) : Derives pass tree (top.rebuild new)

namespace Derives

theorem of_up (ascends : pass.ascends) (each : List.Forall₂ pass.Derives tree.operands new)
    (turns : pass.Turns (tree.rebuild new) top) (settled : pass = .simplify → top = tree.rebuild new) :
    pass.Derives tree top := by
  obtain ⟨length_eq, each⟩ := forall₂_iff_getElem?.mp each
  exact .up ascends length_eq each turns settled

theorem of_again (each : List.Forall₂ (Derives .simplify) tree.operands new)
    (turns : Turns .simplify (tree.rebuild new) top) (changed : top ≠ tree.rebuild new)
    (rest : Derives .simplify top result) : Derives .simplify tree result := by
  obtain ⟨length_eq, each⟩ := forall₂_iff_getElem?.mp each
  exact .again rfl length_eq each turns changed rest

theorem of_down (descends : pass.ascends = false) (turns : pass.Turns tree top)
    (each : List.Forall₂ pass.Derives top.operands new) : pass.Derives tree (top.rebuild new) := by
  obtain ⟨length_eq, each⟩ := forall₂_iff_getElem?.mp each
  exact .down descends turns length_eq each

/-- Results are equal if they are at every position. -/
theorem results_unique {operands results others : List Tree}
    (length_eq : operands.length = results.length) (other_length_eq : operands.length = others.length)
    (unique : ∀ (index : Nat) (operand result : Tree), operands[index]? = some operand → results[index]? = some result →
      ∀ {other}, pass.Derives operand other → result = other)
    (each : ∀ (index : Nat) (operand other : Tree), operands[index]? = some operand → others[index]? = some other →
      pass.Derives operand other) : results = others := by
  have same : List.Forall₂ (· = ·) results others := by
    refine forall₂_iff_getElem?.mpr ⟨length_eq.symm.trans other_length_eq, ?_⟩
    intro index result other found otherFound
    obtain ⟨inside, -⟩ := List.getElem?_eq_some_iff.mp found
    have operandFound := List.getElem?_eq_getElem (length_eq ▸ inside)
    exact unique index _ result operandFound found (each index _ other operandFound otherFound)
  rwa [List.forall₂_eq_eq_eq] at same

/-- A pass makes at most one tree of a tree. -/
theorem unique (derives : pass.Derives tree result) (otherDerives : pass.Derives tree other) :
    result = other := by
  induction derives generalizing other with
  | up ascends length_eq _ turns settled inductionHypothesis =>
    cases otherDerives with
    | up _ other_length_eq each otherTurns _ =>
      obtain rfl := results_unique length_eq other_length_eq inductionHypothesis each
      exact turns.unique otherTurns
    | again isSimplify other_length_eq each otherTurns changed _ =>
      obtain rfl := results_unique length_eq other_length_eq inductionHypothesis each
      exact absurd ((otherTurns.unique turns).trans (settled isSimplify)) changed
    | down descends => exact absurd (descends.symm.trans ascends) (by simp)
  | again isSimplify length_eq _ turns changed _ inductionHypothesis restHypothesis =>
    cases otherDerives with
    | up _ other_length_eq each otherTurns settled =>
      obtain rfl := results_unique length_eq other_length_eq inductionHypothesis each
      exact absurd ((turns.unique otherTurns).trans (settled isSimplify)) changed
    | again _ other_length_eq each otherTurns _ rest =>
      obtain rfl := results_unique length_eq other_length_eq inductionHypothesis each
      obtain rfl := turns.unique otherTurns
      exact restHypothesis rest
    | down descends =>
      subst isSimplify
      cases descends
  | down descends turns length_eq _ inductionHypothesis =>
    cases otherDerives with
    | up ascends => exact absurd (descends.symm.trans ascends) (by simp)
    | again isSimplify =>
      subst isSimplify
      cases descends
    | down _ otherTurns other_length_eq each =>
      obtain rfl := turns.unique otherTurns
      rw [results_unique length_eq other_length_eq inductionHypothesis each]

end Derives

/-- What a pass leaves unchanged at every node is its own result. -/
theorem derives_self (typed : pool.WellTyped) (stored : pool.Has e)
    (still : ∀ x, pool.Reaches e x → pass.step x pool = .ok x pool) :
    pass.Derives (pool.tree e) (pool.tree e) := by
  induction stored using Pool.Has.induction with
  | step e node found inductionHypothesis =>
    have stored : pool.Has e := Pool.has_iff.mpr ⟨node, found⟩
    have turns : pass.Turns (pool.tree e) (pool.tree e) :=
      .of_ok typed stored (still e .refl)
    have each : List.Forall₂ pass.Derives (pool.tree e).operands (pool.tree e).operands := by
      rw [Pool.operands_tree stored, List.forall₂_map_left_iff, List.forall₂_map_right_iff,
        List.forall₂_same, Pool.operands_of_node? found]
      intro operand member
      exact inductionHypothesis operand member fun x reaches => still x (.of_operand found member reaches)
    cases ascends : pass.ascends with
    | true =>
      refine .of_up ascends each ?_ fun _ => (Tree.rebuild_operands _).symm
      rwa [Tree.rebuild_operands]
    | false =>
      have down := Derives.of_down ascends turns each
      rwa [Tree.rebuild_operands] at down

section Failing

variable (descends : pass.ascends = false)
include descends

/-- A tree has no result if nothing becomes of it at the top. -/
theorem not_derives_of_not_turns (stuck : ¬∃ top, pass.Turns tree top) :
    ¬∃ result, pass.Derives tree result := by
  rintro ⟨result, derives⟩
  cases derives with
  | up ascends => exact absurd (descends.symm.trans ascends) (by simp)
  | again isSimplify =>
    subst isSimplify
    cases descends
  | down _ turns => exact stuck ⟨_, turns⟩

/-- A tree has no result if an operand of what becomes of it at the top has none. -/
theorem not_derives_of_operand {operand : Tree} (turns : pass.Turns tree top)
    (member : operand ∈ top.operands) (stuck : ¬∃ result, pass.Derives operand result) :
    ¬∃ result, pass.Derives tree result := by
  rintro ⟨result, derives⟩
  cases derives with
  | up ascends => exact absurd (descends.symm.trans ascends) (by simp)
  | again isSimplify =>
    subst isSimplify
    cases descends
  | down _ otherTurns length_eq each =>
    obtain rfl := turns.unique otherTurns
    obtain ⟨result, -, derived⟩ :=
      exists_of_forall₂_of_mem (forall₂_iff_getElem?.mpr ⟨length_eq, each⟩) member
    exact stuck ⟨result, derived⟩

end Failing

/-- What passes make of a tree one after the other. -/
inductive DerivesAll : List Pass → Tree → Tree → Prop where
  | nil {tree : Tree} : DerivesAll [] tree tree
  | cons {pass : Pass} {passes : List Pass} {tree middle result : Tree}
      (first : pass.Derives tree middle) (rest : DerivesAll passes middle result) :
      DerivesAll (pass :: passes) tree result

section Sequence

variable {passes : List Pass} {middle : Tree}

theorem DerivesAll.unique (derives : DerivesAll passes tree result)
    (otherDerives : DerivesAll passes tree other) : result = other := by
  induction derives with
  | nil =>
    cases otherDerives
    rfl
  | cons first _ inductionHypothesis =>
    cases otherDerives with
    | cons otherFirst otherRest =>
      obtain rfl := first.unique otherFirst
      exact inductionHypothesis otherRest

theorem not_derivesAll_of_first (stuck : ¬∃ result, pass.Derives tree result) :
    ¬∃ result, DerivesAll (pass :: passes) tree result := by
  rintro ⟨result, _ | ⟨first, -⟩⟩
  exact stuck ⟨_, first⟩

theorem not_derivesAll_of_rest (first : pass.Derives tree middle)
    (stuck : ¬∃ result, DerivesAll passes middle result) :
    ¬∃ result, DerivesAll (pass :: passes) tree result := by
  rintro ⟨result, _ | ⟨otherFirst, rest⟩⟩
  obtain rfl := first.unique otherFirst
  exact stuck ⟨result, rest⟩

end Sequence

end Pass

end Clausal
