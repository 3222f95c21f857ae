import Mathlib
import Clausal.Proofs.Passes

/-!
# Passes and the order of operands

Passes tell expressions apart that differ only in the order of operands, and so they
may make something else of a tree whose operands are in another order. `Pass.Tolerates`
says when this cannot happen at a node: simplification must not meet two different
parts that vary, and a negation must not be pushed into an `xor`, where it goes to the
second operand. If a pass tolerates the order at all nodes that it meets, it makes
varied trees of varied trees (`Pass.Derives.varies`).
-/

namespace Clausal

section Lists

variable {α β : Type} {xs : List α} {ys : List β}

theorem total_eq_of_aligned {loose : Prop} {size : α → Nat} {otherSize : β → Nat}
    (aligned : Aligned loose (fun x y => size x = otherSize y) xs ys) :
    total size xs = total otherSize ys := by
  obtain ⟨zs, each, perm⟩ := aligned.reordered
  rw [← total_eq_of_perm perm]
  clear aligned perm
  induction each with
  | nil => rfl
  | cons first _ inductionHypothesis => rw [total_cons, total_cons, first, inductionHypothesis]

end Lists

namespace Tree

variable {free : Op → Prop} {s t : Tree}

/-- A tree and its operands, their operands and so on. -/
def Reaches : Tree → Tree → Prop :=
  Relation.ReflTransGen fun tree operand => operand ∈ tree.operands

/-- No two different parts of a tree vary. -/
def Separated (free : Op → Prop) (tree : Tree) : Prop :=
  ∀ p q, tree.Reaches p → tree.Reaches q → Varies free p q → p = q

/-- An odd number of negations in front of an `xor`. -/
inductive DeniesXor : Tree → Prop where
  | single {operands rest : List Tree} : DeniesXor (.apply .not (.apply .xor operands :: rest))
  | pair {tree : Tree} {rest others : List Tree} (inner : DeniesXor tree) :
      DeniesXor (.apply .not (.apply .not (tree :: rest) :: others))

/-- Varied trees are applications of one operator to aligned operands, or the same
leaf. -/
theorem Varies.cases (varies : Varies free s t) :
    (∃ op xs ys, s = .apply op xs ∧ t = .apply op ys ∧ Aligned (free op) (Varies free) xs ys) ∨
      s = t ∧ s.operands = [] := by
  cases s with
  | var ty name => exact .inr ⟨varies.eq_of_var.symm, rfl⟩
  | const ty value => exact .inr ⟨varies.eq_of_const.symm, rfl⟩
  | apply op xs =>
    obtain ⟨ys, rfl, aligned⟩ := varies.exists_of_apply
    exact .inl ⟨op, xs, ys, rfl, rfl, aligned⟩

end Tree

namespace Pool

variable {pool : Pool} {e x inner : ExprId}

theorem Reaches.tree (reaches : pool.Reaches e x) (stored : pool.Has e) :
    (pool.tree e).Reaches (pool.tree x) ∧ pool.Has x := by
  induction reaches with
  | refl => exact ⟨.refl, stored⟩
  | tail _ member inductionHypothesis =>
    obtain ⟨further, has⟩ := inductionHypothesis
    refine ⟨further.tail ?_, has_operand member⟩
    rw [operands_tree has]
    exact List.mem_map_of_mem member

/-- A negation of an `xor` below pairs of negations denies it. -/
theorem deniesXor_of_stripPairs (negated : pool.negated? (Pass.stripPairs pool e) = some inner)
    (isXor : pool.op? inner = some .xor) : (pool.tree e).DeniesXor := by
  induction index : e.index using Nat.strong_induction_on generalizing e with
  | _ size inductionHypothesis =>
    subst index
    rw [Pass.stripPairs_eq] at negated
    cases found : (pool.negated? e).bind pool.negated? with
    | some operand =>
      rw [found] at negated
      have denies := inductionHypothesis _ (Pass.index_lt_of_pair found) negated rfl
      obtain ⟨outer, isOuter, isOperand⟩ := Option.bind_eq_some_iff.mp found
      obtain ⟨ty, rest, stored⟩ := negated?_eq_some_iff.mp isOuter
      obtain ⟨otherTy, others, outerStored⟩ := negated?_eq_some_iff.mp isOperand
      rw [tree_apply stored, List.map_cons, tree_apply outerStored, List.map_cons]
      exact .pair denies
    | none =>
      rw [found] at negated
      obtain ⟨ty, rest, stored⟩ := negated?_eq_some_iff.mp negated
      obtain ⟨otherTy, xorStored⟩ := node?_of_op? isXor
      rw [tree_apply stored, List.map_cons, tree_apply xorStored]
      exact .single

end Pool

namespace Pools

variable {pools : Pools} {free : Op → Prop} {a b e x : ExprId}

/-- Varied expressions have the same weight. -/
theorem Varied.weight_eq (commutative : ∀ {op}, free op → op.isCommutative)
    (varied : pools.Varied free a b) : pools.left.weight a = pools.right.weight b := by
  have stored := varied.left
  induction stored using Pool.Has.induction generalizing b with
  | step a node found inductionHypothesis =>
    cases varied.matched commutative with
    | var left right | const left right =>
      rw [Pool.weight_eq_one left rfl, Pool.weight_eq_one right rfl]
    | apply left right aligned =>
      rw [left] at found
      cases found
      rw [Pool.weight_apply left, Pool.weight_apply right,
        total_eq_of_aligned (aligned.imp_of_mem fun x member y _ => inductionHypothesis x member)]

/-- The parts of two expressions match if the expressions vary and no two different
parts of one of them do. -/
theorem matching_of_separated (commutative : ∀ {op}, free op → op.isCommutative)
    (varied : pools.Varied free e x) (left : (pools.left.tree e).Separated free)
    (right : (pools.right.tree x).Separated free) :
    pools.Matching free fun a b =>
      pools.Varied free a b ∧ pools.left.Reaches e a ∧ pools.right.Reaches x b where
  biUnique := by
    constructor
    · rintro a b c ⟨first, reaches, -⟩ ⟨second, otherReaches, -⟩
      refine pools.leftTyped.tree_injective first.left second.left
        (left _ _ (reaches.tree varied.left).1 (otherReaches.tree varied.left).1 ?_)
      exact first.varies.trans second.varies.symm
    · rintro a b c ⟨first, -, reaches⟩ ⟨second, -, otherReaches⟩
      refine pools.rightTyped.tree_injective first.right second.right
        (right _ _ (reaches.tree varied.right).1 (otherReaches.tree varied.right).1 ?_)
      exact first.varies.symm.trans second.varies
  varied := And.left
  matched := by
    rintro a b ⟨varied, reaches, otherReaches⟩
    cases varied.matched commutative with
    | var left right => exact .var left right
    | const left right => exact .const left right
    | apply left right aligned =>
      refine .apply left right (aligned.imp_of_mem fun x member y otherMember varied => ⟨varied, ?_, ?_⟩)
      · exact reaches.tail (by rwa [Pool.operands_of_node? left])
      · exact otherReaches.tail (by rwa [Pool.operands_of_node? right])

end Pools

namespace Pass

variable {pass : Pass} {passes : List Pass} {free : Op → Prop}
  {tree other top otherTop result otherResult middle : Tree} {new others : List Tree}

/-- The order of the operands of free operators makes no difference to what a pass
does at the top of a tree. Canonicalization is there to change the order. -/
def Tolerates (free : Op → Prop) : Pass → Tree → Prop
  | .simplify, tree => tree.Separated free
  | .pushNegation, tree => free .xor → ¬ tree.DeniesXor
  | .decompose, _ => True
  | .canonicalize, _ => False

/-- Varied trees turn into varied trees where the order is tolerated. -/
theorem Turns.varies (interchange : Op.Interchange free) (varies : Tree.Varies free tree other)
    (tolerates : pass.Tolerates free tree) (otherTolerates : pass.Tolerates free other)
    (turns : pass.Turns tree top) (otherTurns : pass.Turns other otherTop) :
    Tree.Varies free top otherTop := by
  obtain ⟨before, after, e, r, typed, stored, rfl, ended, rfl⟩ := turns
  obtain ⟨otherBefore, otherAfter, x, s, otherTyped, otherStored, rfl, otherEnded, rfl⟩ := otherTurns
  let pools : Pools := ⟨before, otherBefore, typed, otherTyped⟩
  have varied : pools.Varied free e x := ⟨stored, otherStored, varies⟩
  have accord : pools.Accord free (pass.step e) (pass.step x) := by
    cases pass with
    | simplify =>
      have matching := Pools.matching_of_separated interchange.commutative varied tolerates otherTolerates
      have parts : pools.Varied free e x ∧ before.Reaches e e ∧ otherBefore.Reaches x x :=
        ⟨varied, .refl, .refl⟩
      exact Pools.atTop_accord varied (matching.matched parts) fun left right aligned =>
        Pools.simplify_similar matching interchange parts left right aligned
    | pushNegation =>
      refine Pools.absorb_accord interchange varied fun inner negated isXor isFree => ?_
      exact tolerates isFree (Pool.deniesXor_of_stripPairs negated isXor)
    | decompose =>
      exact Pools.atTop_accord varied (varied.matched interchange.commutative) fun left _ aligned =>
        Pools.decompose_similar interchange left aligned
    | canonicalize => exact tolerates.elim
  obtain ⟨_, rfl, rfl, -, results⟩ := accord ended otherEnded
  exact results.varies

/-- Simplification keeps both of two varied trees if it keeps one: otherwise the other
would become lighter. -/
theorem Turns.unchanged (interchange : Op.Interchange free) (varies : Tree.Varies free tree other)
    (tolerates : Tolerates free .simplify tree) (otherTolerates : Tolerates free .simplify other)
    (turns : Turns .simplify tree tree) (otherTurns : Turns .simplify other otherTop) :
    otherTop = other := by
  have results := turns.varies interchange varies tolerates otherTolerates otherTurns
  obtain ⟨pool, -, e, -, typed, stored, rfl, -⟩ := turns
  obtain ⟨otherBefore, after, x, s, otherTyped, otherStored, rfl, ended, rfl⟩ := otherTurns
  obtain ⟨advances, outcome⟩ := Stateful.Meets.of_ok (simplifyTop_yields otherTyped otherStored) ended
  have extension := advances.extension
  rcases outcome with ⟨rfl, -⟩ | ⟨step, lighter⟩
  · exact extension.tree_eq otherStored
  · let pools : Pools := ⟨pool, after, typed, advances.wellTyped otherTyped⟩
    have varied : pools.Varied free e x :=
      ⟨stored, extension.has otherStored, extension.tree_eq otherStored ▸ varies⟩
    have resultVaried : pools.Varied free e s := ⟨stored, step.refines.has_right, results⟩
    have sameWeight : after.weight s = after.weight x :=
      (resultVaried.weight_eq interchange.commutative).symm.trans
        (varied.weight_eq interchange.commutative)
    exact absurd sameWeight lighter.ne

/-- The trees at whose top a pass does something when it is run on a tree. -/
inductive Meets (pass : Pass) : Tree → Tree → Prop where
  | operand {tree operand met : Tree} (ascends : pass.ascends) (member : operand ∈ tree.operands)
      (inner : Meets pass operand met) : Meets pass tree met
  | rebuilt {tree : Tree} {new : List Tree} (ascends : pass.ascends)
      (each : List.Forall₂ pass.Derives tree.operands new) : Meets pass tree (tree.rebuild new)
  | again {tree top met : Tree} {new : List Tree} (isSimplify : pass = .simplify)
      (each : List.Forall₂ pass.Derives tree.operands new) (turns : pass.Turns (tree.rebuild new) top)
      (changed : top ≠ tree.rebuild new) (rest : Meets pass top met) : Meets pass tree met
  | top {tree : Tree} (descends : pass.ascends = false) : Meets pass tree tree
  | under {tree top operand met : Tree} (descends : pass.ascends = false) (turns : pass.Turns tree top)
      (member : operand ∈ top.operands) (inner : Meets pass operand met) : Meets pass tree met

/-- A pass tolerates the order of operands at all trees that it meets. -/
def Steady (free : Op → Prop) (pass : Pass) (tree : Tree) : Prop :=
  ∀ met, pass.Meets tree met → pass.Tolerates free met

theorem Steady.operand {operand : Tree} (steady : pass.Steady free tree) (ascends : pass.ascends)
    (member : operand ∈ tree.operands) : pass.Steady free operand :=
  fun met meets => steady met (.operand ascends member meets)

theorem Steady.under {operand : Tree} (steady : pass.Steady free tree) (descends : pass.ascends = false)
    (turns : pass.Turns tree top) (member : operand ∈ top.operands) : pass.Steady free operand :=
  fun met meets => steady met (.under descends turns member meets)

/-- Results in the places of the operands of varied trees vary if they do for varied
operands. -/
theorem varies_rebuild (varies : Tree.Varies free tree other)
    (length_eq : tree.operands.length = new.length)
    (otherEach : List.Forall₂ pass.Derives other.operands others)
    (steady : ∀ operand ∈ tree.operands, pass.Steady free operand)
    (otherSteady : ∀ operand ∈ other.operands, pass.Steady free operand)
    (results : ∀ (index : Nat) (operand result : Tree), tree.operands[index]? = some operand →
      new[index]? = some result → ∀ {other otherResult}, pass.Derives other otherResult →
        Tree.Varies free operand other → pass.Steady free operand → pass.Steady free other →
          Tree.Varies free result otherResult) :
    Tree.Varies free (tree.rebuild new) (other.rebuild others) := by
  have each : List.Forall₂ (fun operand result => ∀ other otherResult, Tree.Varies free operand other →
      pass.Derives other otherResult → pass.Steady free other → Tree.Varies free result otherResult)
      tree.operands new := by
    refine forall₂_iff_getElem?.mpr ⟨length_eq, ?_⟩
    intro index operand result found isResult other otherResult varies derives otherSteady
    exact results index operand result found isResult derives varies
      (steady operand (List.mem_of_getElem? found)) otherSteady
  have otherKept := forall₂_imp_of_mem otherEach fun operand member result derives =>
    And.intro derives (otherSteady operand member)
  rcases varies.cases with ⟨op, xs, ys, rfl, rfl, aligned⟩ | ⟨rfl, leaf⟩
  · have front : Aligned (free op) (fun result other => ∀ otherResult, pass.Derives other otherResult →
        pass.Steady free other → Tree.Varies free result otherResult) new ys :=
      Aligned.trans (.of_forall₂ each.flip) aligned
        fun result operand other keeps varies otherResult => keeps other otherResult varies
    exact .apply (front.trans (.of_forall₂ otherKept)
      fun result other otherResult keeps derives => keeps otherResult derives.1 derives.2)
  · rw [leaf] at each otherEach
    cases each
    cases otherEach
    exact .refl _

/-- A pass makes varied trees of varied trees if it tolerates the order of operands at
all trees that it meets. -/
theorem Derives.varies (interchange : Op.Interchange free) (derives : pass.Derives tree result)
    (otherDerives : pass.Derives other otherResult) (varies : Tree.Varies free tree other)
    (steady : pass.Steady free tree) (otherSteady : pass.Steady free other) :
    Tree.Varies free result otherResult := by
  induction derives generalizing other otherResult with
  | up ascends length_eq each turns settled inductionHypothesis =>
    have met := steady _ (.rebuilt ascends (forall₂_iff_getElem?.mpr ⟨length_eq, each⟩))
    cases otherDerives with
    | up _ other_length_eq otherEach otherTurns _ =>
      have derived := forall₂_iff_getElem?.mpr ⟨other_length_eq, otherEach⟩
      have rebuilt := varies_rebuild varies length_eq derived (fun _ => steady.operand ascends)
        (fun _ => otherSteady.operand ascends) inductionHypothesis
      exact Turns.varies interchange rebuilt met (otherSteady _ (.rebuilt ascends derived)) turns otherTurns
    | again isSimplify other_length_eq otherEach otherTurns changed _ =>
      have derived := forall₂_iff_getElem?.mpr ⟨other_length_eq, otherEach⟩
      have rebuilt := varies_rebuild varies length_eq derived (fun _ => steady.operand ascends)
        (fun _ => otherSteady.operand ascends) inductionHypothesis
      subst isSimplify
      rw [settled rfl] at turns
      exact absurd (Turns.unchanged interchange rebuilt met (otherSteady _ (.rebuilt ascends derived)) turns
        otherTurns) changed
    | down descends => exact absurd (descends.symm.trans ascends) (by simp)
  | again isSimplify length_eq each turns changed _ inductionHypothesis restHypothesis =>
    subst isSimplify
    have derivedHere := forall₂_iff_getElem?.mpr ⟨length_eq, each⟩
    have met := steady _ (.rebuilt rfl derivedHere)
    cases otherDerives with
    | up _ other_length_eq otherEach otherTurns settled =>
      have derived := forall₂_iff_getElem?.mpr ⟨other_length_eq, otherEach⟩
      have rebuilt := varies_rebuild varies length_eq derived (fun _ => steady.operand rfl)
        (fun _ => otherSteady.operand rfl) inductionHypothesis
      rw [settled rfl] at otherTurns
      exact absurd (Turns.unchanged interchange rebuilt.symm (otherSteady _ (.rebuilt rfl derived)) met
        otherTurns turns) changed
    | again _ other_length_eq otherEach otherTurns otherChanged otherRest =>
      have derived := forall₂_iff_getElem?.mpr ⟨other_length_eq, otherEach⟩
      have rebuilt := varies_rebuild varies length_eq derived (fun _ => steady.operand rfl)
        (fun _ => otherSteady.operand rfl) inductionHypothesis
      refine restHypothesis otherRest (Turns.varies interchange rebuilt met
        (otherSteady _ (.rebuilt rfl derived)) turns otherTurns) ?_ ?_
      · exact fun tree meets => steady tree (.again rfl derivedHere turns changed meets)
      · exact fun tree meets => otherSteady tree (.again rfl derived otherTurns otherChanged meets)
    | down descends => cases descends
  | down descends turns length_eq each inductionHypothesis =>
    cases otherDerives with
    | up ascends => exact absurd (descends.symm.trans ascends) (by simp)
    | again isSimplify =>
      subst isSimplify
      cases descends
    | down _ otherTurns other_length_eq otherEach =>
      have tops := Turns.varies interchange varies (steady _ (.top descends)) (otherSteady _ (.top descends))
        turns otherTurns
      exact varies_rebuild tops length_eq (forall₂_iff_getElem?.mpr ⟨other_length_eq, otherEach⟩)
        (fun _ => steady.under descends turns) (fun _ => otherSteady.under descends otherTurns)
        inductionHypothesis

/-- Passes one after the other tolerate the order of operands at all trees that they
meet. -/
def SteadyAll (free : Op → Prop) : List Pass → Tree → Prop
  | [], _ => True
  | pass :: passes, tree =>
    pass.Steady free tree ∧ ∀ middle, pass.Derives tree middle → SteadyAll free passes middle

theorem DerivesAll.varies (interchange : Op.Interchange free) (derives : DerivesAll passes tree result)
    (otherDerives : DerivesAll passes other otherResult) (varies : Tree.Varies free tree other)
    (steady : SteadyAll free passes tree) (otherSteady : SteadyAll free passes other) :
    Tree.Varies free result otherResult := by
  induction derives generalizing other otherResult with
  | nil =>
    cases otherDerives
    exact varies
  | cons first _ inductionHypothesis =>
    cases otherDerives with
    | cons otherFirst otherRest =>
      have middles := first.varies interchange otherFirst varies steady.1 otherSteady.1
      exact inductionHypothesis otherRest middles (steady.2 _ first) (otherSteady.2 _ otherFirst)

section Still

variable {pool : Pool} {e : ExprId} {met : Tree} (typed : pool.WellTyped) (stored : pool.Has e)
include typed stored

/-- Nothing but its parts is met in a tree that stays as it is. -/
theorem Meets.exists_of_still (still : ∀ x, pool.Reaches e x → pass.step x pool = .ok x pool)
    (meets : pass.Meets (pool.tree e) met) : ∃ x, pool.Reaches e x ∧ met = pool.tree x := by
  have kept : ∀ {e}, pool.Has e → (∀ x, pool.Reaches e x → pass.step x pool = .ok x pool) → ∀ {new},
      List.Forall₂ pass.Derives (pool.tree e).operands new → (pool.tree e).rebuild new = pool.tree e := by
    intro e stored still new each
    have same : List.Forall₂ Eq (pool.tree e).operands new := by
      refine forall₂_imp_of_mem each fun operand member result derives => ?_
      rw [Pool.operands_tree stored] at member
      obtain ⟨x, isOperand, rfl⟩ := List.mem_map.mp member
      have self := derives_self typed (Pool.has_operand isOperand) fun y reaches =>
        still y (.head isOperand reaches)
      exact self.unique derives
    rw [List.forall₂_eq_eq_eq] at same
    rw [← same, Tree.rebuild_operands]
  generalize same : pool.tree e = tree at meets
  induction meets generalizing e with
  | operand ascends member _ inductionHypothesis =>
    subst same
    rw [Pool.operands_tree stored] at member
    obtain ⟨operand, isOperand, rfl⟩ := List.mem_map.mp member
    obtain ⟨x, reaches, found⟩ := inductionHypothesis (Pool.has_operand isOperand)
      (fun y reaches => still y (.head isOperand reaches)) rfl
    exact ⟨x, .head isOperand reaches, found⟩
  | rebuilt ascends each =>
    subst same
    exact ⟨e, .refl, kept stored still each⟩
  | again isSimplify each turns changed _ inductionHypothesis =>
    subst same
    rw [kept stored still each] at turns changed
    exact absurd (turns.unique (.of_ok typed stored (still e .refl))) changed
  | top descends => exact ⟨e, .refl, same.symm⟩
  | under descends turns member _ inductionHypothesis =>
    subst same
    obtain rfl := turns.unique (.of_ok typed stored (still e .refl))
    rw [Pool.operands_tree stored] at member
    obtain ⟨operand, isOperand, rfl⟩ := List.mem_map.mp member
    obtain ⟨x, reaches, found⟩ := inductionHypothesis (Pool.has_operand isOperand)
      (fun y reaches => still y (.head isOperand reaches)) rfl
    exact ⟨x, .head isOperand reaches, found⟩

/-- Passes that change no node of an expression are steady if they tolerate the order
at its nodes. -/
theorem steadyAll_of_still
    (still : ∀ pass ∈ passes, ∀ x, pool.Reaches e x → pass.step x pool = .ok x pool)
    (tolerates : ∀ pass ∈ passes, ∀ x, pool.Reaches e x → pass.Tolerates free (pool.tree x)) :
    SteadyAll free passes (pool.tree e) := by
  induction passes with
  | nil => trivial
  | cons pass passes inductionHypothesis =>
    rw [List.forall_mem_cons] at still tolerates
    refine ⟨fun met meets => ?_, fun middle derives => ?_⟩
    · obtain ⟨x, reaches, rfl⟩ := meets.exists_of_still typed stored still.1
      exact tolerates.1 x reaches
    · obtain rfl := derives.unique (derives_self typed stored still.1)
      exact inductionHypothesis still.2 tolerates.2

end Still

end Pass

end Clausal
