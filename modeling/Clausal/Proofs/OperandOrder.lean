import Mathlib
import Clausal.Proofs.Confluence
import Clausal.Proofs.Settled

/-!
# Normal forms and the order of operands

Normalization sorts operands in its last pass only. The passes before it tell
expressions apart that differ in the order of operands, so rearrangements may have
different normal forms. These have the same type and the same values, and they are
the same exactly if what the last pass starts from is a rearrangement. It is one if
the passes before it tolerate the order of operands wherever they come.
-/

namespace Clausal

namespace Tree

variable {s t : Tree}

/-- Rearrangements are variations where all commutative operators are free. -/
theorem Rearranges.varies (rearranges : s.Rearranges t) : Varies Op.Commutes s t := by
  have exchanges : Permutes ≤ Exchanges Op.Commutes := by
    intro s t step
    induction step with
    | here commutes perm => exact .here commutes perm
    | inside _ inductionHypothesis => exact .inside inductionHypothesis
  exact Relation.ReflTransGen.mono exchanges s t rearranges

theorem Varies.rearranges {free : Op → Prop} (varies : Varies free s t)
    (commutative : ∀ {op}, free op → op.isCommutative) : s.Rearranges t := by
  have permutes : Exchanges free ≤ Permutes := by
    intro s t step
    induction step with
    | here isFree perm => exact .here (Op.isCommutative_iff.mp (commutative isFree)) perm
    | inside _ inductionHypothesis => exact .inside inductionHypothesis
  exact Relation.ReflTransGen.mono permutes s t varies

end Tree

namespace Pass

variable {pool : Pool} {p q r s : ExprId}

/-- Canonicalization returns the canonical tree. -/
theorem Result.canonical_tree (result : Result .canonicalize pool p r) (typed : pool.WellTyped) :
    (pool.tree p).canonical = pool.tree r := by
  obtain ⟨types, declared⟩ := typed.exists_declared
  have rearranges := Pool.Reordered.rearranges result.settles
  rw [(rearranges.canonical_eq (declared p result.refines.has_left)).1]
  exact (result.inOrder rfl).canonical_tree result.refines.has_right

/-- Canonicalization returns the same for rearrangements and for nothing else. -/
theorem Result.eq_iff_rearranges (typed : pool.WellTyped) (result : Result .canonicalize pool p r)
    (other : Result .canonicalize pool q s) : r = s ↔ (pool.tree p).Rearranges (pool.tree q) := by
  constructor
  · rintro rfl
    exact (Pool.Reordered.rearranges result.settles).trans (Pool.Reordered.rearranges other.settles).symm
  · intro rearranges
    obtain ⟨types, declared⟩ := typed.exists_declared
    refine typed.tree_injective result.refines.has_right other.refines.has_right ?_
    rw [← result.canonical_tree typed, ← other.canonical_tree typed]
    exact (rearranges.canonical_eq (declared p result.refines.has_left)).1

end Pass

namespace Pool

variable {pool : Pool} {x y : ExprId}

/-- A gate of variables is the only application in it. -/
theorem Reaches.eq_of_gate {name other : String} {gate e : ExprId} {ty : Ty} {op top : Op}
    (reaches : pool.Reaches gate e) (xStored : pool.node? x = some ⟨.bool, .var name⟩)
    (yStored : pool.node? y = some ⟨.bool, .var other⟩)
    (stored : pool.node? gate = some ⟨ty, .apply op [x, y]⟩) (isTop : pool.op? e = some top) :
    top = op ∧ e = gate := by
  have same : e = gate := by
    by_contra differ
    obtain ⟨operand, member, further⟩ := reaches.exists_operand stored differ
    rcases List.mem_pair.mp member with rfl | rfl
    · obtain rfl := further.eq_of_leaf xStored rfl
      simp [op?, xStored, Node.op?] at isTop
    · obtain rfl := further.eq_of_leaf yStored rfl
      simp [op?, yStored, Node.op?] at isTop
  subst same
  exact ⟨Option.some.inj (isTop.symm.trans (op?_of_apply stored)), rfl⟩

section Sum

variable {name other : String} {carry sum top : ExprId} {operands : List ExprId}
  (xStored : pool.node? x = some ⟨.bool, .var name⟩) (yStored : pool.node? y = some ⟨.bool, .var other⟩)
  (differ : x ≠ y) (carryStored : pool.node? carry = some ⟨.bool, .apply .and [x, y]⟩)
  (sumStored : pool.node? sum = some ⟨.bool, .apply .xor [x, y]⟩)
  (topStored : pool.node? top = some ⟨.bool, .apply .or operands⟩)
  (isPair : operands = [carry, sum] ∨ operands = [sum, carry])
include xStored yStored differ carryStored sumStored topStored isPair

/-- The passes in front of canonicalization tolerate the order of the operands where
one of the carry and the sum of two variables is asked for. -/
theorem steadyAll_sum {free : Op → Prop} (typed : pool.WellTyped) :
    Pass.SteadyAll free Pass.preparation (pool.tree top) := by
  have stand : ∀ {op}, ∀ operand ∈ [x, y], Rules.Stands pool op operand := by
    simp [Rules.stands_var xStored, Rules.stands_var yStored]
  have settled : ∀ operand ∈ [x, y], pool.Settled operand := by
    simp [settled_var xStored, settled_var yStored]
  have carrySettled := settled_junction carryStored differ stand settled (.inl rfl)
  have sumSettled := settled_xor sumStored differ stand settled rfl
  have carryStands : Rules.Stands pool .or carry := Rules.stands_apply carryStored (by simp) (by decide)
  have sumStands : Rules.Stands pool .or sum := Rules.stands_apply sumStored (by simp) (by decide)
  have apart : carry ≠ sum := by
    rintro rfl
    simp [carryStored] at sumStored
  have topSettled : pool.Settled top := by
    rcases isPair with rfl | rfl
    · exact settled_junction topStored apart (by simp [carryStands, sumStands])
        (by simp [carrySettled, sumSettled]) (.inr rfl)
    · exact settled_junction topStored apart.symm (by simp [carryStands, sumStands])
        (by simp [carrySettled, sumSettled]) (.inr rfl)
  refine topSettled.steadyAll typed (has_iff.mpr ⟨_, topStored⟩) ?_
  have parts : ∀ e op, pool.Reaches top e → pool.op? e = some op →
      op = .or ∧ e = top ∨ op = .and ∧ e = carry ∨ op = .xor ∧ e = sum := by
    intro e op reaches isOp
    by_cases isTop : e = top
    · subst isTop
      exact .inl ⟨Option.some.inj (isOp.symm.trans (op?_of_apply topStored)), rfl⟩
    · obtain ⟨operand, member, further⟩ := reaches.exists_operand topStored isTop
      have isGate : operand = carry ∨ operand = sum := by
        rcases isPair with rfl | rfl <;> simpa [or_comm] using member
      rcases isGate with rfl | rfl
      · exact .inr (.inl (further.eq_of_gate xStored yStored carryStored isOp))
      · exact .inr (.inr (further.eq_of_gate xStored yStored sumStored isOp))
  intro a b op toA toB aOp bOp
  rcases parts a op toA aOp with ⟨rfl, rfl⟩ | ⟨rfl, rfl⟩ | ⟨rfl, rfl⟩ <;>
    simpa [eq_comm] using parts b _ toB bOp

end Sum

section Disjunctions

variable {either other twice both r s : ExprId} (xStored : pool.node? x = some ⟨.bool, .var "x"⟩)
  (yStored : pool.node? y = some ⟨.bool, .var "y"⟩)
  (eitherStored : pool.node? either = some ⟨.bool, .apply .or [x, y]⟩)
  (otherStored : pool.node? other = some ⟨.bool, .apply .or [y, x]⟩)
  (twiceStored : pool.node? twice = some ⟨.bool, .apply .and [either, either]⟩)
  (bothStored : pool.node? both = some ⟨.bool, .apply .and [either, other]⟩)
include xStored yStored eitherStored otherStored twiceStored bothStored

/-- The normal forms of a disjunction with itself and with the one in the other order
have different operators. -/
theorem normal_forms_ne (typed : pool.WellTyped) (chain : Pass.Chain pool Pass.stages twice r)
    (otherChain : Pass.Chain pool Pass.stages both s) : r ≠ s := by
  have differ : x ≠ y := by
    rintro rfl
    simp [xStored] at yStored
  have eitherSettled : pool.Settled either := by
    refine settled_junction eitherStored differ ?_ ?_ (.inr rfl)
    · simp [Rules.stands_var xStored, Rules.stands_var yStored]
    · simp [settled_var xStored, settled_var yStored]
  have otherSettled : pool.Settled other := by
    refine settled_junction otherStored differ.symm ?_ ?_ (.inr rfl)
    · simp [Rules.stands_var xStored, Rules.stands_var yStored]
    · simp [settled_var xStored, settled_var yStored]
  have eitherStands : Rules.Stands pool .and either :=
    Rules.stands_apply eitherStored (by simp) (by decide)
  have otherStands : Rules.Stands pool .and other := Rules.stands_apply otherStored (by simp) (by decide)
  have bothSettled : pool.Settled both := by
    refine settled_junction bothStored ?_ ?_ ?_ (.inl rfl)
    · rintro rfl
      rw [eitherStored] at otherStored
      simp [differ] at otherStored
    · simp [eitherStands, otherStands]
    · simp [eitherSettled, otherSettled]
  have bothHas : pool.Has both := has_iff.mpr ⟨_, bothStored⟩
  have disjunction : pool.op? r = some .or := by
    rw [eitherSettled.op?_eq typed (has_iff.mpr ⟨_, eitherStored⟩) (eitherSettled.derives_twice typed
      twiceStored (.inl rfl) eitherStands) chain]
    exact op?_of_apply eitherStored
  have conjunction : pool.op? s = some .and := by
    rw [bothSettled.op?_eq typed bothHas (Pass.derives_self typed bothHas fun x =>
      bothSettled.still typed (by simp [Pass.preparation])) otherChain]
    exact op?_of_apply bothStored
  rintro rfl
  simp [disjunction] at conjunction

end Disjunctions

end Pool

namespace Workspace

section Confluence

variable {workspace middle after : Workspace PassMemory} {e x r s : ExprId}

/-- Normal forms of two expressions, one after the other, in the last pool. -/
theorem Coherent.exists_chains (coherent : workspace.Coherent) (left : workspace.pool.Has e)
    (right : workspace.pool.Has x)
    (ended : Pass.normalize e workspace = .ok r middle)
    (otherEnded : Pass.normalize x middle = .ok s after) :
    workspace.pool.Extends after.pool ∧ after.pool.WellTyped ∧
      Pass.Chain after.pool Pass.stages e r ∧ Pass.Chain after.pool Pass.stages x s := by
  obtain ⟨toMiddle, chain⟩ := (Pass.normalize_tries coherent left).of_ok ended
  have middleCoherent := toMiddle.coherent coherent
  obtain ⟨toAfter, otherChain⟩ :=
    (Pass.normalize_tries middleCoherent (toMiddle.extension.has right)).of_ok otherEnded
  exact ⟨toMiddle.extension.trans toAfter.extension, (toAfter.coherent middleCoherent).typed,
    chain.mono toAfter.extension, otherChain⟩

/-- The normal forms of an expression and of a rearrangement of it have the same type
and the same values. They are the same exactly if what canonicalization starts from
still is a rearrangement, and this is so if the passes in front of it tolerate the
order of operands wherever they come. -/
theorem Evolved.normalize_rearranged (evolved : workspace.Evolved) (left : workspace.pool.Has e)
    (right : workspace.pool.Has x)
    (rearranges : (workspace.pool.tree e).Rearranges (workspace.pool.tree x)) :
    (workspace.pool.Sized → ∃ r middle s after, Pass.normalize e workspace = .ok r middle ∧
      Pass.normalize x middle = .ok s after) ∧
    ∀ r middle s after, Pass.normalize e workspace = .ok r middle →
      Pass.normalize x middle = .ok s after →
      (∃ ty, after.pool.ty r = .ok ty ∧ after.pool.ty s = .ok ty) ∧
      (∀ env value, workspace.pool.evaluate e env = .ok value →
        after.pool.evaluate r env = .ok value ∧ after.pool.evaluate s env = .ok value) ∧
      (∃ p q, Pass.DerivesAll Pass.preparation (workspace.pool.tree e) p ∧
        Pass.DerivesAll Pass.preparation (workspace.pool.tree x) q ∧ (r = s ↔ p.Rearranges q)) ∧
      ∀ free, Op.Interchange free →
        Tree.Varies free (workspace.pool.tree e) (workspace.pool.tree x) →
        Pass.SteadyAll free Pass.preparation (workspace.pool.tree e) →
        Pass.SteadyAll free Pass.preparation (workspace.pool.tree x) → r = s := by
  have coherent := evolved.coherent
  constructor
  · intro sized
    obtain ⟨r, middle, ended, toMiddle, -⟩ := (Pass.normalize_yields ⟨coherent, sized⟩ left).exists_ok
    obtain ⟨s, after, otherEnded, -⟩ := (Pass.normalize_yields (toMiddle.sound ⟨coherent, sized⟩)
      (toMiddle.extension.has right)).exists_ok
    exact ⟨r, middle, s, after, ended, otherEnded⟩
  intro r middle s after ended otherEnded
  obtain ⟨extension, typed, chain, otherChain⟩ := coherent.exists_chains left right ended otherEnded
  let pools : Pools := ⟨workspace.pool, workspace.pool, coherent.typed, coherent.typed⟩
  have commutative : ∀ {op : Op}, op.Commutes → op.isCommutative := Op.isCommutative_iff.mpr
  have varied : pools.Varied Op.Commutes e x := ⟨left, right, rearranges.varies⟩
  obtain ⟨p, prepared, canonicalized⟩ := chain.exists_canonicalized
  obtain ⟨q, otherPrepared, otherCanonicalized⟩ := otherChain.exists_canonicalized
  have derives := prepared.derives
  have otherDerives := otherPrepared.derives
  rw [extension.tree_eq left] at derives
  rw [extension.tree_eq right] at otherDerives
  have criterion := canonicalized.eq_iff_rearranges typed otherCanonicalized
  refine ⟨?types, fun env value evaluated => ?values, ⟨_, _, derives, otherDerives, criterion⟩,
    fun free interchange varies steady otherSteady => ?same⟩
  case types =>
    obtain ⟨ty, hasTy, resultTy⟩ := chain.refines.sameTy
    refine ⟨ty, Pool.ty_eq_ok_iff.mpr resultTy, Pool.ty_eq_ok_iff.mpr (otherChain.refines.hasTy ?_)⟩
    rw [extension.hasTy_iff left] at hasTy
    exact extension.hasTy ((varied.matched commutative).hasTy_iff.mp hasTy)
  case values =>
    have otherEvaluated := varied.evaluate commutative evaluated
    rw [← extension.evaluate_eq left] at evaluated
    rw [← extension.evaluate_eq right] at otherEvaluated
    exact ⟨chain.refines.means evaluated, otherChain.refines.means otherEvaluated⟩
  case same =>
    have preparedVary := derives.varies interchange otherDerives varies steady otherSteady
    exact criterion.mpr (preparedVary.rearranges interchange.commutative)

end Confluence

/-- Conjunctions, disjunctions and exclusive ones may change the order of their operands. -/
theorem interchange_connectives : Op.Interchange fun op => op = .and ∨ op = .or ∨ op = .xor where
  commutative := by rintro _ (rfl | rfl | rfl) <;> rfl
  not_mul := by simp
  and_iff_or := by simp
  or_of_clause := by simp
  xor_of_eq := by simp
  of_add := by simp

/-- The carry and the sum of two boolean expressions can be added. -/
theorem Reachable.exists_carry_sum {workspace : Workspace PassMemory} {x y : ExprId}
    (reachable : workspace.Reachable) (first : workspace.pool.HasTy x .bool)
    (second : workspace.pool.HasTy y .bool) :
    ∃ (after : Workspace PassMemory) (carry sum : ExprId), after.Reachable ∧
      workspace.pool.Extends after.pool ∧ after.pool.node? carry = some ⟨.bool, .apply .and [x, y]⟩ ∧
        after.pool.node? sum = some ⟨.bool, .apply .xor [x, y]⟩ := by
  obtain ⟨middle, carry, middleReachable, toMiddle, carryStored⟩ :=
    reachable.exists_gate (.and (by simp) (by simp)) (by simp) first second
  obtain ⟨after, sum, afterReachable, toAfter, sumStored⟩ :=
    middleReachable.exists_gate .xor (by simp) (toMiddle.hasTy first) (toMiddle.hasTy second)
  exact ⟨after, carry, sum, afterReachable, toMiddle.trans toAfter, toAfter carryStored, sumStored⟩

/-- One of the carry and the sum of two variables has the same normal form when all
operands change places. -/
theorem normalize_rearranged_sum :
    ∃ (workspace middle after : Workspace PassMemory) (x y carry sum top swapped r : ExprId)
      (carried summed : ExprId), workspace.Reachable ∧ x ≠ y ∧
      workspace.pool.node? carry = some ⟨.bool, .apply .and [x, y]⟩ ∧
      workspace.pool.node? sum = some ⟨.bool, .apply .xor [x, y]⟩ ∧
      workspace.pool.node? top = some ⟨.bool, .apply .or [carry, sum]⟩ ∧
      workspace.pool.node? carried = some ⟨.bool, .apply .and [y, x]⟩ ∧
      workspace.pool.node? summed = some ⟨.bool, .apply .xor [y, x]⟩ ∧
      workspace.pool.node? swapped = some ⟨.bool, .apply .or [summed, carried]⟩ ∧
      Pass.normalize top workspace = .ok r middle ∧ Pass.normalize swapped middle = .ok r after := by
  obtain ⟨first, x, y, firstReachable, xStored, yStored⟩ :=
    exists_reachable_variables (by decide : "y" ≠ "x")
  have differ : x ≠ y := by
    rintro rfl
    simp [xStored] at yStored
  obtain ⟨second, carry, sum, secondReachable, toSecond, carryStored, sumStored⟩ :=
    firstReachable.exists_carry_sum ⟨_, xStored⟩ ⟨_, yStored⟩
  obtain ⟨third, carried, summed, thirdReachable, toThird, carriedStored, summedStored⟩ :=
    secondReachable.exists_carry_sum ⟨_, toSecond yStored⟩ ⟨_, toSecond xStored⟩
  obtain ⟨fourth, top, fourthReachable, toFourth, topStored⟩ := thirdReachable.exists_gate
    (.or (by simp) (by simp)) (by simp) ⟨_, toThird carryStored⟩ ⟨_, toThird sumStored⟩
  obtain ⟨workspace, swapped, reachable, toLast, swappedStored⟩ := fourthReachable.exists_gate
    (.or (by simp) (by simp)) (by simp) ⟨_, toFourth summedStored⟩ ⟨_, toFourth carriedStored⟩
  have fromThird := toFourth.trans toLast
  have fromSecond := toThird.trans fromThird
  have fromFirst := toSecond.trans fromSecond
  replace carryStored := fromSecond carryStored
  replace sumStored := fromSecond sumStored
  replace carriedStored := fromThird carriedStored
  replace summedStored := fromThird summedStored
  replace topStored := toLast topStored
  have varies : Tree.Varies (fun op => op = .and ∨ op = .or ∨ op = .xor) (workspace.pool.tree top)
      (workspace.pool.tree swapped) := by
    rw [Pool.tree_apply topStored, Pool.tree_apply swappedStored]
    refine .apply (.of_perm (.inr (.inl rfl)) (.cons ?_ (.cons ?_ .nil)) (.swap _ _ _))
    · rw [Pool.tree_apply carryStored, Pool.tree_apply carriedStored]
      exact .single (.here (.inl rfl) (.swap _ _ _))
    · rw [Pool.tree_apply sumStored, Pool.tree_apply summedStored]
      exact .single (.here (.inr (.inr rfl)) (.swap _ _ _))
  have typed := reachable.sound.typed
  obtain ⟨succeed, agree⟩ := reachable.evolved.normalize_rearranged (Pool.has_iff.mpr ⟨_, topStored⟩)
    (Pool.has_iff.mpr ⟨_, swappedStored⟩) (varies.rearranges interchange_connectives.commutative)
  obtain ⟨r, middle, s, after, ended, otherEnded⟩ := succeed reachable.sound.sized
  have same : r = s := (agree r middle s after ended otherEnded).2.2.2 _ interchange_connectives varies
    (Pool.steadyAll_sum (fromFirst xStored) (fromFirst yStored) differ carryStored sumStored topStored
      (.inl rfl) typed)
    (Pool.steadyAll_sum (fromFirst yStored) (fromFirst xStored) differ.symm carriedStored summedStored
      swappedStored (.inr rfl) typed)
  exact ⟨workspace, middle, after, x, y, carry, sum, top, swapped, r, carried, summed, reachable, differ,
    carryStored, sumStored, topStored, carriedStored, summedStored, swappedStored, ended,
    same ▸ otherEnded⟩

/-- A conjunction of one disjunction with itself is that disjunction. A conjunction of
it with the same disjunction in the other order stays a conjunction. -/
theorem normalize_ne_of_rearranges :
    ∃ (workspace middle after : Workspace PassMemory) (x y either other twice both r s : ExprId),
      workspace.Reachable ∧ workspace.pool.node? x = some ⟨.bool, .var "x"⟩ ∧
      workspace.pool.node? y = some ⟨.bool, .var "y"⟩ ∧
      workspace.pool.node? either = some ⟨.bool, .apply .or [x, y]⟩ ∧
      workspace.pool.node? other = some ⟨.bool, .apply .or [y, x]⟩ ∧
      workspace.pool.node? twice = some ⟨.bool, .apply .and [either, either]⟩ ∧
      workspace.pool.node? both = some ⟨.bool, .apply .and [either, other]⟩ ∧
      (workspace.pool.tree twice).Rearranges (workspace.pool.tree both) ∧
      Pass.normalize twice workspace = .ok r middle ∧ Pass.normalize both middle = .ok s after ∧
        r ≠ s := by
  obtain ⟨first, x, y, firstReachable, xStored, yStored⟩ :=
    exists_reachable_variables (by decide : "y" ≠ "x")
  obtain ⟨second, either, secondReachable, toSecond, eitherStored⟩ :=
    firstReachable.exists_gate (.or (by simp) (by simp)) (by simp) ⟨_, xStored⟩ ⟨_, yStored⟩
  replace xStored := toSecond xStored
  replace yStored := toSecond yStored
  obtain ⟨third, other, thirdReachable, toThird, otherStored⟩ :=
    secondReachable.exists_gate (.or (by simp) (by simp)) (by simp) ⟨_, yStored⟩ ⟨_, xStored⟩
  replace eitherStored := toThird eitherStored
  obtain ⟨fourth, twice, fourthReachable, toFourth, twiceStored⟩ :=
    thirdReachable.exists_gate (.and (by simp) (by simp)) (by simp) ⟨_, eitherStored⟩ ⟨_, eitherStored⟩
  replace eitherStored := toFourth eitherStored
  replace otherStored := toFourth otherStored
  obtain ⟨workspace, both, reachable, toLast, bothStored⟩ :=
    fourthReachable.exists_gate (.and (by simp) (by simp)) (by simp) ⟨_, eitherStored⟩ ⟨_, otherStored⟩
  replace xStored := toLast (toFourth (toThird xStored))
  replace yStored := toLast (toFourth (toThird yStored))
  replace eitherStored := toLast eitherStored
  replace otherStored := toLast otherStored
  replace twiceStored := toLast twiceStored
  have twiceHas := Pool.has_iff.mpr ⟨_, twiceStored⟩
  have bothHas := Pool.has_iff.mpr ⟨_, bothStored⟩
  obtain ⟨r, middle, ended, toMiddle, -⟩ :=
    (Pass.normalize_yields reachable.sound twiceHas).exists_ok
  obtain ⟨s, after, otherEnded, -, -⟩ := (Pass.normalize_yields (toMiddle.sound reachable.sound)
    (toMiddle.extension.has bothHas)).exists_ok
  refine ⟨workspace, middle, after, x, y, either, other, twice, both, r, s, reachable, xStored, yStored,
    eitherStored, otherStored, twiceStored, bothStored, ?_, ended, otherEnded, ?_⟩
  · rw [Pool.tree_apply twiceStored, Pool.tree_apply bothStored]
    refine .single (@Tree.Permutes.inside _ [_] [] _ _ ?_)
    rw [Pool.tree_apply eitherStored, Pool.tree_apply otherStored]
    exact .here .or (.swap _ _ _)
  · obtain ⟨extension, typed, chain, otherChain⟩ :=
      reachable.sound.toCoherent.exists_chains twiceHas bothHas ended otherEnded
    exact Pool.normal_forms_ne (extension xStored) (extension yStored) (extension eitherStored)
      (extension otherStored) (extension twiceStored) (extension bothStored) typed chain otherChain

end Workspace

end Clausal
