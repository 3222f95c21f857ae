import Mathlib
import Clausal.Proofs.Canonical
import Clausal.Proofs.Decomposition
import Clausal.Proofs.Simplification
import Clausal.Proofs.Walks

/-!
# Passes keep the meaning

Each pass succeeds on every stored expression of a sound workspace, whatever was
remembered before, and returns what `Pass.Result` demands. In a workspace that is
only coherent it may fail, but then nothing derives from the expression. Normal
forms refine their expressions and have no operator that lowering refuses.
-/

namespace Clausal.Pass

variable {pool : Pool} {workspace : Workspace PassMemory} {e : ExprId}

section Steps

/-- A stored proposal refines the application that it replaces. -/
theorem refines_of_replaces {after : Pool} {ty : Ty} {op : Op} {operands : List ExprId}
    {draft : Draft} {r : ExprId} (found : pool.node? e = some ⟨ty, .apply op operands⟩)
    (extension : pool.Extends after) (replaces : Rules.Replaces pool op operands ty draft)
    (stores : draft.Stores pool ty r after) : after.Refines e r := by
  refine ⟨⟨ty, ⟨_, extension found⟩, stores.hasTy⟩, fun env value evaluated => ?_⟩
  rw [extension.evaluate_eq (Pool.has_iff.mpr ⟨_, found⟩), Pool.evaluate_apply found] at evaluated
  obtain ⟨values, valueOf, computed⟩ := evaluated
  exact (stores.evaluate_eq env).trans (replaces.means valueOf computed)

/-- A stored improvement is a step, which makes the expression lighter. -/
theorem step_of_improves {after : Pool} {ty : Ty} {op : Op} {operands : List ExprId}
    {draft : Draft} {r : ExprId} (typed : pool.WellTyped)
    (found : pool.node? e = some ⟨ty, .apply op operands⟩) (extension : pool.Extends after)
    (improves : Rules.Improves pool op operands ty draft) (stores : draft.Stores pool ty r after)
    (loose : ¬ pool.Rigid e) (complex : ¬ pool.Simplified e) :
    Step .simplify after e r ∧ after.weight r < after.weight e := by
  have stored := Pool.has_iff.mpr ⟨_, found⟩
  have lighter : after.weight r < after.weight e := by
    rw [stores.weight_eq, extension.weight_eq stored, Pool.weight_apply found]
    exact improves.lighter
  refine ⟨⟨refines_of_replaces found extension improves.toReplaces stores, fun rigid => ?_, ?_,
    fun _ => lighter.le, fun _ simplified => ?_⟩, lighter⟩
  · exact absurd ((extension.rigid_iff stored).mp rigid) loose
  · intro _ grammar closed follows
    rw [extension.follows_iff stored] at follows
    obtain ⟨⟨permitted, -⟩, each⟩ := (Pool.everywhere_apply found).mp follows
    refine improves.draws.follows stores.realizes ?_ fun new member => ?_
    · rintro part ⟨operand, member, reaches⟩
      have partStored := reaches.has (Rules.has_of_applies (typed.fits found) operand member)
      exact (extension.follows_iff partStored).mpr ((each operand member).of_reaches reaches)
    · obtain ⟨allowed, anything⟩ := closed permitted new member
      exact ⟨allowed, anything after⟩
  · exact absurd ((extension.simplified_iff stored).mp simplified) complex

/-- A selection is not assembled from parts. -/
theorem op?_ne_of_selects {assembles : Op} (selects : pool.Selects e)
    (isAssembly : assembles = .bits ∨ assembles = .tuple) : pool.op? e ≠ some assembles := by
  cases selects with
  | var stored => simp [Pool.op?, stored, Node.op?]
  | bit stored further | field stored further =>
    rw [Pool.op?_of_apply stored]
    rcases isAssembly with rfl | rfl <;> simp

/-- No rule simplifies a rigid expression. -/
theorem simplification_of_rigid {ty : Ty} {op : Op} {operands : List ExprId}
    (found : pool.node? e = some ⟨ty, .apply op operands⟩) (rigid : pool.Rigid e) :
    Rules.simplification pool op operands = .ok none := by
  have notConstant : ∀ {first : ExprId} {rest : List ExprId}, pool.Selects first →
      (first :: rest).mapM pool.constant? = none := by
    intro first rest selects
    simp [selects.constant?_eq_none]
  cases rigid with
  | selection selects =>
    cases selects with
    | var stored =>
      rw [found] at stored
      cases stored
    | bit stored further =>
      rw [found] at stored
      cases stored
      simp only [Rules.simplification, notConstant further]
      exact if_neg (op?_ne_of_selects further (.inl rfl))
    | field stored further =>
      rw [found] at stored
      cases stored
      simp only [Rules.simplification, notConstant further]
      exact if_neg (op?_ne_of_selects further (.inr rfl))
  | negation stored selects =>
    rw [found] at stored
    cases stored
    simp [Rules.simplification, notConstant selects, selects.negated?_eq_none]

/-- Simplifying the top of an expression keeps it if no rule applies, and otherwise
is a step that makes it lighter. -/
theorem simplifyTop_yields (typed : pool.WellTyped) (stored : pool.Has e) :
    Build.Yields (atTop Op.simplifies Rules.simplify e) pool fun r after =>
      (r = e ∧ ∀ op ∈ after.op? e, Rules.simplification after op (after.operands e) = .ok none) ∨
        Step .simplify after e r ∧ after.weight r < after.weight e := by
  refine atTop_yields (fun refused => .inl ⟨rfl, fun op found => absurd rfl (refused op found)⟩) ?_
  intro ty op operands found _
  have applies : pool.Applies op operands ty := typed.fits found
  obtain ⟨proposal, proposed, improves⟩ := Rules.simplification_improves typed applies
  refine .get (.ofExcept proposed ((Draft.build?_yields fun draft same =>
    (improves draft same).fits).mono ?_))
  rintro result after advances (⟨rfl, rfl, rfl⟩ | ⟨draft, r, same, rfl, stores⟩)
  · refine .inl ⟨rfl, fun other otherFound => ?_⟩
    rw [Pool.op?_of_apply found] at otherFound
    cases otherFound
    rw [Pool.operands_of_node? found]
    exact proposed
  · have loose : ¬ pool.Rigid e := by
      intro rigid
      rw [simplification_of_rigid found rigid] at proposed
      cases proposed
      cases same
    have complex : ¬ pool.Simplified e := by
      intro simplified
      rw [((Pool.everywhere_apply found).mp simplified).1] at proposed
      cases proposed
      cases same
    exact .inr (step_of_improves typed found advances.extension (improves draft same) stores loose
      complex)

/-- Sorted operands take the place of the operands at the top of an expression. -/
theorem step_of_canonicalization {after : Pool} {ty : Ty} {op : Op} {operands sortedOperands : List ExprId}
    {r : ExprId} (found : pool.node? e = some ⟨ty, .apply op operands⟩)
    (commutative : op.isCommutative) (perm : sortedOperands.Perm operands)
    (extension : pool.Extends after)
    (replaces : Rules.Replaces pool op operands ty (.ofKnown op sortedOperands))
    (stores : (Draft.ofKnown op sortedOperands).Stores pool ty r after) :
    Step .canonicalize after e r ∧ after.node? r = some ⟨ty, .apply op sortedOperands⟩ := by
  have stored := Pool.has_iff.mpr ⟨_, found⟩
  obtain ⟨resultTy, result⟩ := Draft.realizes_ofKnown_iff.mp stores.realizes
  obtain rfl := stores.hasTy.unique ⟨_, result⟩
  refine ⟨⟨refines_of_replaces found extension replaces stores, fun rigid => ?_, ?_, nofun, nofun⟩,
    result⟩
  · rw [extension.rigid_iff stored] at rigid
    obtain rfl | ⟨_, rfl⟩ | ⟨_, rfl⟩ := rigid.op_cases found <;> cases commutative
  · intro _ grammar _ follows
    obtain ⟨⟨permitted, anything⟩, each⟩ := (Pool.everywhere_apply (extension found)).mp follows
    refine (Pool.everywhere_apply result).mpr ⟨⟨permitted, fun operand member => ?_⟩, ?_⟩
    · exact anything operand (perm.mem_iff.mp member)
    · exact fun operand member => each operand (perm.mem_iff.mp member)

/-- `r` is `e` with the operands of a commutative operator at the top in order. -/
inductive Sorts (pool after : Pool) (e r : ExprId) : Prop where
  | kept (same : r = e)
      (inOrder : ∀ op ∈ pool.op? e, op.isCommutative →
        Rules.sorted pool (pool.operands e) = pool.operands e)
  | sorted {ty : Ty} {op : Op} {operands : List ExprId} (commutative : op.isCommutative)
      (found : pool.node? e = some ⟨ty, .apply op operands⟩)
      (result : after.node? r = some ⟨ty, .apply op (Rules.sorted pool operands)⟩)

/-- Canonicalizing the top of an expression puts the operands of a commutative
operator in order, and changes nothing else. -/
theorem canonicalizeTop_yields (typed : pool.WellTyped) (stored : pool.Has e) :
    Build.Yields (atTop Op.canonicalizes Rules.canonicalize e) pool fun r after =>
      Step .canonicalize after e r ∧ Sorts pool after e r := by
  have unchanged : ∀ {after : Pool}, pool.Extends after → Step .canonicalize after e e :=
    fun extension => .refl (extension.has stored)
  refine atTop_yields (fun refused => ⟨unchanged (.refl pool), .kept rfl fun op found commutative =>
    absurd commutative (refused op found)⟩) fun ty op operands found commutative => ?_
  have applies : pool.Applies op operands ty := typed.fits found
  refine .get ((Draft.build?_yields fun draft same =>
    (Rules.canonicalization_replaces typed applies same).fits).mono ?_)
  rintro result after advances (⟨none, rfl, -⟩ | ⟨draft, r, same, rfl, stores⟩)
  · refine ⟨unchanged advances.extension, .kept rfl fun _ _ _ => ?_⟩
    rw [Pool.operands_of_node? found]
    exact Rules.sorted_of_canonicalization commutative none
  · have replaces := Rules.canonicalization_replaces typed applies same
    obtain rfl := Rules.eq_ofKnown_of_canonicalization same
    have perm := Rules.sorted_perm pool operands
    obtain ⟨step, resultFound⟩ :=
      step_of_canonicalization found commutative perm advances.extension replaces stores
    exact ⟨step, .sorted commutative found resultFound⟩

end Steps

section Runs

/-- Simplification with a sufficient bound. -/
theorem simplifyWithin_yields {bound : Nat} (coherent : workspace.Coherent)
    (stored : workspace.pool.Has e) (light : workspace.pool.weight e ≤ bound) :
    Work.Yields (simplifyWithin bound e) workspace fun r after => Result .simplify after.pool e r := by
  induction bound generalizing e workspace with
  | zero => exact absurd light (workspace.pool.weight_pos e).not_ge
  | succ bound inductionHypothesis =>
    refine bottomUp_yields (bound + 1) ?_ coherent stored fun _ => light
    intro later e same new laterCoherent stored rebuilds each sameLight
    have typed := laterCoherent.typed
    have rebuilt := rebuilds.toStep typed stored each
    have sameStored := rebuilt.refines.has_right
    refine (Work.ofBuild_yields (simplifyTop_yields typed sameStored).ran).bind
      fun r first toResult ⟨result, ended⟩ => ?_
    have firstCoherent := toResult.coherent laterCoherent
    have extension := toResult.extension
    by_cases unchanged : r = same
    · rw [if_pos unchanged]
      have derives := rebuilds.derives_up typed stored each extension ended rfl fun _ => unchanged
      subst unchanged
      have noRule := (result.resolve_right fun improved => improved.2.false).2
      have simplified : first.pool.Simplified r := by
        refine Pool.everywhere_iff.mpr ⟨noRule, fun other member => ?_⟩
        rw [extension.operands_eq sameStored, rebuilds.operands_eq each] at member
        obtain ⟨operand, -, operandResult⟩ := exists_of_forall₂_of_mem each.flip member
        exact (operandResult.mono extension).settles
      exact .pure ⟨rebuilt.mono extension, simplified, by simp, derives⟩
    · rw [if_neg unchanged]
      obtain ⟨improved, lighter⟩ := result.resolve_left fun kept => unchanged kept.1
      rw [extension.weight_eq sameStored] at lighter
      have bounded : first.pool.weight r ≤ bound := by
        have limit := sameLight rfl
        omega
      have resultStored := improved.refines.has_right
      refine (inductionHypothesis firstCoherent resultStored bounded).mono ?_
      intro final last advances again
      have whole := ((rebuilt.mono extension).trans improved).mono advances.extension
      refine ⟨whole.trans again.toStep, again.settles, by simp, ?_⟩
      have rest := again.derives
      rw [advances.extension.tree_eq resultStored] at rest
      rw [advances.extension.tree_eq (extension.has stored)]
      exact rebuilds.derives_again typed stored each extension ended rfl firstCoherent.typed resultStored
        unchanged rest

section Canonicalization

variable {after : Pool} {same r : ExprId} {new : List ExprId} (stored : pool.Has e)
  (rebuilds : pool.Rebuilds e new same)
  (each : List.Forall₂ (Result .canonicalize pool) (pool.operands e) new)
  (extension : pool.Extends after) (sorts : Sorts pool after same r)
include stored rebuilds each extension sorts

/-- Canonicalizing the top of an expression that was rebuilt with reordered operands
reorders the expression. -/
theorem reordered_of_rebuilds : after.Reordered e r := by
  have reordered : List.Forall₂ after.Reordered (pool.operands e) new :=
    each.imp fun _ _ result => (result.mono extension).settles
  rcases rebuilds.cases each with ⟨rfl, leaf⟩ | ⟨ty, op, application, rebuilt⟩
  · cases sorts with
    | kept same =>
      subst same
      exact .refl (extension.has stored)
    | sorted commutative sameFound =>
      rw [Pool.op?_of_apply sameFound] at leaf
      cases leaf
  · cases sorts with
    | kept same =>
      subst same
      exact Pool.reordered_apply (extension application) (extension rebuilt) reordered (.refl _)
        fun _ => rfl
    | sorted commutative sameFound result =>
      rw [rebuilt] at sameFound
      cases sameFound
      exact Pool.reordered_apply (extension application) result reordered (Rules.sorted_perm _ _)
        fun notCommutative => absurd commutative notCommutative

/-- The result has all operands in order if the new operands do. -/
theorem canonical_of_rebuilds : after.Canonical r := by
  have resultOf : ∀ other ∈ new, pool.Has other ∧ after.Canonical other := by
    intro other member
    obtain ⟨operand, -, result⟩ := exists_of_forall₂_of_mem each.flip member
    exact ⟨result.refines.has_right, (result.mono extension).inOrder rfl⟩
  cases sorts with
  | kept isSame inOrder =>
    subst isSame
    have sameStored : pool.Has r := (rebuilds.refines stored (each.imp fun _ _ result =>
      result.refines)).has_right
    have operands := rebuilds.operands_eq each
    refine Pool.everywhere_iff.mpr ⟨fun op found commutative => ?_, fun other member => ?_⟩
    · rw [extension.op?_eq sameStored] at found
      rw [extension.operands_eq sameStored, extension.sorted_eq fun _ => Pool.has_operand]
      exact inOrder op found commutative
    · rw [extension.operands_eq sameStored, operands] at member
      exact (resultOf other member).2
  | @sorted ty op operands commutative found result =>
    have same : operands = new := (Pool.operands_of_node? found).symm.trans (rebuilds.operands_eq each)
    subst same
    have sortedOf : ∀ other ∈ Rules.sorted pool operands, pool.Has other ∧ after.Canonical other :=
      fun other member => resultOf other (List.mem_mergeSort.mp member)
    refine (Pool.everywhere_apply result).mpr ⟨fun _ => ?_, fun other member => (sortedOf other member).2⟩
    rw [extension.sorted_eq fun other member => (sortedOf other member).1,
      Pool.sorted_sorted fun other member => (resultOf other member).1]

end Canonicalization

/-- A remembered result is a result, and otherwise the pass is run. -/
theorem lookUpOr_tries {pass : Pass} {run : Pool → Work ExprId} {excused : Prop}
    (coherent : workspace.Coherent)
    (runs : Work.Tries (run workspace.pool) workspace (fun r after => pass.Result after.pool e r)
      excused) :
    Work.Tries (lookUpOr pass e run) workspace (fun r after => pass.Result after.pool e r) excused := by
  unfold lookUpOr
  exact Work.lookUp_tries (fun r found => .pure (coherent.remembered found)) (.get runs)

/-- Decomposing the top of an expression fails only if nothing becomes of it. -/
theorem decomposeTop_tries (typed : pool.WellTyped) (stored : pool.Has e) :
    Stateful.Tries Pool.Advances (step .decompose e) pool (fun top after => Tops .decompose after e top)
      (pool.Stuck (Turns .decompose) e) := by
  by_cases blocked : Blocked pool e
  · obtain ⟨failure, failed⟩ := decomposeTop_eq_error typed blocked
    refine .of_error failed (refl pool) ⟨fun sized => ?_, blocked.not_turns typed⟩
    exact not_blocked_of_sized typed sized blocked
  · exact (decomposeTop_yields typed stored blocked).tries

/-- Canonicalization succeeds on every stored expression. -/
theorem canonicalize_yields (coherent : workspace.Coherent) (stored : workspace.pool.Has e) :
    Work.Yields (run .canonicalize e) workspace fun r after => Result .canonicalize after.pool e r := by
  refine bottomUp_yields 0 (fun {later x same new} laterCoherent xStored rebuilds each _ => ?_)
    coherent stored (by simp)
  have typed := laterCoherent.typed
  have rebuilt := rebuilds.toStep typed xStored each
  refine (Work.ofBuild_yields (canonicalizeTop_yields typed rebuilt.refines.has_right).ran).mono ?_
  rintro r after advances ⟨⟨step, sorts⟩, ended⟩
  have extension := advances.extension
  exact ⟨(rebuilt.mono extension).trans step,
    reordered_of_rebuilds xStored rebuilds each extension sorts,
    fun _ => canonical_of_rebuilds xStored rebuilds each extension sorts,
    rebuilds.derives_up typed xStored each extension ended rfl (by simp)⟩

/-- Every pass succeeds on a stored expression and returns a result, unless there is
no result. -/
theorem run_tries (pass : Pass) (coherent : workspace.Coherent) (stored : workspace.pool.Has e) :
    Work.Tries (run pass e) workspace (fun r after => pass.Result after.pool e r)
      (workspace.pool.Stuck pass.Derives e) := by
  cases pass with
  | simplify =>
    rw [run, simplifyExpr]
    exact lookUpOr_tries coherent (simplifyWithin_yields coherent stored le_rfl).tries
  | pushNegation =>
    rw [run, pushNegations]
    refine lookUpOr_tries coherent (topDown_tries (.inl rfl) (fun typed xStored => ?_) coherent stored
      le_rfl)
    exact (absorb_yields typed xStored).tries
  | canonicalize => exact (canonicalize_yields coherent stored).tries
  | decompose =>
    rw [run, decomposeExpr]
    exact lookUpOr_tries coherent (topDown_tries (.inr rfl) decomposeTop_tries coherent stored le_rfl)

section Exactness

variable {pass : Pass} (coherent : workspace.Coherent) (stored : workspace.pool.Has e)
include coherent stored

/-- A pass returns exactly what derives from the expression. -/
theorem exists_run_iff {tree : Tree} :
    (∃ r after, run pass e workspace = .ok r after ∧ after.pool.tree r = tree) ↔
      pass.Derives (workspace.pool.tree e) tree := by
  have tries := run_tries pass coherent stored
  constructor
  · rintro ⟨r, after, ended, rfl⟩
    obtain ⟨advances, result⟩ := tries.of_ok ended
    rw [← advances.extension.tree_eq stored]
    exact result.derives
  · intro derives
    obtain ⟨r, after, ended, advances, result⟩ :=
      (tries.yields fun stuck => stuck.no_result ⟨tree, derives⟩).exists_ok
    have found := result.derives
    rw [advances.extension.tree_eq stored] at found
    exact ⟨r, after, ended, found.unique derives⟩

/-- What derives from an expression and is stored is what the pass returns. -/
theorem run_eq_ok {r : ExprId} (resultStored : workspace.pool.Has r)
    (derives : pass.Derives (workspace.pool.tree e) (workspace.pool.tree r)) :
    ∃ after, run pass e workspace = .ok r after := by
  obtain ⟨other, after, ended, same⟩ := (exists_run_iff coherent stored).mpr derives
  obtain ⟨advances, result⟩ := (run_tries pass coherent stored).of_ok ended
  have typed := (advances.coherent coherent).typed
  have isResult : other = r := by
    refine typed.tree_injective result.refines.has_right (advances.extension.has resultStored) ?_
    rw [same, advances.extension.tree_eq resultStored]
  exact ⟨after, isResult ▸ ended⟩

end Exactness

/-- Every pass succeeds on a stored expression of a sound workspace. -/
theorem run_yields (pass : Pass) (sound : workspace.Sound) (stored : workspace.pool.Has e) :
    Work.Yields (run pass e) workspace fun r after => pass.Result after.pool e r :=
  (run_tries pass sound.toCoherent stored).yields fun stuck => stuck.narrow sound.sized

/-- Passes one after the other. -/
def runAll (passes : List Pass) (e : ExprId) : Work ExprId :=
  passes.foldlM (fun e pass => run pass e) e

/-- The passes that make a normal form. -/
def stages : List Pass :=
  [.simplify, .decompose, .simplify, .pushNegation, .simplify, .canonicalize]

/-- The passes of a normal form in front of the last one. -/
def preparation : List Pass :=
  [.simplify, .decompose, .simplify, .pushNegation, .simplify]

theorem stages_eq : stages = preparation ++ [.canonicalize] := rfl

theorem normalize_eq_runAll (e : ExprId) : normalize e = runAll stages e := by
  simp [normalize, runAll, stages, List.foldlM_cons]

/-- The result of one pass is what the next one starts from. -/
inductive Chain (pool : Pool) : List Pass → ExprId → ExprId → Prop where
  | nil {e : ExprId} (stored : pool.Has e) : Chain pool [] e e
  | cons {pass : Pass} {passes : List Pass} {e middle r : ExprId} (first : pass.Result pool e middle)
      (rest : Chain pool passes middle r) : Chain pool (pass :: passes) e r

namespace Chain

variable {passes : List Pass} {r : ExprId}

theorem refines (chain : Chain pool passes e r) : pool.Refines e r := by
  induction chain with
  | nil stored => exact .refl stored
  | cons first _ inductionHypothesis => exact first.refines.trans inductionHypothesis

theorem mono {before after : Pool} (extension : before.Extends after)
    (chain : Chain before passes e r) : Chain after passes e r := by
  induction chain with
  | nil stored => exact .nil (extension.has stored)
  | cons first _ inductionHypothesis => exact .cons (first.mono extension) inductionHypothesis

theorem exists_of_append {others : List Pass} (chain : Chain pool (passes ++ others) e r) :
    ∃ middle, Chain pool passes e middle ∧ Chain pool others middle r := by
  induction passes generalizing e with
  | nil => exact ⟨e, .nil chain.refines.has_left, chain⟩
  | cons pass passes inductionHypothesis =>
    cases chain with
    | cons first rest =>
      obtain ⟨middle, front, back⟩ := inductionHypothesis rest
      exact ⟨middle, .cons first front, back⟩

/-- A normal form is what canonicalization makes of what the other passes return. -/
theorem exists_canonicalized (chain : Chain pool stages e r) :
    ∃ p, Chain pool preparation e p ∧ Result .canonicalize pool p r := by
  obtain ⟨p, front, last⟩ := exists_of_append (stages_eq ▸ chain)
  obtain _ | ⟨canonicalized, _ | -⟩ := last
  exact ⟨p, front, canonicalized⟩

theorem derives (chain : Chain pool passes e r) : DerivesAll passes (pool.tree e) (pool.tree r) := by
  induction chain with
  | nil => exact .nil
  | cons first _ inductionHypothesis => exact .cons first.derives inductionHypothesis

/-- No pass changes a rigid expression. -/
theorem eq_of_rigid (chain : Chain pool passes e r) (rigid : pool.Rigid e) : r = e := by
  induction chain with
  | nil stored => rfl
  | cons first _ inductionHypothesis =>
    obtain rfl := first.rigid rigid
    exact inductionHypothesis rigid

end Chain

/-- Passes one after the other succeed on a stored expression, unless there is no
result. -/
theorem runAll_tries (passes : List Pass) (coherent : workspace.Coherent)
    (stored : workspace.pool.Has e) :
    Work.Tries (runAll passes e) workspace (fun r after => Chain after.pool passes e r)
      (workspace.pool.Stuck (DerivesAll passes) e) := by
  induction passes generalizing e workspace with
  | nil => exact .pure (.nil stored)
  | cons pass passes inductionHypothesis =>
    refine ((run_tries pass coherent stored).excuse fun stuck =>
      ⟨stuck.narrow, not_derivesAll_of_first stuck.no_result⟩).bind fun middle after toMiddle result => ?_
    refine (inductionHypothesis (toMiddle.coherent coherent) result.refines.has_right).mono ?_ ?_
    · exact fun r final advances chain => .cons (result.mono advances.extension) chain
    · intro stuck
      have derives := result.derives
      rw [toMiddle.extension.tree_eq stored] at derives
      exact ⟨fun sized => stuck.narrow (toMiddle.pool.sized sized),
        not_derivesAll_of_rest derives stuck.no_result⟩

/-- Passes one after the other succeed on a stored expression of a sound
workspace. -/
theorem runAll_yields (passes : List Pass) (sound : workspace.Sound) (stored : workspace.pool.Has e) :
    Work.Yields (runAll passes e) workspace fun r after => Chain after.pool passes e r :=
  (runAll_tries passes sound.toCoherent stored).yields fun stuck => stuck.narrow sound.sized

/-- A normal form derives from its expression, if there is one. -/
theorem normalize_tries (coherent : workspace.Coherent) (stored : workspace.pool.Has e) :
    Work.Tries (normalize e) workspace (fun r after => Chain after.pool stages e r)
      (workspace.pool.Stuck (DerivesAll stages) e) := by
  rw [normalize_eq_runAll]
  exact runAll_tries stages coherent stored

/-- A normal form refines its expression, and lowering has clauses for all its
operators. -/
theorem normalize_yields (sound : workspace.Sound) (stored : workspace.pool.Has e) :
    Work.Yields (normalize e) workspace fun r after =>
      after.pool.Refines e r ∧ after.pool.Plain r := by
  rw [normalize_eq_runAll]
  refine (runAll_yields _ sound stored).mono fun r after _ chain => ⟨chain.refines, ?_⟩
  obtain _ | ⟨-, _ | ⟨decomposed, _ | ⟨again, _ | ⟨pushed, _ | ⟨last, _ | ⟨canonical, _ | -⟩⟩⟩⟩⟩⟩ := chain
  have plain := again.plain (.inr (decomposed.plain (.inl rfl)))
  exact canonical.plain (.inr (last.plain (.inr (pushed.plain (.inr plain)))))

end Runs

end Clausal.Pass
